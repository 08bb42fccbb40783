import LeoUTF8.NFDReference

set_option autoImplicit false

/-! # LeoUTF8NormalizeNFCBytes computes NFC -/
namespace LeoUTF8.NFCReference
open ScalarEncoding RunSorting RecursiveExpansion StarterComposition EngineTables
open CodePointMapping DecompositionPass CompositionCorrectness EncodingCorrectness
open TableAssumptions MapCorrectness NFDReference

/-- The pairs that combine: Hangul L and V, Hangul LV and T, and the primary composites. -/
def combiningPair (primary : ℕ → ℕ → Option ℕ) (a b : ℕ) : Option ℕ :=
  (hangulComposite a b).or (primary a b)

/-- The canonical composition of the Unicode Standard. -/
def canonicalComposition (t : Utf8procData) (primary : ℕ → ℕ → Option ℕ) (l : List ℕ) : List ℕ :=
  referenceCompose (combiningClass t) (combiningPair primary) l

theorem hangulComposite_isSyllable {a b p : ℕ} (h : hangulComposite a b = some p) :
    IsHangulSyllable p := by
  unfold hangulComposite at h
  unfold IsHangulSyllable at *
  split_ifs at h <;>
  · obtain rfl := Option.some.inj h
    omega

theorem combiningPair_starter {t : Utf8procData} {primary : ℕ → ℕ → Option ℕ}
    (hangul : HangulInert t) (hprimary : PrimaryComposites t primary) {a b p : ℕ}
    (h : combiningPair primary a b = some p) : combiningClass t p = 0 := by
  rcases Option.or_eq_some_iff.mp h with h | ⟨_, h⟩
  · exact hangul.class_zero p (Or.inr (hangulComposite_isSyllable h))
  · exact (hprimary.starters a b p h).2

theorem composite_eq_combiningPair {t : Utf8procData} {primary : ℕ → ℕ → Option ℕ}
    (hprimary : PrimaryComposites t primary) {a b : ℕ} (ha : a < 0x110000) (hb : b < 0x110000) :
    composite t a b = combiningPair primary a b := by
  rw [composite, combiningPair, tableComposite_eq_primary hprimary ha hb]

/-- The composition of the engine is the canonical composition. -/
theorem composition_eq {t : Utf8procData} {primary : ℕ → ℕ → Option ℕ}
    (nonneg : NonnegativeClasses t) (hangul : HangulInert t)
    (hprimary : PrimaryComposites t primary) {l : List ℕ} (hl : ∀ c ∈ l, c < 0x110000) :
    composition t l = canonicalComposition t primary l := by
  calc
    composition t l = compose (combiningClass t) (combiningPair primary) l := by
      apply compose_congr (p := (· < 0x110000))
      · exact fun _ _ _ _ _ hp => composite_lt hp
      · exact fun _ _ ha hb => composite_eq_combiningPair hprimary ha hb
      · exact hl
    _ = canonicalComposition t primary l := by
      apply compose_eq_referenceCompose
      · exact fun _ _ _ hp => combiningPair_starter hangul hprimary hp
      · exact fun c hc => nonneg c (hl c hc)

end LeoUTF8.NFCReference
