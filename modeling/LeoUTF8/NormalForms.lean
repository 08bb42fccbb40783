import LeoUTF8.MapCorrectness

set_option autoImplicit false

/-!
# The two normal forms

Decomposing and ordering takes the outputs of both transforms back to what it gives for
their input, and each transform is a function of that sequence.
-/
namespace LeoUTF8.NormalForms
open ScalarEncoding RunSorting RecursiveExpansion StarterComposition EngineTables
open CodePointMapping DecompositionPass CompositionCorrectness EncodingCorrectness
open TableAssumptions MapCorrectness

def orderedDecomposition (t : Utf8procData) (cs : List ℕ) : List ℕ :=
  sortRuns (combiningClass t) (expansions t .nfd cs)

theorem entry_nfc (t : Utf8procData) : entry t .nfc = entry t .nfd := by
  funext c
  rfl

theorem terminal_nfc : terminal .nfc = terminal .nfd := by
  funext c
  rfl

theorem expansion_nfc (t : Utf8procData) : expansion t .nfc = expansion t .nfd := by
  funext c
  rw [expansion, expansion, entry_nfc, terminal_nfc]

theorem nfd_eq_ordered (t : Utf8procData) (cs : List ℕ) :
    transformed t .nfd cs = orderedDecomposition t cs :=
  transformed_nfd t cs

theorem nfc_eq_ordered (t : Utf8procData) (cs : List ℕ) :
    transformed t .nfc cs = composition t (orderedDecomposition t cs) := by
  rw [transformed_nfc, expansions, expansion_nfc]
  rfl

section Absorption

variable {t : Utf8procData} (terminates : Terminates (entry t .nfd))
  (nonneg : NonnegativeClasses t) (hangul : HangulInert t) {cs : List ℕ}
  (hcs : ∀ c ∈ cs, IsScalar c)
include terminates nonneg hangul hcs

/-- The elements of an ordered decomposition are code points that stand for themselves. -/
theorem orderedDecomposition_terminal :
    ∀ x ∈ orderedDecomposition t cs,
      x < 0x110000 ∧ expansion t .nfd x = [x] ∧ 0 ≤ combiningClass t x := by
  intro x hx
  rw [orderedDecomposition, mem_sortRuns] at hx
  obtain ⟨c, hc, hx⟩ := List.mem_flatMap.mp hx
  have hexp : Expandable t .nfd c := expandable_of_terminates terminates (hcs c hc).lt
  have hlt := (expansion_isScalar hexp (hcs c hc) x hx).lt
  refine ⟨hlt, ?_, nonneg x hlt⟩
  apply expansion_of_unmapped
  exact expansion_unmapped (terminal_unmapped hangul) hexp x hx

theorem orderedDecomposition_idem :
    orderedDecomposition t (orderedDecomposition t cs) = orderedDecomposition t cs := by
  have hself : expansions t .nfd (orderedDecomposition t cs) = orderedDecomposition t cs :=
    flatMap_singletons fun x hx =>
      (orderedDecomposition_terminal terminates nonneg hangul hcs x hx).2.1
  rw [orderedDecomposition, hself, orderedDecomposition, sortRuns_idem]

theorem orderedDecomposition_composition (compositions : CompositionsDecompose t) :
    orderedDecomposition t (composition t (orderedDecomposition t cs)) =
      orderedDecomposition t cs := by
  have hpair : ∀ a b p, a < 0x110000 → b < 0x110000 → composite t a b = some p →
      p < 0x110000 ∧ expansion t .nfd p = expansion t .nfd a ++ expansion t .nfd b :=
    fun a b p ha hb h => expansion_composite terminates hangul compositions ha hb h
  calc
    orderedDecomposition t (composition t (orderedDecomposition t cs)) =
        sortRuns (combiningClass t) (orderedDecomposition t cs) :=
      sortRuns_flatMap_compose _ _ hpair
        (orderedDecomposition_terminal terminates nonneg hangul hcs)
    _ = orderedDecomposition t cs := sortRuns_idem _ _

theorem orderedDecomposition_transformed (compositions : CompositionsDecompose t) {G : Transform}
    (hG : G.canonical = true) :
    orderedDecomposition t (transformed t G cs) = orderedDecomposition t cs := by
  cases G with
  | nfc =>
    rw [nfc_eq_ordered]
    exact orderedDecomposition_composition terminates nonneg hangul hcs compositions
  | nfd =>
    rw [nfd_eq_ordered]
    exact orderedDecomposition_idem terminates nonneg hangul hcs
  | caseFold => cases hG

end Absorption

/-- A normal form is a function of the ordered decomposition. -/
theorem transformed_congr {t : Utf8procData} {F : Transform} (hF : F.canonical = true)
    {cs ds : List ℕ} (h : orderedDecomposition t cs = orderedDecomposition t ds) :
    transformed t F cs = transformed t F ds := by
  cases F with
  | nfc => rw [nfc_eq_ordered, nfc_eq_ordered, h]
  | nfd => rw [nfd_eq_ordered, nfd_eq_ordered, h]
  | caseFold => cases hF

/-- The output of one call as the input of the next, in terms of code points. -/
theorem output_codes {pf : Platform} {t : Utf8procData} {F : Transform} {ks : List ℕ}
    {z : List UInt8} (hks : ∀ k ∈ ks, k < 0x110000)
    (h : TransformOutput pf t F (encodeAll ks) z) : z = encodeAll (transformed t F ks) := by
  obtain ⟨es, hes, hsum, rfl⟩ := h.codes
  rw [encodeAll_injective hks (fun e he => (hes e he).2.lt) hsum]

/-- Applying a normal form after another gives the same as applying it alone, and both tell the
same inputs apart. Of the tables it is assumed that expansions end, that no combining class is
negative, that jamo and syllables have no entries, and that a composite decomposes like its
parts. -/
theorem normalForms_absorb (pf : Platform) (t : Utf8procData)
    (terminates : Terminates (entry t .nfd)) (nonneg : NonnegativeClasses t)
    (hangul : HangulInert t) (compositions : CompositionsDecompose t) :
    (∀ F G : Transform, F.canonical = true → G.canonical = true → ∀ x y z w,
      TransformOutput pf t G x y → TransformOutput pf t F y z → TransformOutput pf t F x w →
        z = w) ∧
    ∀ x x' c c' d d', TransformOutput pf t .nfc x c → TransformOutput pf t .nfc x' c' →
      TransformOutput pf t .nfd x d → TransformOutput pf t .nfd x' d' → (c = c' ↔ d = d') := by
  have habsorb {cs : List ℕ} (hcs : ∀ c ∈ cs, IsScalar c) {G : Transform}
      (hG : G.canonical = true) :
      orderedDecomposition t (transformed t G cs) = orderedDecomposition t cs :=
    orderedDecomposition_transformed terminates nonneg hangul hcs compositions hG
  refine ⟨?_, ?_⟩
  · intro F G hF hG x y z w hxy hyz hxw
    obtain ⟨cs, hcs, rfl, rfl⟩ := hxy.codes
    rw [output_codes (transformed_lt hcs) hyz, output_codes (fun c hc => (hcs c hc).2.lt) hxw,
      transformed_congr hF (habsorb (fun c hc => (hcs c hc).2) hG)]
  · intro x x' c c' d d' hxc hxc' hxd hxd'
    obtain ⟨cs, hcs, rfl, rfl⟩ := hxc.codes
    obtain ⟨cs', hcs', rfl, rfl⟩ := hxc'.codes
    have hs : ∀ c ∈ cs, IsScalar c := fun c hc => (hcs c hc).2
    have hs' : ∀ c ∈ cs', IsScalar c := fun c hc => (hcs' c hc).2
    rw [output_codes (fun c hc => (hs c hc).lt) hxd, output_codes (fun c hc => (hs' c hc).lt) hxd']
    -- equal code points of one form have equal ordered decompositions
    have hsame {G : Transform} (hG : G.canonical = true)
        (h : transformed t G cs = transformed t G cs') :
        orderedDecomposition t cs = orderedDecomposition t cs' := by
      rw [← habsorb hs hG, h, habsorb hs' hG]
    have hnfd : ∀ c ∈ cs, Expandable t .nfd c ∧ IsScalar c :=
      fun c hc => ⟨expandable_of_terminates terminates (hs c hc).lt, hs c hc⟩
    have hnfd' : ∀ c ∈ cs', Expandable t .nfd c ∧ IsScalar c :=
      fun c hc => ⟨expandable_of_terminates terminates (hs' c hc).lt, hs' c hc⟩
    constructor
    · intro h
      have hcodes := encodeAll_injective (transformed_lt hcs) (transformed_lt hcs') h
      rw [transformed_congr rfl (hsame rfl hcodes)]
    · intro h
      have hcodes := encodeAll_injective (transformed_lt hnfd) (transformed_lt hnfd') h
      rw [transformed_congr rfl (hsame rfl hcodes)]

theorem normalForms_absorb_acute :
    ∃ z, TransformOutput .leopardPPC acuteData .nfd [0xC3, 0xA9] z ∧ z = [0x65, 0xCC, 0x81] := by
  have halone : TransformOutput .leopardPPC acuteData .nfd [0x65, 0xCC, 0x81]
      [0x65, 0xCC, 0x81] :=
    acute_transformOutput [0x65, 0x301] (by decide +kernel)
  exact ⟨_, acute_decomposed, (normalForms_absorb .leopardPPC acuteData (acute_terminates .nfd)
    acute_nonnegative acute_hangulInert acute_compositionsDecompose).1 .nfd .nfc rfl rfl _ _ _ _
      acute_composed acute_decomposed halone⟩

end LeoUTF8.NormalForms
