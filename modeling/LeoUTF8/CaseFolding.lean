import LeoUTF8.MapCorrectness

set_option autoImplicit false

/-! # Case folding is a map on code points and a projection -/
namespace LeoUTF8.CaseFolding
open ScalarEncoding RecursiveExpansion EngineTables CodePointMapping EncodingCorrectness
open TableAssumptions MapCorrectness

/-- Every code point with a fold entry replaced by that entry, recursively; the others stay. -/
abbrev FullFold (t : Utf8procData) : List ℕ → List ℕ → Prop :=
  Expands (foldEntry t) fun c => [c]

theorem entry_caseFold (t : Utf8procData) : entry t .caseFold = foldEntry t := by
  funext c
  rfl

theorem terminal_caseFold : terminal .caseFold = fun c => [c] := by
  funext c
  exact if_neg (fun h => Bool.noConfusion h.1)

theorem expansions_fullFold {t : Utf8procData} {cs : List ℕ}
    (hcs : ∀ c ∈ cs, Expandable t .caseFold c) : FullFold t cs (expansions t .caseFold cs) := by
  have h := expands_expansions hcs
  rwa [entry_caseFold, terminal_caseFold] at h

theorem unmapped_caseFold_iff {t : Utf8procData} {c : ℕ} :
    Unmapped t .caseFold c ↔ foldEntry t c = none := by
  rw [Unmapped, entry_caseFold, terminal_caseFold]
  exact and_iff_left rfl

/-- What folding returns has no fold entries. -/
theorem expansions_unmapped {t : Utf8procData} {cs : List ℕ}
    (hcs : ∀ c ∈ cs, Expandable t .caseFold c) :
    ∀ x ∈ expansions t .caseFold cs, Unmapped t .caseFold x := by
  intro x hx
  obtain ⟨c, hc, hx⟩ := List.mem_flatMap.mp hx
  refine expansion_unmapped ?_ (hcs c hc) x hx
  intro d hd y hy
  rw [terminal_caseFold] at hy
  rw [List.mem_singleton.mp hy, unmapped_caseFold_iff, ← entry_caseFold]
  exact hd

theorem expansions_eq_self_iff {t : Utf8procData} {cs : List ℕ}
    (hcs : ∀ c ∈ cs, Expandable t .caseFold c) :
    expansions t .caseFold cs = cs ↔ ∀ c ∈ cs, foldEntry t c = none := by
  constructor
  · intro h c hc
    rw [← h] at hc
    exact unmapped_caseFold_iff.mp (expansions_unmapped hcs c hc)
  · intro h
    exact expansions_of_unmapped fun c hc => unmapped_caseFold_iff.mpr (h c hc)

section Calls

variable {pf : Platform} {t : Utf8procData} {a b y z w : List UInt8}

theorem caseFold_codes (ha : TransformOutput pf t .caseFold a y) :
    ∃ cs, (∀ c ∈ cs, Expandable t .caseFold c ∧ IsScalar c) ∧ a = encodeAll cs ∧
      y = encodeAll (expansions t .caseFold cs) := by
  obtain ⟨cs, hcs, hx, hy⟩ := ha.codes
  rw [transformed_caseFold] at hy
  exact ⟨cs, hcs, hx, hy⟩

theorem caseFold_append (ha : TransformOutput pf t .caseFold a y)
    (hb : TransformOutput pf t .caseFold b z) (hab : TransformOutput pf t .caseFold (a ++ b) w) :
    w = y ++ z := by
  obtain ⟨cs, hcs, rfl, rfl⟩ := caseFold_codes ha
  obtain ⟨ds, hds, rfl, rfl⟩ := caseFold_codes hb
  obtain ⟨es, hes, hsum, rfl⟩ := caseFold_codes hab
  have hsplit : cs ++ ds = es := by
    apply encodeAll_injective
    · intro c hc
      rcases List.mem_append.mp hc with hc | hc
      · exact (hcs c hc).2.lt
      · exact (hds c hc).2.lt
    · exact fun c hc => (hes c hc).2.lt
    · rw [encodeAll_append, hsum]
  rw [← hsplit, expansions_append, encodeAll_append]

theorem caseFold_idem (ha : TransformOutput pf t .caseFold a y)
    (hy : TransformOutput pf t .caseFold y z) : z = y := by
  obtain ⟨cs, hcs, rfl, rfl⟩ := caseFold_codes ha
  obtain ⟨ds, hds, hfolded, rfl⟩ := caseFold_codes hy
  have hds' : expansions t .caseFold cs = ds := by
    apply encodeAll_injective
    · exact fun x hx => (expansions_isScalar hcs x hx).lt
    · exact fun d hd => (hds d hd).2.lt
    · exact hfolded
  rw [← hds', expansions_of_unmapped (expansions_unmapped fun c hc => (hcs c hc).1)]

end Calls

end LeoUTF8.CaseFolding
