import LeoUTF8.MapCorrectness

set_option autoImplicit false

/-! # LeoUTF8NormalizeNFDBytes computes NFD -/
namespace LeoUTF8.NFDReference
open BoundedLoop ScalarEncoding RunSorting RecursiveExpansion EngineTables EngineDecompose
open CodePointMapping DecompositionCorrectness DecompositionPass EncodingCorrectness
open TableAssumptions MapCorrectness

/-- Every maximal run of code points with a class other than zero, sorted stably by class. -/
def canonicalOrder (t : Utf8procData) (l : List ℕ) : List ℕ :=
  orderRuns (combiningClass t) (fun c => combiningClass t c ≠ 0) l

/-- The runs that the engine sorts. A class below zero, which Unicode does not have, ends one. -/
def positiveOrder (t : Utf8procData) (l : List ℕ) : List ℕ :=
  orderRuns (combiningClass t) (fun c => 0 < combiningClass t c) l

theorem positiveOrder_eq (t : Utf8procData) (l : List ℕ) :
    positiveOrder t l = sortRuns (combiningClass t) l := by
  unfold positiveOrder
  apply orderRuns_eq_sortRuns
  intro c _
  rw [decide_eq_true_iff]

theorem canonicalOrder_eq {t : Utf8procData} (nonneg : NonnegativeClasses t) {l : List ℕ}
    (hl : ∀ c ∈ l, c < 0x110000) : canonicalOrder t l = sortRuns (combiningClass t) l := by
  unfold canonicalOrder
  apply orderRuns_eq_sortRuns
  intro c hc
  have h := nonneg c (hl c hc)
  rw [decide_eq_true_iff]
  omega

/-- The reordering loop ends; no code point crosses one of class zero, and those of one class
keep their order. -/
def ReorderingStable (t : Utf8procData) (l : List ℕ) : Prop :=
  ∃ m, (∀ tail, run (reorderBody t l.length) (reorderBound l.length)
      { pos := 0, buffer := int32s l ++ tail } = .ok (int32s m ++ tail)) ∧
    (∀ a c b, l = a ++ c :: b → combiningClass t c = 0 →
      ∃ a' b', m = a' ++ c :: b' ∧ a'.Perm a ∧ b'.Perm b) ∧
    ∀ k, m.filter (fun c => combiningClass t c = k) = l.filter (fun c => combiningClass t c = k)

theorem reorderingStable (t : Utf8procData) {l : List ℕ} (hl : ∀ c ∈ l, c < 0x110000) :
    ReorderingStable t l := by
  refine ⟨sortRuns (combiningClass t) l, fun tail => reorder_sorts t tail hl, ?_,
    fun k => filter_sortRuns _ k l⟩
  rintro a c b rfl hc
  exact ⟨_, _, sortRuns_append_barrier _ hc.le a b, sortRuns_perm _ a, sortRuns_perm _ b⟩

end LeoUTF8.NFDReference
