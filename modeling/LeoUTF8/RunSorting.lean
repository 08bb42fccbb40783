import Mathlib.Tactic
import Mathlib.Data.List.Sort
import Mathlib.Data.List.TakeWhile

set_option autoImplicit false

/-!
# Stable sorting within runs

Every element has an integer class. An element of class at most zero is a barrier;
the elements between two barriers form a run. `sortRuns` sorts each run stably by
class. It is the result of every sequence of exchanges of adjacent inverted
elements that ends without an inverted pair.
-/
namespace LeoUTF8.RunSorting

variable {α β : Type} (cls : α → ℤ)

/-- `b` stands after `a` but belongs before it, in the same run. -/
def Inverted (a b : α) : Prop := 0 < cls b ∧ cls b < cls a

instance (a b : α) : Decidable (Inverted cls a b) := inferInstanceAs (Decidable (_ ∧ _))

def sortRuns (l : List α) : List α := l.insertionSort (fun a b => ¬ Inverted cls a b)

/-- No adjacent pair is inverted. -/
def Settled (l : List α) : Prop := l.IsChain (fun a b => ¬ Inverted cls a b)

abbrev insert (a : α) (l : List α) : List α := l.orderedInsert (fun a b => ¬ Inverted cls a b) a

@[simp] theorem sortRuns_nil : sortRuns cls [] = [] := rfl

@[simp] theorem sortRuns_cons (a : α) (l : List α) :
    sortRuns cls (a :: l) = insert cls a (sortRuns cls l) := rfl

theorem insert_cons_of_inverted {a b : α} (h : Inverted cls a b) (l : List α) :
    insert cls a (b :: l) = b :: insert cls a l := by
  simp [insert, h]

theorem insert_cons_of_not {a b : α} (h : ¬ Inverted cls a b) (l : List α) :
    insert cls a (b :: l) = a :: b :: l := by
  simp [insert, h]

theorem insert_barrier {a : α} (h : cls a ≤ 0) (l : List α) : insert cls a l = a :: l := by
  cases l with
  | nil => rfl
  | cons b l =>
    apply insert_cons_of_not
    unfold Inverted
    omega

theorem sortRuns_perm (l : List α) : (sortRuns cls l).Perm l := List.perm_insertionSort _ l

theorem mem_sortRuns {l : List α} {a : α} : a ∈ sortRuns cls l ↔ a ∈ l :=
  (sortRuns_perm cls l).mem_iff

theorem sortRuns_length (l : List α) : (sortRuns cls l).length = l.length :=
  (sortRuns_perm cls l).length_eq

theorem insert_append_barrier {b : α} (hb : cls b ≤ 0) (a : α) (l m : List α) :
    insert cls a (l ++ b :: m) = insert cls a l ++ b :: m := by
  induction l with
  | nil =>
    apply insert_cons_of_not
    unfold Inverted
    omega
  | cons d l ih =>
    by_cases h : Inverted cls a d
    · rw [List.cons_append, insert_cons_of_inverted cls h, insert_cons_of_inverted cls h, ih,
        List.cons_append]
    · rw [List.cons_append, insert_cons_of_not cls h, insert_cons_of_not cls h]
      rfl

/-- Nothing crosses a barrier. -/
theorem sortRuns_append_barrier {b : α} (hb : cls b ≤ 0) (l m : List α) :
    sortRuns cls (l ++ b :: m) = sortRuns cls l ++ b :: sortRuns cls m := by
  induction l with
  | nil => exact insert_barrier cls hb _
  | cons a l ih =>
    rw [List.cons_append, sortRuns_cons, ih, sortRuns_cons]
    exact insert_append_barrier cls hb a _ _

theorem insert_comm {a b : α} (hb : 0 < cls b) (h : cls b < cls a) (l : List α) :
    insert cls a (insert cls b l) = insert cls b (insert cls a l) := by
  have hab : Inverted cls a b := ⟨hb, h⟩
  have hba : ¬ Inverted cls b a := by
    unfold Inverted
    omega
  induction l with
  | nil =>
    change insert cls a [b] = insert cls b [a]
    rw [insert_cons_of_inverted cls hab, insert_cons_of_not cls hba]
    rfl
  | cons d l ih =>
    by_cases hbd : Inverted cls b d
    · have had : Inverted cls a d := ⟨hbd.1, hbd.2.trans h⟩
      rw [insert_cons_of_inverted cls hbd, insert_cons_of_inverted cls had, ih,
        insert_cons_of_inverted cls had, insert_cons_of_inverted cls hbd]
    · rw [insert_cons_of_not cls hbd, insert_cons_of_inverted cls hab]
      by_cases had : Inverted cls a d
      · rw [insert_cons_of_inverted cls had, insert_cons_of_not cls hbd]
      · rw [insert_cons_of_not cls had, insert_cons_of_not cls hba]

/-- Exchanging an adjacent inverted pair does not change what the list sorts to. -/
theorem sortRuns_exchange {a b : α} (h : Inverted cls a b) (l m : List α) :
    sortRuns cls (l ++ b :: a :: m) = sortRuns cls (l ++ a :: b :: m) := by
  induction l with
  | nil => exact (insert_comm cls h.1 h.2 _).symm
  | cons d l ih => rw [List.cons_append, sortRuns_cons, ih, List.cons_append, sortRuns_cons]

/-- An element moves over smaller elements of its run. -/
theorem sortRuns_move {a : α} {marks : List α} (h : ∀ m ∈ marks, Inverted cls a m)
    (l m : List α) :
    sortRuns cls (l ++ a :: marks ++ m) = sortRuns cls (l ++ marks ++ a :: m) := by
  induction marks generalizing l with
  | nil => simp
  | cons d marks ih =>
    calc
      _ = sortRuns cls (l ++ a :: d :: (marks ++ m)) := by simp
      _ = sortRuns cls (l ++ d :: a :: (marks ++ m)) :=
        (sortRuns_exchange cls (h d List.mem_cons_self) l _).symm
      _ = sortRuns cls ((l ++ [d]) ++ a :: marks ++ m) := by simp
      _ = sortRuns cls ((l ++ [d]) ++ marks ++ a :: m) :=
        ih (fun e he => h e (List.mem_cons_of_mem d he)) (l ++ [d])
      _ = _ := by simp

theorem sortRuns_of_settled {l : List α} (h : Settled cls l) : sortRuns cls l = l := by
  induction l with
  | nil => rfl
  | cons a l ih =>
    rw [sortRuns_cons, ih h.tail]
    cases l with
    | nil => rfl
    | cons b l => exact insert_cons_of_not cls (List.isChain_cons_cons.mp h).1 l

theorem settled_insert (a : α) {l : List α} (h : Settled cls l) : Settled cls (insert cls a l) := by
  induction l with
  | nil => exact List.isChain_singleton a
  | cons b l ih =>
    by_cases hab : Inverted cls a b
    · rw [insert_cons_of_inverted cls hab]
      have hl := ih h.tail
      cases l with
      | nil =>
        refine List.isChain_cons_cons.mpr ⟨?_, List.isChain_singleton a⟩
        unfold Inverted at *
        omega
      | cons d l =>
        by_cases had : Inverted cls a d
        · rw [insert_cons_of_inverted cls had] at hl ⊢
          exact List.isChain_cons_cons.mpr ⟨(List.isChain_cons_cons.mp h).1, hl⟩
        · rw [insert_cons_of_not cls had] at hl ⊢
          refine List.isChain_cons_cons.mpr ⟨?_, hl⟩
          unfold Inverted at *
          omega
    · rw [insert_cons_of_not cls hab]
      exact List.isChain_cons_cons.mpr ⟨hab, h⟩

theorem settled_sortRuns (l : List α) : Settled cls (sortRuns cls l) := by
  induction l with
  | nil => exact List.isChain_nil
  | cons a l ih => exact settled_insert cls a ih

theorem sortRuns_idem (l : List α) : sortRuns cls (sortRuns cls l) = sortRuns cls l :=
  sortRuns_of_settled cls (settled_sortRuns cls l)

theorem sortRuns_append_congr {l m : List α} (h : sortRuns cls l = sortRuns cls m) (k : List α) :
    sortRuns cls (k ++ l) = sortRuns cls (k ++ m) := by
  induction k with
  | nil => exact h
  | cons a k ih => rw [List.cons_append, sortRuns_cons, ih, List.cons_append, sortRuns_cons]

theorem sortRuns_flatMap_insert {E : α → List α} {a : α} (ha : 0 < cls a → E a = [a]) {l : List α}
    (hl : ∀ b ∈ l, 0 < cls b → E b = [b]) (k : List α) :
    sortRuns cls (k ++ (insert cls a l).flatMap E) = sortRuns cls (k ++ (a :: l).flatMap E) := by
  induction l generalizing k with
  | nil => rfl
  | cons b l ih =>
    obtain ⟨hb, hl⟩ := List.forall_mem_cons.mp hl
    by_cases h : Inverted cls a b
    · have hEa := ha (h.1.trans h.2)
      have hEb := hb h.1
      calc
        sortRuns cls (k ++ (insert cls a (b :: l)).flatMap E) =
            sortRuns cls ((k ++ [b]) ++ (insert cls a l).flatMap E) := by
          simp [insert_cons_of_inverted cls h, hEb]
        _ = sortRuns cls ((k ++ [b]) ++ (a :: l).flatMap E) := ih hl _
        _ = sortRuns cls (k ++ b :: a :: l.flatMap E) := by simp [hEa]
        _ = sortRuns cls (k ++ a :: b :: l.flatMap E) := sortRuns_exchange cls h _ _
        _ = sortRuns cls (k ++ (a :: b :: l).flatMap E) := by simp [hEa, hEb]
    · rw [insert_cons_of_not cls h]

/-- Sorting before an expansion that keeps the elements that move does not matter after it. -/
theorem sortRuns_flatMap_sortRuns {E : α → List α} {l : List α}
    (hl : ∀ a ∈ l, 0 < cls a → E a = [a]) :
    sortRuns cls ((sortRuns cls l).flatMap E) = sortRuns cls (l.flatMap E) := by
  induction l with
  | nil => rfl
  | cons a l ih =>
    obtain ⟨ha, hl⟩ := List.forall_mem_cons.mp hl
    have hsorted : ∀ b ∈ sortRuns cls l, 0 < cls b → E b = [b] :=
      fun b hb => hl b ((mem_sortRuns cls).mp hb)
    calc
      sortRuns cls ((sortRuns cls (a :: l)).flatMap E) =
          sortRuns cls ((a :: sortRuns cls l).flatMap E) :=
            sortRuns_flatMap_insert cls ha hsorted []
      _ = sortRuns cls (E a ++ l.flatMap E) := sortRuns_append_congr cls (ih hl) _
      _ = sortRuns cls ((a :: l).flatMap E) := rfl

theorem filter_insert (k : ℤ) (a : α) (l : List α) :
    (insert cls a l).filter (fun x => cls x = k) = (a :: l).filter (fun x => cls x = k) := by
  induction l with
  | nil => rfl
  | cons b l ih =>
    by_cases h : Inverted cls a b
    · rw [insert_cons_of_inverted cls h, List.filter_cons, ih]
      have hne : cls a ≠ cls b := by
        unfold Inverted at h
        omega
      by_cases ha : cls a = k
      · have hb : cls b ≠ k := by omega
        simp [ha, hb]
      · simp [List.filter_cons, ha]
    · rw [insert_cons_of_not cls h]

/-- Elements of one class keep their order. -/
theorem filter_sortRuns (k : ℤ) (l : List α) :
    (sortRuns cls l).filter (fun x => cls x = k) = l.filter (fun x => cls x = k) := by
  induction l with
  | nil => rfl
  | cons a l ih =>
    rw [sortRuns_cons, filter_insert, List.filter_cons, ih, List.filter_cons]

/-- The number of pairs, adjacent or not, whose later element has the smaller positive class. -/
def inversions : List α → ℕ
  | [] => 0
  | a :: l => l.countP (fun b => Inverted cls a b) + inversions l

theorem inversions_exchange {a b : α} (h : Inverted cls a b) (l m : List α) :
    inversions cls (l ++ a :: b :: m) = inversions cls (l ++ b :: a :: m) + 1 := by
  have hba : ¬ Inverted cls b a := by
    unfold Inverted at *
    omega
  induction l with
  | nil =>
    simp only [List.nil_append, inversions, List.countP_cons, h, hba, decide_true, decide_false,
      if_true, Bool.false_eq_true, if_false]
    omega
  | cons d l ih =>
    have hp : (l ++ a :: b :: m).Perm (l ++ b :: a :: m) :=
      List.Perm.append_left l (List.Perm.swap b a m)
    simp only [List.cons_append, inversions, ih, hp.countP_eq]
    omega

theorem inversions_le (l : List α) : 2 * inversions cls l + l.length ≤ l.length * l.length := by
  induction l with
  | nil => simp [inversions]
  | cons a l ih =>
    have h := List.countP_le_length (p := fun b => decide (Inverted cls a b)) (l := l)
    simp only [inversions, List.length_cons]
    nlinarith

/-- Each maximal run of elements satisfying `mark` is sorted stably by class. -/
def orderRuns (mark : α → Bool) : List α → List α
  | [] => []
  | a :: l =>
    if mark a then
      ((a :: l).takeWhile mark).insertionSort (fun x y => cls x ≤ cls y) ++
        orderRuns mark ((a :: l).dropWhile mark)
    else a :: orderRuns mark l
termination_by l => l.length
decreasing_by
  · rename_i h
    have := (List.dropWhile_suffix (l := l) mark).length_le
    simp only [List.dropWhile_cons, h, if_true, List.length_cons]
    omega
  · simp

theorem insert_eq_orderedInsert {a : α} {l : List α} (hl : ∀ b ∈ l, 0 < cls b) :
    insert cls a l = l.orderedInsert (fun x y => cls x ≤ cls y) a := by
  induction l with
  | nil => rfl
  | cons b l ih =>
    have hb := hl b List.mem_cons_self
    by_cases h : Inverted cls a b
    · have hab : ¬ cls a ≤ cls b := by
        unfold Inverted at h
        omega
      rw [insert_cons_of_inverted cls h, ih (fun d hd => hl d (List.mem_cons_of_mem b hd))]
      simp [hab]
    · have hab : cls a ≤ cls b := by
        unfold Inverted at h
        omega
      rw [insert_cons_of_not cls h]
      simp [hab]

theorem sortRuns_eq_insertionSort {l : List α} (hl : ∀ b ∈ l, 0 < cls b) :
    sortRuns cls l = l.insertionSort (fun x y => cls x ≤ cls y) := by
  induction l with
  | nil => rfl
  | cons a l ih =>
    have ht : ∀ b ∈ l, 0 < cls b := fun b hb => hl b (List.mem_cons_of_mem a hb)
    rw [sortRuns_cons, List.insertionSort_cons, ← ih ht]
    exact insert_eq_orderedInsert cls (fun b hb => ht b ((mem_sortRuns cls).mp hb))

theorem sortRuns_append_of_head {l m : List α} (h : ∀ b ∈ m.head?, cls b ≤ 0) :
    sortRuns cls (l ++ m) = sortRuns cls l ++ sortRuns cls m := by
  cases m with
  | nil => simp
  | cons b m =>
    have hb := h b rfl
    rw [sortRuns_append_barrier cls hb, sortRuns_cons, insert_barrier cls hb]

theorem orderRuns_eq_sortRuns {mark : α → Bool} {l : List α}
    (hmark : ∀ a ∈ l, mark a = true ↔ 0 < cls a) : orderRuns cls mark l = sortRuns cls l := by
  induction hn : l.length using Nat.strong_induction_on generalizing l with
  | _ n ih =>
    cases l with
    | nil => rw [orderRuns, sortRuns_nil]
    | cons a l =>
      rw [orderRuns]
      by_cases ha : mark a = true
      · have hdrop : (a :: l).dropWhile mark = l.dropWhile mark := by
          rw [List.dropWhile_cons, if_pos ha]
        have hsuffix := List.dropWhile_suffix (l := l) mark
        have hrun : ∀ b ∈ (a :: l).takeWhile mark, 0 < cls b := fun b hb =>
          (hmark b (List.takeWhile_subset mark hb)).mp (List.mem_takeWhile_imp hb)
        have hhead : ∀ b ∈ (l.dropWhile mark).head?, cls b ≤ 0 := by
          intro b hb
          have hmem : b ∈ a :: l := List.mem_cons_of_mem a (hsuffix.mem (List.mem_of_mem_head? hb))
          have hnot : mark b = false := by
            have h := List.head?_dropWhile_not mark l
            rw [hb] at h
            exact h
          have := hmark b hmem
          simp only [hnot, Bool.false_eq_true, false_iff] at this
          omega
        rw [if_pos ha, hdrop, ih _ (by rw [← hn]; simpa using Nat.lt_succ_of_le hsuffix.length_le)
          (fun b hb => hmark b (List.mem_cons_of_mem a (hsuffix.mem hb))) rfl,
          ← sortRuns_eq_insertionSort cls hrun, ← sortRuns_append_of_head cls hhead, ← hdrop,
          List.takeWhile_append_dropWhile]
      · have hle : cls a ≤ 0 := by
          have := (hmark a List.mem_cons_self).mpr.mt ha
          omega
        rw [if_neg ha, ih l.length (by rw [← hn]; simp)
          (fun b hb => hmark b (List.mem_cons_of_mem a hb)) rfl, sortRuns_cons,
          insert_barrier cls hle]

end LeoUTF8.RunSorting
