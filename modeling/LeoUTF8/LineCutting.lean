import Mathlib.Tactic

set_option autoImplicit false

/-!
# Lines read through a buffer

A text of lines is read in pieces: a piece ends behind the end of a line, or when the
buffer is full. The pieces are the lines, cut after every `n` elements.
-/
namespace LeoUTF8.LineCutting

variable {α : Type}

/-- The parts of `n` elements of a list, and what remains of it. -/
def chunks (n : ℕ) : List α → List (List α)
  | [] => []
  | first :: behind => (first :: behind).take n :: chunks n (behind.drop (n - 1))
termination_by l => l.length
decreasing_by
  rw [List.length_drop, List.length_cons]
  omega

@[simp] theorem chunks_nil (n : ℕ) : chunks n ([] : List α) = [] := by
  rw [chunks]

theorem chunks_of_ne_nil {n : ℕ} {l : List α} (hl : l ≠ []) (hn : n ≠ 0) :
    chunks n l = l.take n :: chunks n (l.drop n) := by
  obtain ⟨m, rfl⟩ := Nat.exists_eq_succ_of_ne_zero hn
  cases l with
  | nil => exact absurd rfl hl
  | cons first behind => rw [chunks, Nat.succ_sub_one, List.drop_succ_cons]

/-- A list that fits is one part, and an empty list is none. -/
theorem chunks_of_fits {n : ℕ} {l : List α} (h : l.length ≤ n) :
    chunks n l = [l].filter (· ≠ []) := by
  by_cases hl : l = []
  · simp [hl]
  · have hpos := List.length_pos_iff.mpr hl
    rw [chunks_of_ne_nil hl (by omega), List.take_of_length_le h, List.drop_of_length_le h]
    simp [hl]

variable [DecidableEq α]

/-- The lines of a text, cut after every `n` elements. -/
def pieces (sep : α) (n : ℕ) (text : List α) : List (List α) :=
  (text.splitOn sep).flatMap (chunks n)

/-- A read of at most `n` elements that stops behind the first `sep`, and what it leaves. -/
def readPiece (sep : α) (n : ℕ) (text : List α) : List α × List α :=
  match (text.take n).idxOf? sep with
  | some k => (text.take (k + 1), text.drop (k + 1))
  | none => (text.take n, text.drop n)

@[simp] theorem pieces_nil (sep : α) (n : ℕ) : pieces sep n [] = [] := by
  simp [pieces]

theorem pieces_line {sep : α} {l : List α} (h : sep ∉ l) (n : ℕ) (rest : List α) :
    pieces sep n (l ++ sep :: rest) = chunks n l ++ pieces sep n rest := by
  rw [pieces, List.splitOn_append_cons_self_of_not_mem h, List.flatMap_cons, pieces]

theorem pieces_last {sep : α} {l : List α} (h : sep ∉ l) (n : ℕ) : pieces sep n l = chunks n l := by
  rw [pieces, List.splitOn_eq_singleton h, List.flatMap_singleton]

theorem idxOf?_line {sep : α} {l : List α} (h : sep ∉ l) (rest : List α) :
    (l ++ sep :: rest).idxOf? sep = some l.length := by
  rw [List.idxOf?_eq_some_iff]
  refine ⟨by simp, by simp, ?_⟩
  intro j hj heq
  rw [List.getElem_append_left hj] at heq
  exact h (heq ▸ List.getElem_mem hj)

theorem takeWhile_line {sep : α} {l : List α} (h : sep ∉ l) (rest : List α) :
    (l ++ sep :: rest).takeWhile (· ≠ sep) = l := by
  have hall : ∀ b ∈ l, decide (b ≠ sep) = true := by
    intro b hb
    rw [decide_eq_true_iff]
    exact ne_of_mem_of_not_mem hb h
  rw [List.takeWhile_append_of_pos hall, List.takeWhile_cons, if_neg (by simp), List.append_nil]

/-- A text without a separator, or its first line and the text behind it. -/
theorem first_line (sep : α) (text : List α) :
    sep ∉ text ∨ ∃ l rest, sep ∉ l ∧ text = l ++ sep :: rest := by
  by_cases h : sep ∈ text
  · obtain ⟨l, rest, heq, hl⟩ := List.eq_append_cons_of_mem h
    exact Or.inr ⟨l, rest, hl, heq⟩
  · exact Or.inl h

theorem pieces_full {sep : α} {n : ℕ} {part : List α} (hpart : sep ∉ part)
    (hlen : part.length = n) (hn : n ≠ 0) (rest : List α) :
    pieces sep n (part ++ rest) = part :: pieces sep n rest := by
  have hne : part ≠ [] := by
    rw [← List.length_pos_iff]
    omega
  have hcut (l : List α) : chunks n (part ++ l) = part :: chunks n l := by
    rw [chunks_of_ne_nil (List.append_ne_nil_of_left_ne_nil hne l) hn, List.take_left' hlen,
      List.drop_left' hlen]
  rcases first_line sep rest with hrest | ⟨l, behind, hl, rfl⟩
  · rw [pieces_last (by simp [hpart, hrest]), hcut, pieces_last hrest]
  · rw [← List.append_assoc, pieces_line (by simp [hpart, hl]), hcut, pieces_line hl,
      List.cons_append]

/-- A read takes one piece off the text, and the separator behind it with it. -/
theorem readPiece_cases (sep : α) {n : ℕ} (hn : n ≠ 0) {text : List α} (htext : text ≠ []) :
    (∃ l rest, sep ∉ l ∧ l.length < n ∧ text = l ++ sep :: rest ∧
      readPiece sep n text = (l ++ [sep], rest) ∧
      pieces sep n text = [l].filter (· ≠ []) ++ pieces sep n rest) ∨
    ∃ l rest, sep ∉ l ∧ l ≠ [] ∧ l.length ≤ n ∧ text = l ++ rest ∧
      readPiece sep n text = (l, rest) ∧ pieces sep n text = l :: pieces sep n rest := by
  by_cases hmem : sep ∈ text.take n
  · obtain ⟨l, behind, htake, hl⟩ := List.eq_append_cons_of_mem hmem
    have hlen := congrArg List.length htake
    rw [List.length_take, List.length_append, List.length_cons] at hlen
    have hsplit : text = l ++ sep :: (behind ++ text.drop n) := by
      rw [← List.cons_append, ← List.append_assoc, ← htake, List.take_append_drop]
    have hread : readPiece sep n text = (l ++ [sep], behind ++ text.drop n) := by
      rw [readPiece, htake, idxOf?_line hl]
      change (text.take (l.length + 1), text.drop (l.length + 1)) = _
      generalize behind ++ text.drop n = rest at hsplit
      rw [hsplit, List.append_cons, List.take_left' (by simp), List.drop_left' (by simp)]
    refine Or.inl ⟨l, behind ++ text.drop n, hl, by omega, hsplit, hread, ?_⟩
    conv_lhs => rw [hsplit]
    rw [pieces_line hl, chunks_of_fits (by omega)]
  · have hread : readPiece sep n text = (text.take n, text.drop n) := by
      rw [readPiece, List.idxOf?_eq_none_iff.mpr hmem]
    refine Or.inr ⟨text.take n, text.drop n, hmem, by simp [htext, hn], by simp,
      (List.take_append_drop n text).symm, hread, ?_⟩
    by_cases hlong : n ≤ text.length
    · conv_lhs => rw [← List.take_append_drop n text]
      exact pieces_full hmem (List.length_take_of_le hlong) hn _
    · have htake : text.take n = text := List.take_of_length_le (by omega)
      rw [htake] at hmem ⊢
      rw [List.drop_of_length_le (by omega), pieces_last hmem, chunks_of_fits (by omega)]
      simp [htext]

theorem readPiece_nil (sep : α) (n : ℕ) : readPiece sep n [] = ([], []) := by
  simp [readPiece]

/-- Nothing is cut when every line fits. -/
theorem pieces_of_fits {sep : α} {n : ℕ} {text : List α}
    (h : ∀ l ∈ text.splitOn sep, l.length ≤ n) :
    pieces sep n text = (text.splitOn sep).filter (· ≠ []) := by
  rw [pieces]
  generalize text.splitOn sep = lines at h
  induction lines with
  | nil => rfl
  | cons l lines ih =>
    rw [List.forall_mem_cons] at h
    rw [List.flatMap_cons, ih h.2, chunks_of_fits h.1, ← List.filter_append, List.singleton_append]

end LeoUTF8.LineCutting
