import LeoUTF8.DecompositionPass

set_option autoImplicit false

/-!
# Reordering with marks of grapheme breaks

The reordering loop skips the marks, which are `-1`. They act as starters.
-/
namespace LeoUTF8.CellReordering
open BoundedLoop CellStorage EngineTables EngineDecompose RunSorting CodePointMapping
open DecompositionPass

/-- The cells of a decomposition: a code point or a mark. -/
def IsCell (v : ℤ) : Prop := -1 ≤ v ∧ v < 0x110000

def cellClass (t : Utf8procData) (v : ℤ) : ℤ := if v < 0 then 0 else combiningClass t v.toNat

theorem cellClass_natCast (t : Utf8procData) (c : ℕ) : cellClass t c = combiningClass t c := by
  rw [cellClass, if_neg (by omega), Int.toNat_natCast]

theorem settled_extend {cls : ℤ → ℤ} {pre post : List ℤ} {a b : ℤ}
    (hpre : Settled cls ((pre ++ a :: b :: post).take (pre.length + 1)))
    (hab : ¬ Inverted cls a b) :
    Settled cls ((pre ++ a :: b :: post).take (pre.length + 1 + 1)) := by
  have h1 : (pre ++ a :: b :: post).take (pre.length + 1) = pre ++ [a] := by
    rw [List.take_length_add_append]
    rfl
  have h2 : (pre ++ a :: b :: post).take (pre.length + 1 + 1) = pre ++ [a] ++ [b] := by
    rw [Nat.add_assoc, List.take_length_add_append, List.append_assoc]
    rfl
  rw [h1] at hpre
  rw [h2]
  apply List.IsChain.append hpre (List.isChain_singleton b)
  intro x hx y hy
  obtain rfl : a = x := by simpa using hx
  obtain rfl : b = y := by simpa using hy
  exact hab

section Reorder

variable (t : Utf8procData) (tail : List ℤ)

theorem reorderBody_cells (pre post : List ℤ) {a b : ℤ} (ha : IsCell a) (hb : IsCell b) :
    reorderBody t ((pre ++ a :: b :: post).length : ℤ)
        { pos := pre.length, buffer := pre ++ a :: b :: post ++ tail } =
      .ok (.next (if a < 0 then
        { pos := pre.length + 1, buffer := pre ++ a :: b :: post ++ tail }
      else if b < 0 then { pos := pre.length + 2, buffer := pre ++ a :: b :: post ++ tail }
      else if Inverted (cellClass t) a b then
        { pos := if pre.length > 0 then pre.length - 1 else pre.length + 1
          buffer := pre ++ b :: a :: post ++ tail }
      else { pos := pre.length + 1, buffer := pre ++ a :: b :: post ++ tail })) := by
  have hsplit (x y : ℤ) : pre ++ x :: y :: post ++ tail = pre ++ x :: y :: (post ++ tail) := by simp
  have hload := load_append_left pre (b :: (post ++ tail)) a
  have hload' : load (pre ++ a :: b :: (post ++ tail)) (pre.length + 1) = .ok b := by
    have h := load_append_left (pre ++ [a]) (post ++ tail) b
    rwa [List.length_append, List.append_assoc] at h
  have hstore := store_append pre (b :: (post ++ tail)) a b
  have hstore' : store (pre ++ b :: b :: (post ++ tail)) (pre.length + 1) a =
      .ok (pre ++ b :: a :: (post ++ tail)) := by
    have h := store_append (pre ++ [b]) (post ++ tail) b a
    rwa [List.length_append, List.append_assoc, List.append_assoc] at h
  have hlt : (pre.length : ℤ) < ((pre ++ a :: b :: post).length : ℤ) - 1 := by
    simp only [List.length_append, List.length_cons]
    push_cast
    omega
  unfold IsCell at ha hb
  rw [reorderBody, hsplit, hsplit]
  simp only
  rw [if_pos hlt, hload, ok_bind]
  by_cases hna : a < 0
  · rw [if_pos hna, if_pos hna]
  rw [if_neg hna, if_neg hna, hload', ok_bind]
  by_cases hnb : b < 0
  · rw [if_pos hnb, if_pos hnb]
  obtain ⟨m, rfl⟩ : ∃ m : ℕ, a = m := ⟨a.toNat, by omega⟩
  obtain ⟨n, rfl⟩ : ∃ n : ℕ, b = n := ⟨b.toNat, by omega⟩
  rw [if_neg hnb, if_neg hnb, unsafeGetProperty_natCast t (by omega), ok_bind,
    unsafeGetProperty_natCast t (by omega), ok_bind]
  have hinverted : Inverted (cellClass t) (m : ℤ) n ↔ 0 < (t.property n).combiningClass ∧
      (t.property n).combiningClass < (t.property m).combiningClass := by
    rw [Inverted, cellClass_natCast, cellClass_natCast]
    rfl
  simp only [hinverted]
  by_cases h : 0 < (t.property n).combiningClass ∧
      (t.property n).combiningClass < (t.property m).combiningClass
  · rw [if_pos ⟨h.2, h.1⟩, if_pos h, hstore, ok_bind, hstore', ok_bind]
  · rw [if_neg fun hc => h ⟨hc.2, hc.1⟩, if_neg h]

/-- The buffer holds a reordering of `l` whose first `pos + 1` cells are in order. -/
structure Reordering (l : List ℤ) (s : ReorderState) (m : List ℤ) : Prop where
  buffer : s.buffer = m ++ tail
  length : m.length = l.length
  cells : ∀ v ∈ m, IsCell v
  sorted : sortRuns (cellClass t) m = sortRuns (cellClass t) l
  settled : Settled (cellClass t) (m.take (s.pos + 1))

theorem reorderBody_end {l m : List ℤ} {s : ReorderState} (hs : Reordering t tail l s m)
    (hend : l.length ≤ s.pos + 1) :
    reorderBody t l.length s = .ok (.done (sortRuns (cellClass t) l ++ tail)) := by
  have hsettled := hs.settled
  rw [List.take_of_length_le (by rw [hs.length]; exact hend)] at hsettled
  rw [reorderBody, if_neg (by omega), hs.buffer, ← hs.sorted, sortRuns_of_settled _ hsettled]

/-- After an exchange the prefix before the exchanged pair is still in order. -/
theorem settled_exchanged {pre post : List ℤ} {a b : ℤ}
    (hsettled : Settled (cellClass t) ((pre ++ a :: b :: post).take (pre.length + 1)))
    (h : Inverted (cellClass t) a b) :
    Settled (cellClass t) ((pre ++ b :: a :: post).take
      ((if pre.length > 0 then pre.length - 1 else pre.length + 1) + 1)) := by
  by_cases hpos : pre.length > 0
  · have htake : (pre ++ b :: a :: post).take (pre.length - 1 + 1) =
        ((pre ++ a :: b :: post).take (pre.length + 1)).take pre.length := by
      rw [List.take_take, Nat.min_eq_left (by omega), Nat.sub_add_cancel hpos, List.take_left,
        List.take_left]
    rw [if_pos hpos, htake]
    exact hsettled.take _
  · obtain rfl : pre = [] := List.length_eq_zero_iff.mp (by omega)
    refine List.isChain_cons_cons.mpr ⟨?_, List.isChain_singleton a⟩
    unfold Inverted at *
    omega

/-- Neither neighbour of a mark is inverted with it. -/
theorem not_inverted_mark {a b : ℤ} (h : a < 0 ∨ b < 0) : ¬ Inverted (cellClass t) a b := by
  unfold Inverted cellClass
  split_ifs <;> omega

theorem reorderBody_next {l m : List ℤ} {s : ReorderState} (hs : Reordering t tail l s m)
    (hlt : s.pos + 1 < l.length) :
    ∃ u m', reorderBody t l.length s = .ok (.next u) ∧ Reordering t tail l u m' ∧
      2 * inversions (cellClass t) m' + (l.length - u.pos) <
        2 * inversions (cellClass t) m + (l.length - s.pos) := by
  obtain ⟨pos, buffer⟩ := s
  have hlength := hs.length
  have hlt' : pos + 1 < m.length := by
    change pos + 1 < l.length at hlt
    omega
  obtain ⟨pre, a, b, post, rfl, rfl⟩ : ∃ pre a b post, m = pre ++ a :: b :: post ∧
      pos = pre.length := by
    refine ⟨m.take pos, m[pos], m[pos + 1], m.drop (pos + 1 + 1), ?_, ?_⟩
    · rw [List.cons_getElem_drop_succ, List.cons_getElem_drop_succ, List.take_append_drop]
    · rw [List.length_take]
      omega
  have hbody := reorderBody_cells t tail pre post (hs.cells a (by simp)) (hs.cells b (by simp))
  rw [hlength, ← hs.buffer] at hbody
  have hlen : pre.length + 2 + post.length = l.length := by
    rw [← hlength]
    simp only [List.length_append, List.length_cons]
    omega
  have hsettled := hs.settled
  have hstep (hab : ¬ Inverted (cellClass t) a b) :
      Settled (cellClass t) ((pre ++ a :: b :: post).take (pre.length + 1 + 1)) :=
    settled_extend hsettled hab
  by_cases ha : a < 0
  · rw [if_pos ha] at hbody
    refine ⟨_, pre ++ a :: b :: post, hbody,
      ⟨hs.buffer, hlength, hs.cells, hs.sorted, hstep (not_inverted_mark t (Or.inl ha))⟩, ?_⟩
    change 2 * _ + (l.length - (pre.length + 1)) < 2 * _ + (l.length - pre.length)
    omega
  rw [if_neg ha] at hbody
  by_cases hb : b < 0
  · rw [if_pos hb] at hbody
    refine ⟨_, pre ++ a :: b :: post, hbody, ⟨hs.buffer, hlength, hs.cells, hs.sorted, ?_⟩, ?_⟩
    · -- the cell behind a mark is in order too
      have h := hstep (not_inverted_mark t (Or.inr hb))
      cases post with
      | nil =>
        rw [List.take_of_length_le (by simp)] at h ⊢
        exact h
      | cons c post =>
        have htake : Settled (cellClass t)
            ((pre ++ [a] ++ b :: c :: post).take ((pre ++ [a]).length + 1)) := by simpa using h
        simpa using settled_extend htake (not_inverted_mark t (Or.inl hb))
    · change 2 * _ + (l.length - (pre.length + 2)) < 2 * _ + (l.length - pre.length)
      omega
  rw [if_neg hb] at hbody
  by_cases h : Inverted (cellClass t) a b
  · rw [if_pos h] at hbody
    have hinv := inversions_exchange (cellClass t) h pre post
    refine ⟨_, pre ++ b :: a :: post, hbody, ⟨rfl, ?_, ?_, ?_, settled_exchanged t hsettled h⟩, ?_⟩
    · rw [← hlength]
      simp
    · intro v hv
      exact hs.cells v (by
        simp only [List.mem_append, List.mem_cons] at hv ⊢
        tauto)
    · rw [sortRuns_exchange (cellClass t) h, hs.sorted]
    · change 2 * _ + (l.length - if pre.length > 0 then _ else _) < 2 * _ + (l.length - pre.length)
      split_ifs <;> omega
  · rw [if_neg h] at hbody
    refine ⟨_, pre ++ a :: b :: post, hbody,
      ⟨hs.buffer, hlength, hs.cells, hs.sorted, hstep h⟩, ?_⟩
    change 2 * _ + (l.length - (pre.length + 1)) < 2 * _ + (l.length - pre.length)
    omega

theorem reorderBody_progress (l : List ℤ) :
    Progress (reorderBody t l.length) (fun s => ∃ m, Reordering t tail l s m)
      (fun s => 2 * inversions (cellClass t) (s.buffer.take l.length) + (l.length - s.pos))
      (· = sortRuns (cellClass t) l ++ tail) := by
  rintro s ⟨m, hs⟩
  have hcells {u : ReorderState} {m' : List ℤ} (hu : Reordering t tail l u m') :
      u.buffer.take l.length = m' := by
    rw [hu.buffer, ← hu.length, List.take_left]
  by_cases hend : l.length ≤ s.pos + 1
  · exact Or.inr ⟨_, reorderBody_end t tail hs hend, rfl⟩
  · obtain ⟨u, m', hu, hI, hlt⟩ := reorderBody_next t tail hs (by omega)
    refine Or.inl ⟨u, hu, ⟨m', hI⟩, ?_⟩
    simp only [hcells hI, hcells hs]
    exact hlt

/-- The loop ends within its bound, with every run between starters and marks sorted stably. -/
theorem reorder_cells {l : List ℤ} (hl : ∀ v ∈ l, IsCell v) :
    run (reorderBody t l.length) (reorderBound l.length) { pos := 0, buffer := l ++ tail } =
      .ok (sortRuns (cellClass t) l ++ tail) := by
  refine run_eq (reorderBody_progress t tail l) ⟨l, rfl, rfl, hl, rfl, ?_⟩ ?_
  · cases l with
    | nil => exact List.isChain_nil
    | cons a l => exact List.isChain_singleton a
  · have h := inversions_le (cellClass t) l
    simp only [List.take_left, reorderBound]
    omega

end Reorder

end LeoUTF8.CellReordering
