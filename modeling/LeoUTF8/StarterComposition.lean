import LeoUTF8.RunSorting

set_option autoImplicit false

/-!
# Composition with the last starter

Elements are read from left to right and each is combined with the last starter, or
kept. `push` decides by the largest class of the marks after the starter;
`referencePush` searches the last element of class zero and decides by the blocking
condition of the Unicode Standard. Classes are integers and pairing is a partial
function.
-/
namespace LeoUTF8.StarterComposition
open RunSorting

variable {α : Type} (cls : α → ℤ) (pair : α → α → Option α)

/-- What has been kept: the elements before the last starter, the starter, the marks after it. -/
structure Kept (α : Type) where
  before : List α
  starter : Option α
  marks : List α

def Kept.empty : Kept α := { before := [], starter := none, marks := [] }

def Kept.codes (z : Kept α) : List α := z.before ++ z.starter.toList ++ z.marks

/-- The largest class among the marks, or `-1`. -/
def markClass (marks : List α) : ℤ := marks.foldl (fun k m => if cls m > k then cls m else k) (-1)

def Kept.combined (z : Kept α) (c : α) : Option α :=
  z.starter.bind fun s => if cls c > markClass cls z.marks then pair s c else none

def Kept.push (z : Kept α) (c : α) : Kept α :=
  match z.combined cls pair c with
  | some p => { z with starter := some p }
  | none =>
    if cls c ≠ 0 then { z with marks := z.marks ++ [c] }
    else { before := z.codes, starter := some c, marks := [] }

def compose (l : List α) : List α := (l.foldl (Kept.push cls pair) Kept.empty).codes

theorem markClass_append (marks : List α) (c : α) :
    markClass cls (marks ++ [c]) =
      if cls c > markClass cls marks then cls c else markClass cls marks := by
  rw [markClass, List.foldl_append]
  rfl

theorem markClass_lt {marks : List α} {k : ℤ} :
    markClass cls marks < k ↔ -1 < k ∧ ∀ m ∈ marks, cls m < k := by
  induction marks using List.reverseRecOn with
  | nil => simp [markClass]
  | append_singleton marks c ih =>
    rw [markClass_append]
    simp only [List.mem_append, List.mem_singleton, or_imp, forall_and, forall_eq]
    split_ifs with h
    · constructor
      · intro hk
        have hm := ih.mp (h.trans hk)
        exact ⟨hm.1, hm.2, hk⟩
      · rintro ⟨_, _, hk⟩
        exact hk
    · rw [ih]
      constructor
      · rintro ⟨hk, hm⟩
        have := ih.mpr ⟨hk, hm⟩
        exact ⟨hk, hm, by omega⟩
      · rintro ⟨hk, hm, _⟩
        exact ⟨hk, hm⟩

theorem combined_of_some {z : Kept α} {s : α} (h : z.starter = some s) (c : α) :
    z.combined cls pair c = if cls c > markClass cls z.marks then pair s c else none := by
  rw [Kept.combined, h, Option.bind_some]

theorem combined_eq_some {z : Kept α} {c p : α} (h : z.combined cls pair c = some p) :
    ∃ s, z.starter = some s ∧ markClass cls z.marks < cls c ∧ pair s c = some p := by
  obtain ⟨s, hs, h⟩ := Option.bind_eq_some_iff.mp h
  split_ifs at h with hk
  exact ⟨s, hs, hk, h⟩

theorem push_combined {z : Kept α} {c p : α} (h : z.combined cls pair c = some p) :
    z.push cls pair c = { z with starter := some p } := by
  rw [Kept.push, h]

theorem push_mark {z : Kept α} {c : α} (h : z.combined cls pair c = none) (hc : cls c ≠ 0) :
    z.push cls pair c = { z with marks := z.marks ++ [c] } := by
  rw [Kept.push, h]
  exact if_pos hc

theorem push_starter {z : Kept α} {c : α} (h : z.combined cls pair c = none) (hc : cls c = 0) :
    z.push cls pair c = { before := z.codes, starter := some c, marks := [] } := by
  rw [Kept.push, h]
  exact if_neg (not_not.mpr hc)

/-- A property of the state with what is still to be read carries over to the end. -/
theorem foldl_push_invariant {P : Kept α → List α → Prop}
    (step : ∀ z c rest, P z (c :: rest) → P (z.push cls pair c) rest) {z : Kept α} {l : List α}
    (h : P z l) : P (l.foldl (Kept.push cls pair) z) [] := by
  induction l generalizing z with
  | nil => exact h
  | cons c l ih => exact ih (step z c l h)

theorem push_codes_forall {p : α → Prop}
    (hpair : ∀ a b c, p a → p b → pair a b = some c → p c) {z : Kept α} {c : α}
    (hz : ∀ x ∈ z.codes, p x) (hc : p c) : ∀ x ∈ (z.push cls pair c).codes, p x := by
  have hadd : ∀ x ∈ z.codes ++ [c], p x := by
    intro x hx
    rcases List.mem_append.mp hx with hx | hx
    · exact hz x hx
    · exact List.mem_singleton.mp hx ▸ hc
  cases h : z.combined cls pair c with
  | some q =>
    obtain ⟨s, hs, _, hq⟩ := combined_eq_some cls pair h
    have hps : p s := hz s (by simp [Kept.codes, hs])
    have hpq := hpair s c q hps hc hq
    rw [push_combined cls pair h]
    intro x hx
    simp only [Kept.codes, hs, Option.toList_some, List.mem_append, List.mem_singleton] at hx hz
    rcases hx with (hx | rfl) | hx
    · exact hz x (Or.inl (Or.inl hx))
    · exact hpq
    · exact hz x (Or.inr hx)
  | none =>
    by_cases h0 : cls c = 0
    · rw [push_starter cls pair h h0]
      simpa [Kept.codes] using hadd
    · rw [push_mark cls pair h h0]
      simpa [Kept.codes] using hadd

theorem compose_forall {p : α → Prop}
    (hpair : ∀ a b c, p a → p b → pair a b = some c → p c) {l : List α} (hl : ∀ x ∈ l, p x) :
    ∀ x ∈ compose cls pair l, p x := by
  have h := foldl_push_invariant cls pair
    (P := fun z rest => (∀ x ∈ z.codes, p x) ∧ ∀ x ∈ rest, p x) (z := Kept.empty) (l := l)
    (fun z c rest h => ⟨push_codes_forall cls pair hpair h.1 (h.2 c List.mem_cons_self),
      fun x hx => h.2 x (List.mem_cons_of_mem c hx)⟩)
    ⟨by simp [Kept.codes, Kept.empty], hl⟩
  exact h.1

theorem push_codes_length_le (z : Kept α) (c : α) :
    (z.push cls pair c).codes.length ≤ z.codes.length + 1 := by
  cases h : z.combined cls pair c with
  | some q =>
    obtain ⟨s, hs, _, _⟩ := combined_eq_some cls pair h
    rw [push_combined cls pair h]
    simp [Kept.codes, hs]
  | none =>
    by_cases h0 : cls c = 0
    · rw [push_starter cls pair h h0]
      simp [Kept.codes, Nat.add_assoc]
    · rw [push_mark cls pair h h0]
      simp [Kept.codes, Nat.add_assoc]

theorem compose_length_le (l : List α) : (compose cls pair l).length ≤ l.length := by
  have h := foldl_push_invariant cls pair
    (P := fun z rest => z.codes.length + rest.length ≤ l.length) (z := Kept.empty) (l := l)
    (fun z c rest h => by
      have hpush := push_codes_length_le cls pair z c
      rw [List.length_cons] at h
      omega)
    (by simp [Kept.codes, Kept.empty])
  exact h

/-- Composition looks at pairs of what it is given and of what it made. -/
theorem compose_congr {pair' : α → α → Option α} {p : α → Prop}
    (hpair : ∀ a b c, p a → p b → pair a b = some c → p c)
    (heq : ∀ a b, p a → p b → pair a b = pair' a b) {l : List α} (hl : ∀ x ∈ l, p x) :
    compose cls pair l = compose cls pair' l := by
  have hfold (z : Kept α) (hz : ∀ x ∈ z.codes, p x) :
      l.foldl (Kept.push cls pair) z = l.foldl (Kept.push cls pair') z := by
    induction l generalizing z with
    | nil => rfl
    | cons c l ih =>
      have hc := hl c List.mem_cons_self
      have hpush : z.push cls pair c = z.push cls pair' c := by
        have hcombined : z.combined cls pair c = z.combined cls pair' c := by
          cases hs : z.starter with
          | none => simp [Kept.combined, hs]
          | some s => simp [Kept.combined, hs, heq s c (hz s (by simp [Kept.codes, hs])) hc]
        rw [Kept.push, Kept.push, hcombined]
      have hnext := push_codes_forall cls pair hpair hz hc
      rw [List.foldl_cons, List.foldl_cons, ← hpush]
      exact ih (fun x hx => hl x (List.mem_cons_of_mem c hx)) _ hnext
  rw [compose, compose, hfold Kept.empty (by simp [Kept.codes, Kept.empty])]

section Absorption

variable {E : α → List α}

/-- What is kept decomposes and sorts, with the rest, to the sorted input. -/
structure Absorbed (valid : α → Prop) (E : α → List α) (l : List α) (z : Kept α)
    (rest : List α) : Prop where
  codes : ∀ x ∈ z.codes, valid x
  marks : ∀ m ∈ z.marks, E m = [m] ∧ 0 < cls m
  unread : ∀ x ∈ rest, valid x ∧ E x = [x] ∧ 0 ≤ cls x
  sorted : sortRuns cls (z.codes.flatMap E ++ rest) = sortRuns cls l

theorem flatMap_singletons {l : List α} (h : ∀ m ∈ l, E m = [m]) : l.flatMap E = l := by
  induction l with
  | nil => rfl
  | cons a l ih =>
    rw [List.flatMap_cons, h a List.mem_cons_self, ih fun m hm => h m (List.mem_cons_of_mem a hm)]
    rfl

theorem absorbed_push {valid : α → Prop}
    (hpair : ∀ a b p, valid a → valid b → pair a b = some p → valid p ∧ E p = E a ++ E b)
    {l : List α} {z : Kept α} {c : α} {rest : List α} (h : Absorbed cls valid E l z (c :: rest)) :
    Absorbed cls valid E l (z.push cls pair c) rest := by
  obtain ⟨hvalid, hE, hnonneg⟩ := h.unread c List.mem_cons_self
  have hrest := fun x hx => h.unread x (List.mem_cons_of_mem c hx)
  have hcodes := push_codes_forall cls pair (fun a b p ha hb hp => (hpair a b p ha hb hp).1)
    h.codes hvalid
  have hsorted := h.sorted
  cases hc : z.combined cls pair c with
  | some p =>
    obtain ⟨s, hs, hlt, hp⟩ := combined_eq_some cls pair hc
    have hvs : valid s := h.codes s (by simp [Kept.codes, hs])
    have hEp := (hpair s c p hvs hvalid hp).2
    have hmarks := flatMap_singletons fun m hm => (h.marks m hm).1
    have hinv : ∀ m ∈ z.marks, Inverted cls c m := fun m hm =>
      ⟨(h.marks m hm).2, ((markClass_lt cls).mp hlt).2 m hm⟩
    rw [push_combined cls pair hc] at hcodes ⊢
    refine ⟨hcodes, h.marks, hrest, ?_⟩
    -- the decomposed second moves over the smaller marks to where it was read
    calc
      sortRuns cls ((z.before ++ [p] ++ z.marks).flatMap E ++ rest) =
          sortRuns cls ((z.before.flatMap E ++ E s) ++ c :: z.marks ++ rest) := by
        simp [hEp, hE, hmarks]
      _ = sortRuns cls ((z.before.flatMap E ++ E s) ++ z.marks ++ c :: rest) :=
        sortRuns_move cls hinv _ _
      _ = sortRuns cls (z.codes.flatMap E ++ c :: rest) := by
        simp [Kept.codes, hs, hmarks]
      _ = sortRuns cls l := hsorted
  | none =>
    have hkeep : sortRuns cls ((z.codes ++ [c]).flatMap E ++ rest) = sortRuns cls l := by
      rw [List.flatMap_append, List.append_assoc, List.flatMap_singleton, hE]
      exact hsorted
    by_cases h0 : cls c = 0
    · rw [push_starter cls pair hc h0] at hcodes ⊢
      refine ⟨hcodes, by simp, hrest, ?_⟩
      simpa [Kept.codes] using hkeep
    · rw [push_mark cls pair hc h0] at hcodes ⊢
      refine ⟨hcodes, ?_, hrest, ?_⟩
      · intro m hm
        rcases List.mem_append.mp hm with hm | hm
        · exact h.marks m hm
        · obtain rfl := List.mem_singleton.mp hm
          exact ⟨hE, by omega⟩
      · simpa [Kept.codes] using hkeep

/-- Decomposing and sorting undoes composition. -/
theorem sortRuns_flatMap_compose {valid : α → Prop}
    (hpair : ∀ a b p, valid a → valid b → pair a b = some p → valid p ∧ E p = E a ++ E b)
    {l : List α} (hl : ∀ x ∈ l, valid x ∧ E x = [x] ∧ 0 ≤ cls x) :
    sortRuns cls ((compose cls pair l).flatMap E) = sortRuns cls l := by
  have h := foldl_push_invariant cls pair (P := Absorbed cls valid E l) (z := Kept.empty) (l := l)
    (fun _ _ _ h => absorbed_push cls pair hpair h)
    ⟨by simp [Kept.codes, Kept.empty], by simp [Kept.empty], hl, rfl⟩
  simpa [compose] using h.sorted

end Absorption

section Boundary

variable {o : α} {A : List α}

/-- The states after `A` and the boundary `o`, and at the start of the input, run in step. -/
inductive Behind (A : List α) (o : α) : Kept α → Kept α → Prop where
  | leading (marks : List α) :
      Behind A o { before := A, starter := some o, marks := marks }
        { before := [], starter := none, marks := marks }
  | starter (B : List α) (s : α) (marks : List α) :
      Behind A o { before := A ++ o :: B, starter := some s, marks := marks }
        { before := B, starter := some s, marks := marks }

theorem Behind.codes {z w : Kept α} (h : Behind A o z w) : z.codes = A ++ o :: w.codes := by
  cases h <;> simp [Kept.codes]

theorem behind_push (hfirst : ∀ x, pair o x = none) {z w : Kept α} (h : Behind A o z w) (c : α) :
    Behind A o (z.push cls pair c) (w.push cls pair c) := by
  have hcodes := h.codes
  cases h with
  | leading marks =>
    have hz :
        Kept.combined cls pair { before := A, starter := some o, marks := marks } c = none := by
      simp [Kept.combined, hfirst]
    have hw : Kept.combined cls pair { before := [], starter := none, marks := marks } c = none :=
      rfl
    by_cases h0 : cls c = 0
    · rw [push_starter cls pair hz h0, push_starter cls pair hw h0, hcodes]
      exact .starter _ c []
    · rw [push_mark cls pair hz h0, push_mark cls pair hw h0]
      exact .leading _
  | starter B s marks =>
    cases hc : Kept.combined cls pair { before := B, starter := some s, marks := marks } c with
    | some p =>
      rw [push_combined cls pair hc, push_combined cls pair (z := { before := A ++ o :: B, .. }) hc]
      exact .starter B p marks
    | none =>
      by_cases h0 : cls c = 0
      · rw [push_starter cls pair hc h0,
          push_starter cls pair (z := { before := A ++ o :: B, .. }) hc h0, hcodes]
        exact .starter _ c []
      · rw [push_mark cls pair hc h0, push_mark cls pair (z := { before := A ++ o :: B, .. }) hc h0]
        exact .starter B s _

/-- An element of class zero that is in no pair separates what stands on its sides. -/
theorem compose_boundary (hcls : cls o = 0) (hfirst : ∀ x, pair o x = none)
    (hsecond : ∀ x, pair x o = none) (l m : List α) :
    compose cls pair (l ++ o :: m) = compose cls pair l ++ o :: compose cls pair m := by
  have hnone (z : Kept α) : z.combined cls pair o = none := by
    cases hs : z.starter <;> simp [Kept.combined, hs, hsecond]
  have hfold (z w : Kept α) (h : Behind (compose cls pair l) o z w) :
      Behind (compose cls pair l) o (m.foldl (Kept.push cls pair) z)
        (m.foldl (Kept.push cls pair) w) := by
    induction m generalizing z w with
    | nil => exact h
    | cons c m ih => exact ih _ _ (behind_push cls pair hfirst h c)
  rw [compose, List.foldl_append, List.foldl_cons, push_starter cls pair (hnone _) hcls]
  exact (hfold _ _ (.leading [])).codes

end Boundary

section Reference

/-- `c` is combined with the last element `L` of class zero, unless an element between them
has class zero or at least the class of `c`. -/
def referencePush (out : List α) (c : α) : List α :=
  match out.reverse.dropWhile (fun b => cls b ≠ 0) with
  | [] => out ++ [c]
  | L :: earlier =>
    let between := (out.reverse.takeWhile (fun b => cls b ≠ 0)).reverse
    if ∃ b ∈ between, cls b = 0 ∨ cls c ≤ cls b then out ++ [c]
    else
      match pair L c with
      | some p => earlier.reverse ++ p :: between
      | none => out ++ [c]

def referenceCompose (l : List α) : List α := l.foldl (referencePush cls pair) []

/-- The starter has class zero and the marks have positive classes. -/
structure Classed (z : Kept α) : Prop where
  before : z.starter = none → z.before = []
  starter : ∀ s ∈ z.starter, cls s = 0
  marks : ∀ m ∈ z.marks, 0 < cls m

theorem classed_push (hpair : ∀ a b p, pair a b = some p → cls p = 0) {z : Kept α} {c : α}
    (hz : Classed cls z) (hc : 0 ≤ cls c) : Classed cls (z.push cls pair c) := by
  cases h : z.combined cls pair c with
  | some p =>
    obtain ⟨s, _, _, hp⟩ := combined_eq_some cls pair h
    rw [push_combined cls pair h]
    refine ⟨by simp, ?_, hz.marks⟩
    intro x hx
    obtain rfl : p = x := by simpa using hx
    exact hpair s c p hp
  | none =>
    by_cases h0 : cls c = 0
    · rw [push_starter cls pair h h0]
      exact ⟨by simp, by simpa using h0, by simp⟩
    · rw [push_mark cls pair h h0]
      refine ⟨hz.before, hz.starter, ?_⟩
      intro m hm
      rcases List.mem_append.mp hm with hm | hm
      · exact hz.marks m hm
      · obtain rfl := List.mem_singleton.mp hm
        omega

theorem push_codes_of_none {z : Kept α} {c : α} (h : z.combined cls pair c = none) :
    (z.push cls pair c).codes = z.codes ++ [c] := by
  by_cases h0 : cls c = 0
  · rw [push_starter cls pair h h0]
    simp [Kept.codes]
  · rw [push_mark cls pair h h0]
    simp [Kept.codes]

/-- The running maximum is the blocking condition. -/
theorem blocked_iff {z : Kept α} (hz : Classed cls z) {c : α} (hc : 0 ≤ cls c) :
    (∃ b ∈ z.marks, cls b = 0 ∨ cls c ≤ cls b) ↔ ¬ cls c > markClass cls z.marks := by
  rw [gt_iff_lt, markClass_lt]
  constructor
  · rintro ⟨b, hb, h⟩ ⟨_, hm⟩
    have := hm b hb
    have := hz.marks b hb
    omega
  · intro h
    by_contra hno
    refine h ⟨by omega, fun m hm => ?_⟩
    by_contra hle
    exact hno ⟨m, hm, Or.inr (by omega)⟩

theorem push_eq_referencePush {z : Kept α} (hz : Classed cls z) {c : α} (hc : 0 ≤ cls c) :
    (z.push cls pair c).codes = referencePush cls pair z.codes c := by
  obtain ⟨before, starter, marks⟩ := z
  have hmarks : ∀ b ∈ marks.reverse, decide (cls b ≠ 0) = true := by
    intro b hb
    have := hz.marks b (List.mem_reverse.mp hb)
    simp only [ne_eq, decide_eq_true_eq]
    omega
  cases starter with
  | none =>
    obtain rfl : before = [] := hz.before rfl
    have hcodes : (Kept.codes { before := [], starter := none, marks := marks }).reverse =
        marks.reverse := by simp [Kept.codes]
    rw [push_codes_of_none cls pair rfl, referencePush, hcodes,
      List.dropWhile_eq_nil_iff.mpr hmarks]
  | some s =>
    have hs : ¬ (fun b => decide (cls b ≠ 0)) s = true := by simpa using hz.starter s rfl
    have hcodes : (Kept.codes { before := before, starter := some s, marks := marks }).reverse =
        marks.reverse ++ s :: before.reverse := by simp [Kept.codes]
    have hdrop : (marks.reverse ++ s :: before.reverse).dropWhile (fun b => cls b ≠ 0) =
        s :: before.reverse := by
      rw [List.dropWhile_append_of_pos hmarks, List.dropWhile_cons, if_neg hs]
    have htake : (marks.reverse ++ s :: before.reverse).takeWhile (fun b => cls b ≠ 0) =
        marks.reverse := by
      rw [List.takeWhile_append_of_pos hmarks, List.takeWhile_cons, if_neg hs, List.append_nil]
    have hblocked := blocked_iff cls hz hc
    rw [referencePush, hcodes, hdrop, htake]
    simp only [List.reverse_reverse]
    have hcombined : Kept.combined cls pair ⟨before, some s, marks⟩ c =
        if cls c > markClass cls marks then pair s c else none :=
      combined_of_some cls pair rfl c
    by_cases hk : cls c > markClass cls marks
    · rw [if_pos hk] at hcombined
      rw [if_neg (mt hblocked.mp (not_not.mpr hk))]
      cases hp : pair s c with
      | some p =>
        rw [push_combined cls pair (hcombined.trans hp)]
        simp [Kept.codes]
      | none => rw [push_codes_of_none cls pair (hcombined.trans hp)]
    · rw [if_neg hk] at hcombined
      rw [if_pos (hblocked.mpr hk), push_codes_of_none cls pair hcombined]

/-- The running maximum and the starter pointer compute the reference composition. -/
theorem compose_eq_referenceCompose (hpair : ∀ a b p, pair a b = some p → cls p = 0) {l : List α}
    (hl : ∀ x ∈ l, 0 ≤ cls x) : compose cls pair l = referenceCompose cls pair l := by
  have hfold (z : Kept α) (hz : Classed cls z) :
      (l.foldl (Kept.push cls pair) z).codes = l.foldl (referencePush cls pair) z.codes := by
    induction l generalizing z with
    | nil => rfl
    | cons c l ih =>
      have hc := hl c List.mem_cons_self
      rw [List.foldl_cons, List.foldl_cons, ← push_eq_referencePush cls pair hz hc]
      exact ih (fun x hx => hl x (List.mem_cons_of_mem c hx)) _ (classed_push cls pair hpair hz hc)
  exact hfold Kept.empty ⟨fun _ => rfl, by simp [Kept.empty], by simp [Kept.empty]⟩

end Reference

end LeoUTF8.StarterComposition
