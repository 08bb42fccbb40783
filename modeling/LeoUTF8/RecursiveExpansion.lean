import Mathlib.Tactic
import Mathlib.Data.Finset.Card

set_option autoImplicit false

/-!
# Recursive expansion

An element with an entry is replaced by its entry, recursively; an element without
one ends the recursion with its terminal list. When no chain of entries is infinite
and the elements in question form a finite set, the recursion is never nested more
deeply than that set has elements.
-/
namespace LeoUTF8.RecursiveExpansion

variable {α : Type} (entry : α → Option (List α)) (terminal : α → List α)

def Child (b a : α) : Prop := ∃ bs, entry a = some bs ∧ b ∈ bs

def Terminates : Prop := WellFounded (Child entry)

/-- A rank that falls from every element to its entry is a proof of termination. -/
theorem terminates_of_rank (rank : α → ℕ)
    (h : ∀ a bs, entry a = some bs → ∀ b ∈ bs, rank b < rank a) : Terminates entry :=
  Subrelation.wf (fun ⟨bs, ha, hb⟩ => h _ bs ha _ hb) (InvImage.wf rank Nat.lt_wfRel.wf)

/-- A list and the concatenation of the full expansions of its elements. -/
inductive Expands : List α → List α → Prop where
  | nil : Expands [] []
  | terminal {a : α} {l out : List α} (h : entry a = none) (hl : Expands l out) :
      Expands (a :: l) (terminal a ++ out)
  | entry {a : α} {bs l xs out : List α} (h : entry a = some bs) (hbs : Expands bs xs)
      (hl : Expands l out) : Expands (a :: l) (xs ++ out)

theorem Expands.unique {entry : α → Option (List α)} {terminal : α → List α} {l x y : List α}
    (hx : Expands entry terminal l x) (hy : Expands entry terminal l y) : x = y := by
  induction hx generalizing y with
  | nil =>
    cases hy with
    | nil => rfl
  | terminal h _ ih =>
    cases hy with
    | terminal _ hl => rw [ih hl]
    | entry h' => rw [h] at h'; cases h'
  | entry h _ _ ihbs ih =>
    cases hy with
    | terminal h' => rw [h] at h'; cases h'
    | entry h' hbs hl =>
      rw [h] at h'
      obtain rfl := Option.some.inj h'
      rw [ihbs hbs, ih hl]

theorem Expands.append {entry : α → Option (List α)} {terminal : α → List α} {l m x y : List α}
    (hl : Expands entry terminal l x) (hm : Expands entry terminal m y) :
    Expands entry terminal (l ++ m) (x ++ y) := by
  induction hl with
  | nil => exact hm
  | terminal h _ ih =>
    rw [List.append_assoc]
    exact .terminal h ih
  | entry h hbs _ _ ih =>
    rw [List.append_assoc]
    exact .entry h hbs ih

/-- Expansion commutes with a map of the elements that commutes with entries and terminals. -/
theorem Expands.map {β : Type} {entry : α → Option (List α)} {terminal : α → List α}
    {entry' : β → Option (List β)} {terminal' : β → List β} (f : α → β) {p : α → Prop}
    (hentry : ∀ a, p a → entry' (f a) = (entry a).map (List.map f))
    (hterminal : ∀ a, p a → entry a = none → terminal' (f a) = (terminal a).map f)
    (hclosed : ∀ a bs, p a → entry a = some bs → ∀ b ∈ bs, p b) {l x : List α}
    (h : Expands entry terminal l x) (hl : ∀ a ∈ l, p a) :
    Expands entry' terminal' (l.map f) (x.map f) := by
  induction h with
  | nil => exact .nil
  | @terminal a l out ha _ ih =>
    obtain ⟨hpa, hpl⟩ := List.forall_mem_cons.mp hl
    rw [List.map_cons, List.map_append, ← hterminal a hpa ha]
    exact .terminal (by rw [hentry a hpa, ha]; rfl) (ih hpl)
  | @entry a bs l xs out ha _ _ ihbs ih =>
    obtain ⟨hpa, hpl⟩ := List.forall_mem_cons.mp hl
    rw [List.map_cons, List.map_append]
    exact .entry (by rw [hentry a hpa, ha]; rfl) (ihbs (hclosed a bs hpa ha)) (ih hpl)

/-- What holds of the terminals of the elements that are reached holds of an expansion. -/
theorem Expands.forall {entry : α → Option (List α)} {terminal : α → List α} {p q : α → Prop}
    (hclosed : ∀ a bs, p a → entry a = some bs → ∀ b ∈ bs, p b)
    (hterminal : ∀ a, p a → entry a = none → ∀ x ∈ terminal a, q x) {l x : List α}
    (h : Expands entry terminal l x) (hl : ∀ a ∈ l, p a) : ∀ b ∈ x, q b := by
  induction h with
  | nil => simp
  | @terminal a l out ha _ ih =>
    obtain ⟨hpa, hpl⟩ := List.forall_mem_cons.mp hl
    exact List.forall_mem_append.mpr ⟨hterminal a hpa ha, ih hpl⟩
  | @entry a bs l xs out ha _ _ ihbs ih =>
    obtain ⟨hpa, hpl⟩ := List.forall_mem_cons.mp hl
    exact List.forall_mem_append.mpr ⟨ihbs (hclosed a bs hpa ha), ih hpl⟩

/-- A function of elements that agrees with entries and terminals agrees with expansions. -/
theorem Expands.flatMap_eq {entry : α → Option (List α)} {terminal : α → List α} {p : α → Prop}
    (E : α → List α) (hclosed : ∀ a bs, p a → entry a = some bs → ∀ b ∈ bs, p b)
    (hentry : ∀ a bs, p a → entry a = some bs → E a = bs.flatMap E)
    (hterminal : ∀ a, p a → entry a = none → E a = (terminal a).flatMap E) {l x : List α}
    (h : Expands entry terminal l x) (hl : ∀ a ∈ l, p a) : x.flatMap E = l.flatMap E := by
  induction h with
  | nil => rfl
  | @terminal a l out ha _ ih =>
    obtain ⟨hpa, hpl⟩ := List.forall_mem_cons.mp hl
    rw [List.flatMap_append, List.flatMap_cons, hterminal a hpa ha, ih hpl]
  | @entry a bs l xs out ha _ _ ihbs ih =>
    obtain ⟨hpa, hpl⟩ := List.forall_mem_cons.mp hl
    rw [List.flatMap_append, List.flatMap_cons, hentry a bs hpa ha, ih hpl,
      ihbs (hclosed a bs hpa ha)]

/-- The concatenation of the expansions of a list, when all of them are defined. -/
def collect (f : α → Option (List α)) : List α → Option (List α)
  | [] => some []
  | a :: l => (f a).bind fun out => (collect f l).map (out ++ ·)

/-- `none` when the nesting exceeds the bound. -/
def expandWithin : ℕ → α → Option (List α)
  | 0, _ => none
  | depth + 1, a =>
    match entry a with
    | none => some (terminal a)
    | some bs => collect (expandWithin depth) bs

theorem collect_eq_some {f : α → Option (List α)} {l : List α}
    (h : ∀ a ∈ l, (f a).isSome) : collect f l = some (l.flatMap fun a => (f a).getD []) := by
  induction l with
  | nil => rfl
  | cons a l ih =>
    obtain ⟨out, ho⟩ := Option.isSome_iff_exists.mp (h a List.mem_cons_self)
    rw [collect, ih fun b hb => h b (List.mem_cons_of_mem a hb), ho, List.flatMap_cons, ho]
    rfl

theorem isSome_of_collect {f : α → Option (List α)} {l : List α}
    (h : (collect f l).isSome) : ∀ a ∈ l, (f a).isSome := by
  induction l with
  | nil => simp
  | cons b l ih =>
    cases hb : f b with
    | none => simp [collect, hb] at h
    | some out =>
      intro a ha
      rcases List.mem_cons.mp ha with rfl | ha
      · simp [hb]
      · exact ih (by simpa [collect, hb] using h) a ha

theorem collect_singleton (f : α → Option (List α)) (a : α) : collect f [a] = f a := by
  cases h : f a <;> simp [collect, h]

theorem expandWithin_of_none {a : α} (h : entry a = none) (depth : ℕ) :
    expandWithin entry terminal (depth + 1) a = some (terminal a) := by
  simp [expandWithin, h]

theorem expandWithin_of_some {a : α} {bs : List α} (h : entry a = some bs) (depth : ℕ) :
    expandWithin entry terminal (depth + 1) a =
      collect (expandWithin entry terminal depth) bs := by
  simp [expandWithin, h]

theorem expandWithin_succ {depth : ℕ} {a : α} {out : List α}
    (h : expandWithin entry terminal depth a = some out) :
    expandWithin entry terminal (depth + 1) a = some out := by
  induction depth generalizing a out with
  | zero => simp [expandWithin] at h
  | succ depth ih =>
    cases ha : entry a with
    | none => rwa [expandWithin_of_none entry terminal ha] at h ⊢
    | some bs =>
      rw [expandWithin_of_some entry terminal ha] at h ⊢
      have hs := isSome_of_collect (by rw [h]; rfl)
      have heq : ∀ b ∈ bs, expandWithin entry terminal (depth + 1) b =
          expandWithin entry terminal depth b := by
        intro b hb
        obtain ⟨o, ho⟩ := Option.isSome_iff_exists.mp (hs b hb)
        rw [ho, ih ho]
      rw [collect_eq_some fun b hb => by rw [heq b hb]; exact hs b hb, ← h, collect_eq_some hs]
      congr 1
      exact List.flatMap_congr fun b hb => by rw [heq b hb]

def expand (depth : ℕ) (a : α) : List α := (expandWithin entry terminal depth a).getD []

theorem expandWithin_eq_expand {depth : ℕ} {a : α}
    (h : (expandWithin entry terminal depth a).isSome) :
    expandWithin entry terminal depth a = some (expand entry terminal depth a) := by
  obtain ⟨out, ho⟩ := Option.isSome_iff_exists.mp h
  rw [expand, ho]
  rfl

theorem expand_of_none {depth : ℕ} {a : α} (hs : (expandWithin entry terminal depth a).isSome)
    (h : entry a = none) : expand entry terminal depth a = terminal a := by
  cases depth with
  | zero => simp [expandWithin] at hs
  | succ depth => rw [expand, expandWithin_of_none entry terminal h, Option.getD_some]

theorem expand_induction {P : α → List α → Prop}
    (none : ∀ a, entry a = none → P a (terminal a))
    (some : ∀ a bs depth, entry a = some bs →
      (∀ b ∈ bs, P b (expand entry terminal depth b)) →
      P a (bs.flatMap (expand entry terminal depth)))
    {depth : ℕ} {a : α} (hs : (expandWithin entry terminal depth a).isSome) :
    P a (expand entry terminal depth a) := by
  induction depth generalizing a with
  | zero => simp [expandWithin] at hs
  | succ depth ih =>
    cases h : entry a with
    | none =>
      rw [expand_of_none entry terminal hs h]
      exact none a h
    | some bs =>
      rw [expandWithin_of_some entry terminal h] at hs
      have hbs := isSome_of_collect hs
      rw [expand, expandWithin_of_some entry terminal h, collect_eq_some hbs, Option.getD_some]
      exact some a bs depth h fun b hb => ih (hbs b hb)

/-- What holds of all entries of elements in `p` and of their terminals holds of expansions. -/
theorem expand_forall {p q : α → Prop}
    (hentry : ∀ a bs, p a → entry a = some bs → ∀ b ∈ bs, p b)
    (hterminal : ∀ a, p a → entry a = none → ∀ x ∈ terminal a, q x)
    {depth : ℕ} {a : α} (hs : (expandWithin entry terminal depth a).isSome) (ha : p a) :
    ∀ x ∈ expand entry terminal depth a, q x := by
  refine expand_induction entry terminal (P := fun a out => p a → ∀ x ∈ out, q x) ?_ ?_ hs ha
  · exact fun a h ha => hterminal a ha h
  · intro a bs depth h ih ha x hx
    obtain ⟨b, hb, hx⟩ := List.mem_flatMap.mp hx
    exact ih b hb (hentry a bs ha h b hb) x hx

theorem expands_flatMap {depth : ℕ} {l : List α}
    (hl : ∀ a ∈ l, (expandWithin entry terminal depth a).isSome) :
    Expands entry terminal l (l.flatMap (expand entry terminal depth)) := by
  induction l with
  | nil => exact .nil
  | cons a l ih =>
    have hone : Expands entry terminal [a] (expand entry terminal depth a) := by
      refine expand_induction entry terminal (P := fun a out => Expands entry terminal [a] out)
        ?_ ?_ (hl a List.mem_cons_self)
      · intro a h
        have hsingle : Expands entry terminal [a] (terminal a ++ []) := .terminal h .nil
        rwa [List.append_nil] at hsingle
      · intro a bs depth h ih
        have hbs : Expands entry terminal bs (bs.flatMap (expand entry terminal depth)) := by
          clear h
          induction bs with
          | nil => exact .nil
          | cons b bs ihbs =>
            rw [List.flatMap_cons]
            exact (ih b List.mem_cons_self).append
              (ihbs fun d hd => ih d (List.mem_cons_of_mem b hd))
        have := Expands.entry h hbs .nil
        rwa [List.append_nil] at this
    rw [List.flatMap_cons]
    exact hone.append (ih fun b hb => hl b (List.mem_cons_of_mem a hb))

/-- A rank that falls from every element to its entry bounds the nesting. -/
theorem expandWithin_rank_isSome (rank : α → ℕ) {p : α → Prop}
    (hentry : ∀ a bs, p a → entry a = some bs → ∀ b ∈ bs, p b ∧ rank b < rank a) {depth : ℕ}
    {a : α} (ha : p a) (hdepth : rank a < depth) :
    (expandWithin entry terminal depth a).isSome := by
  induction depth generalizing a with
  | zero => omega
  | succ depth ih =>
    cases h : entry a with
    | none =>
      rw [expandWithin_of_none entry terminal h]
      rfl
    | some bs =>
      rw [expandWithin_of_some entry terminal h, collect_eq_some]
      · rfl
      · intro b hb
        obtain ⟨hpb, hlt⟩ := hentry a bs ha h b hb
        exact ih hpb (by omega)

section Finite

variable {S : Finset α} (closed : ∀ a ∈ S, ∀ bs, entry a = some bs → ∀ b ∈ bs, b ∈ S)
  (terminates : Terminates entry)

include closed terminates

/-- The elements that are done within a bound either are all of `S`, or grow with the bound. -/
theorem done_grows (depth : ℕ) :
    (∀ a ∈ S, (expandWithin entry terminal depth a).isSome) ∨
      depth ≤ (S.filter fun a => (expandWithin entry terminal depth a).isSome).card := by
  classical
  induction depth with
  | zero => exact .inr (Nat.zero_le _)
  | succ depth ih =>
    let T (n : ℕ) := S.filter fun a => (expandWithin entry terminal n a).isSome
    have hmono : T depth ⊆ T (depth + 1) := by
      intro a ha
      obtain ⟨hS, hs⟩ := Finset.mem_filter.mp ha
      obtain ⟨out, ho⟩ := Option.isSome_iff_exists.mp hs
      exact Finset.mem_filter.mpr ⟨hS, by rw [expandWithin_succ entry terminal ho]; rfl⟩
    by_cases hT : T depth = T (depth + 1)
    · left
      -- a stable set of done elements contains every element, by induction on the entries
      have hall : ∀ a, a ∈ S → a ∈ T (depth + 1) := by
        intro a
        induction a using terminates.induction with
        | _ a hchild =>
          intro ha
          refine Finset.mem_filter.mpr ⟨ha, ?_⟩
          cases hentry : entry a with
          | none => rw [expandWithin_of_none entry terminal hentry]; rfl
          | some bs =>
            rw [expandWithin_of_some entry terminal hentry, collect_eq_some]
            · rfl
            · intro b hb
              have hd := hchild b ⟨bs, hentry, hb⟩ (closed a ha bs hentry b hb)
              rw [← hT] at hd
              exact (Finset.mem_filter.mp hd).2
      exact fun a ha => (Finset.mem_filter.mp (hall a ha)).2
    · right
      have hlt := Finset.card_lt_card (hmono.ssubset_of_ne hT)
      rcases ih with hdone | hcard
      · refine absurd ?_ hT
        refine hmono.antisymm fun a ha => ?_
        have hS := (Finset.mem_filter.mp ha).1
        exact Finset.mem_filter.mpr ⟨hS, hdone a hS⟩
      · change depth ≤ (T depth).card at hcard
        change depth + 1 ≤ (T (depth + 1)).card
        omega

/-- Termination bounds the nesting by the number of elements. -/
theorem expandWithin_card_isSome {a : α} (ha : a ∈ S) :
    (expandWithin entry terminal S.card a).isSome := by
  rcases done_grows entry terminal closed terminates S.card with h | h
  · exact h a ha
  · have heq := Finset.eq_of_subset_of_card_le (Finset.filter_subset _ S) h
    rw [← heq] at ha
    exact (Finset.mem_filter.mp ha).2

end Finite

end LeoUTF8.RecursiveExpansion
