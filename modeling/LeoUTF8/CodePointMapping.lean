import LeoUTF8.EngineDecompose
import LeoUTF8.RecursiveExpansion
import LeoUTF8.RunSorting

set_option autoImplicit false

/-!
# The mapping of one code point

What the option sets of the three transforms make of a code point: its canonical
decomposition or its case folding, expanded recursively. Nothing here writes to a
buffer.
-/
namespace LeoUTF8.CodePointMapping
open ScalarEncoding EngineTables EngineDecompose RecursiveExpansion

inductive Transform where
  | nfc
  | nfd
  | caseFold
  deriving DecidableEq, Repr

/-- The options that LeoUTF8Core passes to the engine. -/
def Transform.options : Transform → Utf8procOption
  | .nfc => utf8procStable ||| utf8procCompose
  | .nfd => utf8procStable ||| utf8procDecompose
  | .caseFold => utf8procStable ||| utf8procCasefold

/-- Whether the transform decomposes and reorders. -/
def Transform.canonical : Transform → Bool
  | .nfc => true
  | .nfd => true
  | .caseFold => false

theorem Transform.hasOption_inactive (T : Transform) :
    ∀ flag ∈ [utf8procNullterm, utf8procCompat, utf8procIgnore, utf8procRejectna,
      utf8procCharbound, utf8procLump, utf8procStripmark, utf8procStripna,
      utf8procNlf2ls ||| utf8procNlf2ps ||| utf8procStripcc],
      hasOption T.options flag = false := by
  simp only [List.forall_mem_cons, List.not_mem_nil, false_implies, implies_true, and_true]
  cases T <;> decide

@[simp] theorem Transform.hasOption_casefold (T : Transform) :
    hasOption T.options utf8procCasefold = !T.canonical := by
  cases T <;> decide

@[simp] theorem Transform.hasOption_canonical (T : Transform) :
    hasOption T.options (utf8procCompose ||| utf8procDecompose) = T.canonical := by
  cases T <;> decide

@[simp] theorem Transform.hasOption_compose (T : Transform) :
    hasOption T.options utf8procCompose = (T == .nfc) := by
  cases T <;> decide

@[simp] theorem Transform.hasOption_decompose (T : Transform) :
    hasOption T.options utf8procDecompose = (T == .nfd) := by
  cases T <;> decide

def IsHangulSyllable (c : ℕ) : Prop := 0xAC00 ≤ c ∧ c < 0xAC00 + 11172

instance (c : ℕ) : Decidable (IsHangulSyllable c) := inferInstanceAs (Decidable (_ ∧ _))

def hangulJamo (c : ℕ) : List ℕ :=
  let s := c - 0xAC00
  [0x1100 + s / 588, 0x1161 + s % 588 / 28] ++ if s % 28 = 0 then [] else [0x11A7 + s % 28]

/-- A canonical decomposition; entries with a compatibility tag do not count. -/
def decompositionEntry (t : Utf8procData) (c : ℕ) : Option (List ℕ) :=
  if (t.property c).decompSeqindex ≠ uint16Max ∧ (t.property c).decompType = 0 then
    some (sequenceOf t (t.property c).decompSeqindex)
  else none

def foldEntry (t : Utf8procData) (c : ℕ) : Option (List ℕ) :=
  if (t.property c).casefoldSeqindex ≠ uint16Max then
    some (sequenceOf t (t.property c).casefoldSeqindex)
  else none

/-- The table entry that a transform replaces a code point by. -/
def entry (t : Utf8procData) (T : Transform) (c : ℕ) : Option (List ℕ) :=
  if T.canonical then
    if IsHangulSyllable c then none else decompositionEntry t c
  else foldEntry t c

/-- What a code point without an entry becomes. -/
def terminal (T : Transform) (c : ℕ) : List ℕ :=
  if T.canonical ∧ IsHangulSyllable c then hangulJamo c else [c]

def expansion (t : Utf8procData) (T : Transform) (c : ℕ) : List ℕ :=
  expand (entry t T) (terminal T) 0x110000 c

def expansions (t : Utf8procData) (T : Transform) (cs : List ℕ) : List ℕ :=
  cs.flatMap (expansion t T)

def combiningClass (t : Utf8procData) (c : ℕ) : ℤ := (t.property c).combiningClass

@[simp] theorem expansions_nil (t : Utf8procData) (T : Transform) : expansions t T [] = [] := rfl

@[simp] theorem expansions_cons (t : Utf8procData) (T : Transform) (c : ℕ) (cs : List ℕ) :
    expansions t T (c :: cs) = expansion t T c ++ expansions t T cs := List.flatMap_cons

@[simp] theorem expansions_append (t : Utf8procData) (T : Transform) (cs ds : List ℕ) :
    expansions t T (cs ++ ds) = expansions t T cs ++ expansions t T ds := List.flatMap_append

theorem hangulJamo_scalar {c : ℕ} (hc : IsHangulSyllable c) :
    ∀ x ∈ hangulJamo c, 0x1100 ≤ x ∧ x < 0x1200 := by
  unfold IsHangulSyllable at hc
  intro x hx
  have hcases : x = 0x1100 + (c - 0xAC00) / 588 ∨ x = 0x1161 + (c - 0xAC00) % 588 / 28 ∨
      x = 0x11A7 + (c - 0xAC00) % 28 := by
    simp only [hangulJamo, List.cons_append, List.nil_append, List.mem_cons] at hx
    rcases hx with rfl | rfl | hx
    · exact Or.inl rfl
    · exact Or.inr (Or.inl rfl)
    · split_ifs at hx
      · simp at hx
      · exact Or.inr (Or.inr (List.mem_singleton.mp hx))
  omega

theorem entry_isScalar (t : Utf8procData) (T : Transform) {c : ℕ} {bs : List ℕ}
    (h : entry t T c = some bs) : ∀ b ∈ bs, IsScalar b := by
  unfold entry decompositionEntry foldEntry at h
  split_ifs at h <;>
  · obtain rfl := Option.some.inj h
    exact sequenceOf_isScalar t _

theorem terminal_isScalar (T : Transform) {c : ℕ} (hc : IsScalar c) :
    ∀ x ∈ terminal T c, IsScalar x := by
  unfold terminal
  split_ifs with h
  · intro x hx
    have hj := hangulJamo_scalar h.2 x hx
    exact Or.inl (by omega)
  · simpa using hc

/-- The recursion ends, that is, no code point stands in its own expansion. -/
def Expandable (t : Utf8procData) (T : Transform) (c : ℕ) : Prop :=
  (expandWithin (entry t T) (terminal T) 0x110000 c).isSome

instance (t : Utf8procData) (T : Transform) (c : ℕ) : Decidable (Expandable t T c) :=
  inferInstanceAs (Decidable (_ = true))

theorem entry_closed (t : Utf8procData) (T : Transform) :
    ∀ a ∈ Finset.range 0x110000, ∀ bs, entry t T a = some bs →
      ∀ b ∈ bs, b ∈ Finset.range 0x110000 := by
  intro a _ bs h b hb
  exact Finset.mem_range.mpr (entry_isScalar t T h b hb).lt

theorem expandable_of_terminates {t : Utf8procData} {T : Transform}
    (terminates : Terminates (entry t T)) {c : ℕ} (hc : c < 0x110000) : Expandable t T c := by
  have h := expandWithin_card_isSome (entry t T) (terminal T) (entry_closed t T) terminates
    (Finset.mem_range.mpr hc)
  rw [Finset.card_range] at h
  exact h

/-- A code point that stands for itself. -/
def Unmapped (t : Utf8procData) (T : Transform) (c : ℕ) : Prop :=
  entry t T c = none ∧ terminal T c = [c]

section Expansion

variable {t : Utf8procData} {T : Transform} {c : ℕ}

theorem expandable_of_none (h : entry t T c = none) : Expandable t T c := by
  rw [Expandable, expandWithin_of_none _ _ h 0x10FFFF]
  rfl

theorem expandWithin_of_expandable (hc : Expandable t T c) :
    expandWithin (entry t T) (terminal T) 0x110000 c = some (expansion t T c) :=
  expandWithin_eq_expand _ _ hc

theorem expansion_of_none (h : entry t T c = none) : expansion t T c = terminal T c :=
  expand_of_none _ _ (expandable_of_none h) h

theorem expansion_of_unmapped (h : Unmapped t T c) : expansion t T c = [c] := by
  rw [expansion_of_none h.1, h.2]

theorem expansions_of_unmapped {cs : List ℕ} (h : ∀ c ∈ cs, Unmapped t T c) :
    expansions t T cs = cs := by
  induction cs with
  | nil => rfl
  | cons c cs ih =>
    rw [expansions_cons, expansion_of_unmapped (h c List.mem_cons_self),
      ih fun d hd => h d (List.mem_cons_of_mem c hd)]
    rfl

theorem expansion_isScalar (hc : Expandable t T c) (hs : IsScalar c) :
    ∀ x ∈ expansion t T c, IsScalar x :=
  expand_forall _ _ (p := IsScalar) (fun _ _ _ h => entry_isScalar t T h)
    (fun _ ha _ => terminal_isScalar T ha) hc hs

theorem expansions_isScalar {cs : List ℕ} (hcs : ∀ c ∈ cs, Expandable t T c ∧ IsScalar c) :
    ∀ x ∈ expansions t T cs, IsScalar x := by
  intro x hx
  obtain ⟨c, hc, hx⟩ := List.mem_flatMap.mp hx
  exact expansion_isScalar (hcs c hc).1 (hcs c hc).2 x hx

/-- An expansion holds only code points that stand for themselves, if terminals do. -/
theorem expansion_unmapped
    (terminals : ∀ c, entry t T c = none → ∀ x ∈ terminal T c, Unmapped t T x)
    (hc : Expandable t T c) : ∀ x ∈ expansion t T c, Unmapped t T x :=
  expand_forall _ _ (p := fun _ => True) (fun _ _ _ _ _ _ => trivial)
    (fun a _ h => terminals a h) hc trivial

theorem expands_expansions {cs : List ℕ} (hcs : ∀ c ∈ cs, Expandable t T c) :
    Expands (entry t T) (terminal T) cs (expansions t T cs) :=
  expands_flatMap _ _ hcs

end Expansion

end LeoUTF8.CodePointMapping
