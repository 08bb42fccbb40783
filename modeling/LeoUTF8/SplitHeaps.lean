import Mathlib.Logic.Function.Basic

set_option autoImplicit false

/-!
# Split heaps

A heap is a partial map from addresses to blocks. It is split into the blocks that one party
holds and the rest; an address is in at most one of the parts.
-/
namespace LeoUTF8.SplitHeaps

structure Split (A B : Type*) where
  held : A → Option B
  rest : A → Option B
  disjoint : ∀ a, held a = none ∨ rest a = none

namespace Split

variable {A B : Type*}

def whole (s : Split A B) (a : A) : Option B := (s.held a).or (s.rest a)

/-- Nothing is held. -/
def bare (rest : A → Option B) : Split A B where
  held := fun _ => none
  rest := rest
  disjoint := fun _ => Or.inl rfl

theorem whole_bare (rest : A → Option B) : (bare rest).whole = rest := rfl

theorem whole_of_held {s : Split A B} {a : A} {b : B} (h : s.held a = some b) :
    s.whole a = some b := by
  rw [whole, h, Option.some_or]

theorem rest_of_held {s : Split A B} {a : A} (h : s.held a ≠ none) : s.rest a = none :=
  (s.disjoint a).resolve_left h

/-- An address that is not in use is in neither part. -/
theorem fresh {s : Split A B} {a : A} (h : s.whole a = none) :
    s.held a = none ∧ s.rest a = none := Option.or_eq_none_iff.mp h

/-- A party that holds nothing leaves the heap to the rest. -/
theorem whole_of_nothing {s : Split A B} (h : ∀ a, s.held a = none) : s.whole = s.rest := by
  funext a
  rw [whole, h a, Option.none_or]

variable [DecidableEq A]

/-- The party changes what it holds at an address that the rest does not use. -/
def update (s : Split A B) (a : A) (b : Option B) (h : s.rest a = none) : Split A B where
  held := Function.update s.held a b
  rest := s.rest
  disjoint := by
    intro a'
    by_cases ha : a' = a
    · rw [ha]
      exact Or.inr h
    · rw [Function.update_of_ne ha]
      exact s.disjoint a'

theorem whole_update (s : Split A B) {a : A} (b : Option B) (h : s.rest a = none) :
    (s.update a b h).whole = Function.update s.whole a b := by
  funext a'
  by_cases ha : a' = a
  · subst ha
    simp only [whole, update, Function.update_self, h, Option.or_none]
  · simp only [whole, update, Function.update_of_ne ha]

end Split

end LeoUTF8.SplitHeaps
