import Mathlib.Tactic

set_option autoImplicit false

/-!
# The rules of extended grapheme clusters

Whether there is a boundary between two characters of a text depends on the classes of all
characters before it. These are given nearest first. The rules are numbered as in the
standard: GB3 to GB9b look at the two neighbours, GB9c, GB11, GB12 and GB13 look further back.
-/
namespace LeoUTF8.GraphemeRules

inductive BreakClass where
  | other | cr | lf | control | extend | l | v | t | lv | lvt | regionalIndicator | spacingMark
  | prepend | zwj | extendedPictographic
  deriving DecidableEq, Repr

inductive ConjunctClass where
  | none | linker | consonant | extend
  deriving DecidableEq, Repr

structure Kind where
  bound : BreakClass
  conjunct : ConjunctClass
  deriving DecidableEq, Repr

def IsControl (a : BreakClass) : Prop := a = .cr ∨ a = .lf ∨ a = .control

instance (a : BreakClass) : Decidable (IsControl a) := inferInstanceAs (Decidable (_ ∨ _))

/-- GB6, GB7 and GB8: a Hangul syllable. -/
def Syllable (a b : BreakClass) : Prop :=
  (a = .l ∧ (b = .l ∨ b = .v ∨ b = .lv ∨ b = .lvt)) ∨
    ((a = .lv ∨ a = .v) ∧ (b = .v ∨ b = .t)) ∨ ((a = .lvt ∨ a = .t) ∧ b = .t)

/-- GB9, GB9a and GB9b. -/
def Attached (a b : BreakClass) : Prop :=
  b = .extend ∨ b = .zwj ∨ b = .spacingMark ∨ a = .prepend

/-- GB9c: two consonants with a linker between them, and only linkers and extenders. -/
def Conjunct (before : List ConjunctClass) (b : ConjunctClass) : Prop :=
  b = .consonant ∧ ∃ middle rest, before = middle ++ .consonant :: rest ∧ .linker ∈ middle ∧
    ∀ k ∈ middle, k = .linker ∨ k = .extend

/-- GB11: two pictographs joined by a zero width joiner, with extenders after the first. -/
def PictographSequence (before : List BreakClass) (b : BreakClass) : Prop :=
  b = .extendedPictographic ∧
    ∃ n rest, before = .zwj :: (List.replicate n .extend ++ .extendedPictographic :: rest)

/-- GB12 and GB13: the second of a pair of regional indicators. -/
def FlagPair (before : List BreakClass) (b : BreakClass) : Prop :=
  b = .regionalIndicator ∧ Odd (before.takeWhile (· = .regionalIndicator)).length

/-- No boundary between `before`, which begins with `a`, and `b`. -/
def Joined (before : List Kind) (a b : Kind) : Prop :=
  (a.bound = .cr ∧ b.bound = .lf) ∨
    (¬ IsControl a.bound ∧ ¬ IsControl b.bound ∧
      (Syllable a.bound b.bound ∨ Attached a.bound b.bound ∨
        Conjunct (before.map Kind.conjunct) b.conjunct ∨
        PictographSequence (before.map Kind.bound) b.bound ∨
        FlagPair (before.map Kind.bound) b.bound))

/-- GB1 to GB999: a boundary between the characters `before`, nearest first, and `b`. -/
def Boundary : List Kind → Kind → Prop
  | [], _ => True
  | a :: before, b => ¬ Joined (a :: before) a b

section Clusters

variable {α : Type} (kind : α → Kind)

open Classical in
/-- The clusters of a text, with the last one and its last character first: a character begins
a cluster where there is a boundary before it. -/
noncomputable def clusters : List α → List (List α)
  | [] => []
  | b :: before =>
    if Boundary (before.map kind) (kind b) then [b] :: clusters before
    else
      match clusters before with
      | [] => [[b]]
      | g :: gs => (b :: g) :: gs

variable {kind} {before : List α} {b : α}

theorem clusters_boundary (h : Boundary (before.map kind) (kind b)) :
    clusters kind (b :: before) = [b] :: clusters kind before := by
  rw [clusters, if_pos h]

/-- A character without a boundary before it belongs to the cluster before it. -/
theorem clusters_joined (h : ¬ Boundary (before.map kind) (kind b)) :
    ∃ g gs, clusters kind before = g :: gs ∧ clusters kind (b :: before) = (b :: g) :: gs := by
  have hne : before ≠ [] := by
    rintro rfl
    exact h trivial
  cases hc : clusters kind before with
  | nil =>
    obtain ⟨a, rest, rfl⟩ := List.exists_cons_of_ne_nil hne
    rw [clusters] at hc
    split_ifs at hc
    cases hrest : clusters kind rest <;> simp [hrest] at hc
  | cons g gs => exact ⟨g, gs, rfl, by rw [clusters, if_neg h, hc]⟩

theorem clusters_flatten (text : List α) : (clusters kind text).flatten = text := by
  induction text with
  | nil => rfl
  | cons b before ih =>
    by_cases h : Boundary (before.map kind) (kind b)
    · rw [clusters_boundary h, List.flatten_cons, ih]
      rfl
    · obtain ⟨g, gs, hbefore, hclusters⟩ := clusters_joined h
      rw [hbefore, List.flatten_cons] at ih
      rw [hclusters, List.flatten_cons, List.cons_append, ih]

end Clusters

end LeoUTF8.GraphemeRules
