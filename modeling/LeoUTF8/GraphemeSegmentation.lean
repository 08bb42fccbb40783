import LeoUTF8.EngineInterface
import LeoUTF8.GraphemeRules

set_option autoImplicit false

/-!
# The grapheme break functions against the rules

The state that a caller carries from pair to pair is a function of the classes of the text
before the pair.
-/
namespace LeoUTF8.GraphemeSegmentation
open EngineTables EngineGraphemes EngineInterface GraphemeRules

def boundclassOf : BreakClass → ℕ
  | .other => boundclassOther
  | .cr => boundclassCr
  | .lf => boundclassLf
  | .control => boundclassControl
  | .extend => boundclassExtend
  | .l => boundclassL
  | .v => boundclassV
  | .t => boundclassT
  | .lv => boundclassLv
  | .lvt => boundclassLvt
  | .regionalIndicator => boundclassRegionalIndicator
  | .spacingMark => boundclassSpacingmark
  | .prepend => boundclassPrepend
  | .zwj => boundclassZwj
  | .extendedPictographic => boundclassExtendedPictographic

def conjunctOf : ConjunctClass → ℕ
  | .none => indicConjunctBreakNone
  | .linker => indicConjunctBreakLinker
  | .consonant => indicConjunctBreakConsonant
  | .extend => indicConjunctBreakExtend

/-- The first byte of the state after a text: what the rules still need to know of it. -/
def boundState : List BreakClass → ℕ
  | [] => boundclassStart
  | .regionalIndicator :: before =>
    if boundState before = boundclassRegionalIndicator then boundclassOther
    else boundclassRegionalIndicator
  | .extend :: before =>
    if boundState before = boundclassExtendedPictographic then boundclassExtendedPictographic
    else boundclassExtend
  | .zwj :: before =>
    if boundState before = boundclassExtendedPictographic then boundclassEZwg else boundclassZwj
  | a :: _ => boundclassOf a

/-- The second byte of the state. -/
def conjunctState : List ConjunctClass → ℕ
  | [] => indicConjunctBreakNone
  | .none :: _ => indicConjunctBreakNone
  | .consonant :: _ => indicConjunctBreakConsonant
  | .linker :: before =>
    if conjunctState before = indicConjunctBreakNone then indicConjunctBreakNone
    else indicConjunctBreakLinker
  | .extend :: before =>
    if conjunctState before = indicConjunctBreakNone then indicConjunctBreakNone
    else if conjunctState before = indicConjunctBreakLinker then indicConjunctBreakLinker
    else indicConjunctBreakExtend

/-- The state after the text `before`, nearest first. -/
def stateOf (before : List Kind) : ℕ :=
  boundState (before.map Kind.bound) + conjunctState (before.map Kind.conjunct) <<< 8

theorem boundState_cons (a : BreakClass) (before : List BreakClass) :
    boundState (a :: before) = boundclassOf a ∨
      (a = .regionalIndicator ∧ boundState (a :: before) = boundclassOther) ∨
      (a = .extend ∧ boundState (a :: before) = boundclassExtendedPictographic) ∨
      (a = .zwj ∧ boundState (a :: before) = boundclassEZwg) := by
  cases a with
  | regionalIndicator | extend | zwj =>
    simp only [boundState]
    split_ifs <;> simp [boundclassOf]
  | _ => exact Or.inl rfl

theorem boundState_lt (before : List BreakClass) : boundState before < 256 := by
  cases before with
  | nil => decide
  | cons a before =>
    rcases boundState_cons a before with h | ⟨_, h⟩ | ⟨_, h⟩ | ⟨_, h⟩
    · rw [h]
      cases a <;> decide
    all_goals rw [h]; decide

theorem boundState_cons_ne_start (a : BreakClass) (before : List BreakClass) :
    boundState (a :: before) ≠ boundclassStart := by
  rcases boundState_cons a before with h | ⟨_, h⟩ | ⟨_, h⟩ | ⟨_, h⟩
  · rw [h]
    cases a <;> decide
  all_goals rw [h]; decide

theorem boundState_pictographic {before : List BreakClass} :
    boundState before = boundclassExtendedPictographic ↔
      ∃ n rest, before = List.replicate n .extend ++ .extendedPictographic :: rest := by
  induction before with
  | nil => simp [boundState, boundclassStart, boundclassExtendedPictographic]
  | cons a before ih =>
    constructor
    · intro h
      rcases boundState_cons a before with ha | ⟨_, ha⟩ | ⟨rfl, ha⟩ | ⟨_, ha⟩
      · rw [h] at ha
        obtain rfl : a = .extendedPictographic := by
          cases a <;> first | rfl | cases ha
        exact ⟨0, before, rfl⟩
      · rw [h] at ha
        cases ha
      · simp only [boundState] at h
        split_ifs at h with hbefore
        · obtain ⟨n, rest, rfl⟩ := ih.mp hbefore
          exact ⟨n + 1, rest, rfl⟩
        · cases h
      · rw [h] at ha
        cases ha
    · rintro ⟨n, rest, h⟩
      cases n with
      | zero =>
        obtain ⟨rfl, rfl⟩ := List.cons_eq_cons.mp h
        rfl
      | succ n =>
        obtain ⟨rfl, hbefore⟩ := List.cons_eq_cons.mp h
        rw [boundState, if_pos (ih.mpr ⟨n, rest, hbefore⟩)]

theorem boundState_zwg {before : List BreakClass} :
    boundState before = boundclassEZwg ↔
      ∃ n rest, before = .zwj :: (List.replicate n .extend ++ .extendedPictographic :: rest) := by
  cases before with
  | nil => simp [boundState, boundclassStart, boundclassEZwg]
  | cons a before =>
    constructor
    · intro h
      rcases boundState_cons a before with ha | ⟨_, ha⟩ | ⟨_, ha⟩ | ⟨rfl, _⟩
      · rw [h] at ha
        cases a <;> cases ha
      · rw [h] at ha
        cases ha
      · rw [h] at ha
        cases ha
      · simp only [boundState] at h
        split_ifs at h with hbefore
        · obtain ⟨n, rest, rfl⟩ := boundState_pictographic.mp hbefore
          exact ⟨n, rest, rfl⟩
        · cases h
    · rintro ⟨n, rest, h⟩
      obtain ⟨rfl, hbefore⟩ := List.cons_eq_cons.mp h
      rw [boundState, if_pos (boundState_pictographic.mpr ⟨n, rest, hbefore⟩)]

theorem boundState_flag {before : List BreakClass} :
    boundState before = boundclassRegionalIndicator ↔
      Odd (before.takeWhile (· = .regionalIndicator)).length := by
  induction before with
  | nil => simp [boundState, boundclassStart, boundclassRegionalIndicator]
  | cons a before ih =>
    by_cases ha : a = .regionalIndicator
    · subst ha
      rw [List.takeWhile_cons_of_pos (by simp), List.length_cons, Nat.odd_add_one, ← ih, boundState]
      by_cases h : boundState before = boundclassRegionalIndicator
      · simp [h, boundclassOther, boundclassRegionalIndicator]
      · simp [h]
    · rw [List.takeWhile_cons_of_neg (by simpa using ha)]
      simp only [List.length_nil, Nat.not_odd_zero, iff_false]
      intro h
      rcases boundState_cons a before with hs | ⟨rfl, _⟩ | ⟨_, hs⟩ | ⟨_, hs⟩
      · rw [h] at hs
        cases a <;> first | exact ha rfl | cases hs
      · exact ha rfl
      all_goals rw [h] at hs; cases hs

theorem conjunctState_lt (before : List ConjunctClass) : conjunctState before < 4 := by
  cases before with
  | nil => decide
  | cons k before => cases k <;> simp only [conjunctState] <;> (try split_ifs) <;> decide

/-- A consonant stands before the linkers and extenders at the end of the text. -/
theorem conjunctState_ne_none {before : List ConjunctClass} :
    conjunctState before ≠ indicConjunctBreakNone ↔
      ∃ middle rest, before = middle ++ .consonant :: rest ∧
        ∀ k ∈ middle, k = .linker ∨ k = .extend := by
  induction before with
  | nil => simp [conjunctState]
  | cons k before ih =>
    have hextend (hk : k = .linker ∨ k = .extend) :
        (∃ middle rest, k :: before = middle ++ .consonant :: rest ∧
          ∀ m ∈ middle, m = .linker ∨ m = .extend) ↔
        ∃ middle rest, before = middle ++ .consonant :: rest ∧
          ∀ m ∈ middle, m = .linker ∨ m = .extend := by
      constructor
      · rintro ⟨middle, rest, h, hmiddle⟩
        cases middle with
        | nil =>
          obtain ⟨rfl, _⟩ := List.cons_eq_cons.mp h
          rcases hk with hk | hk <;> cases hk
        | cons m middle =>
          obtain ⟨rfl, hbefore⟩ := List.cons_eq_cons.mp h
          exact ⟨middle, rest, hbefore, fun x hx => hmiddle x (List.mem_cons_of_mem _ hx)⟩
      · rintro ⟨middle, rest, rfl, hmiddle⟩
        exact ⟨k :: middle, rest, rfl, List.forall_mem_cons.mpr ⟨hk, hmiddle⟩⟩
    cases k with
    | consonant =>
      refine iff_of_true (by simp [conjunctState, indicConjunctBreakConsonant,
        indicConjunctBreakNone]) ⟨[], before, rfl, by simp⟩
    | none =>
      refine iff_of_false (by simp [conjunctState]) ?_
      rintro ⟨middle, rest, h, hmiddle⟩
      cases middle with
      | nil => cases h
      | cons m middle =>
        obtain ⟨rfl, _⟩ := List.cons_eq_cons.mp h
        simpa using hmiddle _ List.mem_cons_self
    | linker =>
      rw [hextend (Or.inl rfl), ← ih, conjunctState]
      split_ifs with h
      · exact iff_of_false (not_not_intro rfl) (not_not_intro h)
      · exact iff_of_true (by decide) h
    | extend =>
      rw [hextend (Or.inr rfl), ← ih, conjunctState]
      split_ifs with h
      · exact iff_of_false (not_not_intro rfl) (not_not_intro h)
      · exact iff_of_true (by decide) h
      · exact iff_of_true (by decide) h

theorem conjunctState_linker {before : List ConjunctClass} :
    conjunctState before = indicConjunctBreakLinker ↔
      ∃ middle rest, before = middle ++ .consonant :: rest ∧ .linker ∈ middle ∧
        ∀ k ∈ middle, k = .linker ∨ k = .extend := by
  induction before with
  | nil => simp [conjunctState, indicConjunctBreakNone, indicConjunctBreakLinker]
  | cons k before ih =>
    constructor
    · intro h
      cases k with
      | none | consonant => cases h
      | linker =>
        simp only [conjunctState] at h
        split_ifs at h with hnone
        · cases h
        obtain ⟨middle, rest, rfl, hmiddle⟩ := conjunctState_ne_none.mp hnone
        exact ⟨.linker :: middle, rest, rfl, List.mem_cons_self,
          List.forall_mem_cons.mpr ⟨Or.inl rfl, hmiddle⟩⟩
      | extend =>
        simp only [conjunctState] at h
        split_ifs at h with hnone hlinker
        · cases h
        · obtain ⟨middle, rest, rfl, hmem, hmiddle⟩ := ih.mp hlinker
          exact ⟨.extend :: middle, rest, rfl, List.mem_cons_of_mem _ hmem,
            List.forall_mem_cons.mpr ⟨Or.inr rfl, hmiddle⟩⟩
        · cases h
    · rintro ⟨middle, rest, h, hmem, hmiddle⟩
      cases middle with
      | nil => cases hmem
      | cons m middle =>
        obtain ⟨rfl, hbefore⟩ := List.cons_eq_cons.mp h
        obtain ⟨hk, htail⟩ := List.forall_mem_cons.mp hmiddle
        have hopen := conjunctState_ne_none.mpr ⟨middle, rest, hbefore, htail⟩
        rcases hk with rfl | rfl
        · rw [conjunctState, if_neg hopen]
        · have hlinker := ih.mpr ⟨middle, rest, hbefore, by simpa using hmem, htail⟩
          rw [conjunctState, if_neg hopen, if_pos hlinker]

/-- The rules that look at the two neighbours only. -/
def PairJoined (a b : BreakClass) : Prop :=
  (a = .cr ∧ b = .lf) ∨ (¬ IsControl a ∧ ¬ IsControl b ∧ (Syllable a b ∨ Attached a b))

theorem graphemeBreakSimple_start (tbc : ℕ) : graphemeBreakSimple boundclassStart tbc = true := rfl

/-- The function for pairs sees the rules for pairs and what the first class stands for. -/
theorem graphemeBreakSimple_state (a b : BreakClass) (before : List BreakClass) :
    graphemeBreakSimple (boundState (a :: before)) (boundclassOf b) = true ↔
      ¬ (PairJoined a b ∨
        (boundState (a :: before) = boundclassEZwg ∧ b = .extendedPictographic) ∨
        (boundState (a :: before) = boundclassRegionalIndicator ∧ b = .regionalIndicator)) := by
  rcases boundState_cons a before with h | ⟨rfl, h⟩ | ⟨rfl, h⟩ | ⟨rfl, h⟩
  · rw [h]
    unfold PairJoined IsControl Syllable Attached
    cases a <;> cases b <;> decide
  all_goals
    rw [h]
    unfold PairJoined IsControl Syllable Attached
    cases b <;> decide

theorem nextBound_eq (a : BreakClass) (before : List BreakClass) :
    (if boundState before = boundclassOf a ∧ boundclassOf a = boundclassRegionalIndicator then
        boundclassOther
      else if boundState before = boundclassExtendedPictographic then
        if boundclassOf a = boundclassExtend then boundclassExtendedPictographic
        else if boundclassOf a = boundclassZwj then boundclassEZwg
        else boundclassOf a
      else boundclassOf a) = boundState (a :: before) := by
  have hne (b : BreakClass) (h : a ≠ b) : boundclassOf a ≠ boundclassOf b := by
    intro heq
    cases a <;> cases b <;> first | exact h rfl | cases heq
  by_cases hflag : a = .regionalIndicator
  · subst hflag
    simp only [boundState, boundclassOf, and_true]
    split_ifs <;> rfl
  rw [if_neg fun h => hne _ hflag h.2]
  by_cases hextend : a = .extend
  · subst hextend
    simp only [boundState, boundclassOf, if_true]
  by_cases hzwj : a = .zwj
  · subst hzwj
    rfl
  have hother : boundState (a :: before) = boundclassOf a := by
    cases a <;> first | rfl | contradiction
  have hextend' : boundclassOf a ≠ boundclassExtend := hne _ hextend
  have hzwj' : boundclassOf a ≠ boundclassZwj := hne _ hzwj
  rw [if_neg hextend', if_neg hzwj', ite_self, hother]

theorem nextConjunct_eq (k : ConjunctClass) (before : List ConjunctClass) :
    (if conjunctOf k = indicConjunctBreakConsonant ∨
          conjunctState before = indicConjunctBreakConsonant ∨
          conjunctState before = indicConjunctBreakExtend then conjunctOf k
      else if conjunctState before = indicConjunctBreakLinker then
        if conjunctOf k = indicConjunctBreakExtend then indicConjunctBreakLinker else conjunctOf k
      else conjunctState before) = conjunctState (k :: before) := by
  have hlt := conjunctState_lt before
  have hcases : conjunctState before = indicConjunctBreakNone ∨
      conjunctState before = indicConjunctBreakLinker ∨
      conjunctState before = indicConjunctBreakConsonant ∨
      conjunctState before = indicConjunctBreakExtend := by
    simp only [indicConjunctBreakNone, indicConjunctBreakLinker, indicConjunctBreakConsonant,
      indicConjunctBreakExtend]
    omega
  cases k with
  | none | consonant | linker | extend =>
    simp only [conjunctState]
    rcases hcases with h | h | h | h <;> rw [h] <;> rfl

/-- Characters that take part in conjuncts are not controls. -/
def Visible (k : Kind) : Prop := k.conjunct ≠ .none → ¬ IsControl k.bound

theorem pictographSequence_iff (before : List BreakClass) (b : BreakClass) :
    PictographSequence before b ↔
      boundState before = boundclassEZwg ∧ b = .extendedPictographic := by
  rw [PictographSequence, boundState_zwg, and_comm]

theorem flagPair_iff (before : List BreakClass) (b : BreakClass) :
    FlagPair before b ↔
      boundState before = boundclassRegionalIndicator ∧ b = .regionalIndicator := by
  rw [FlagPair, boundState_flag, and_comm]

theorem conjunct_iff (before : List ConjunctClass) (b : ConjunctClass) :
    Conjunct before b ↔ conjunctState before = indicConjunctBreakLinker ∧ b = .consonant := by
  rw [Conjunct, conjunctState_linker, and_comm]

/-- Every rule for joining but GB3 is one for characters that are not controls. -/
theorem joined_iff {a b : Kind} (before : List Kind) (ha : Visible a) (hb : Visible b) :
    GraphemeRules.Joined (a :: before) a b ↔
      (PairJoined a.bound b.bound ∨ PictographSequence (a.bound :: before.map Kind.bound) b.bound ∨
        FlagPair (a.bound :: before.map Kind.bound) b.bound) ∨
      Conjunct (a.conjunct :: before.map Kind.conjunct) b.conjunct := by
  have hconjunct (h : Conjunct (a.conjunct :: before.map Kind.conjunct) b.conjunct) :
      ¬ IsControl a.bound ∧ ¬ IsControl b.bound := by
    obtain ⟨hconsonant, middle, rest, hbefore, hmem, hmiddle⟩ := h
    refine ⟨ha ?_, hb (by rw [hconsonant]; decide)⟩
    cases middle with
    | nil => cases hmem
    | cons m middle =>
      obtain ⟨hm, _⟩ := List.cons_eq_cons.mp hbefore
      rcases hmiddle m List.mem_cons_self with h | h <;> (rw [hm, h]; decide)
  have hpictograph
      (h : PictographSequence (a.bound :: before.map Kind.bound) b.bound) :
      ¬ IsControl a.bound ∧ ¬ IsControl b.bound := by
    obtain ⟨hb, n, rest, hbefore⟩ := h
    rw [(List.cons_eq_cons.mp hbefore).1, hb]
    decide
  have hflag (h : FlagPair (a.bound :: before.map Kind.bound) b.bound) :
      ¬ IsControl a.bound ∧ ¬ IsControl b.bound := by
    obtain ⟨hb, hodd⟩ := h
    by_cases ha : a.bound = .regionalIndicator
    · rw [ha, hb]
      decide
    · rw [List.takeWhile_cons_of_neg (by simpa using ha)] at hodd
      exact absurd hodd (by decide)
  unfold GraphemeRules.Joined PairJoined
  rw [List.map_cons, List.map_cons]
  constructor
  · rintro (h | ⟨ha, hb, h | h | h | h | h⟩)
    · exact Or.inl (Or.inl (Or.inl h))
    · exact Or.inl (Or.inl (Or.inr ⟨ha, hb, Or.inl h⟩))
    · exact Or.inl (Or.inl (Or.inr ⟨ha, hb, Or.inr h⟩))
    · exact Or.inr h
    · exact Or.inl (Or.inr (Or.inl h))
    · exact Or.inl (Or.inr (Or.inr h))
  · rintro (((h | ⟨ha, hb, h | h⟩) | h | h) | h)
    · exact Or.inl h
    · exact Or.inr ⟨ha, hb, Or.inl h⟩
    · exact Or.inr ⟨ha, hb, Or.inr (Or.inl h)⟩
    · exact Or.inr ⟨(hpictograph h).1, (hpictograph h).2,
        Or.inr (Or.inr (Or.inr (Or.inl h)))⟩
    · exact Or.inr ⟨(hflag h).1, (hflag h).2, Or.inr (Or.inr (Or.inr (Or.inr h)))⟩
    · exact Or.inr ⟨(hconjunct h).1, (hconjunct h).2, Or.inr (Or.inr (Or.inl h))⟩

/-- One call answers for the text before the character and moves on to the text with it. -/
theorem graphemeBreakExtended_step {lbc licb state : ℕ} {before : List Kind} {b : Kind}
    (hbound : (if state = 0 then lbc else state &&& 0xff) = boundState (before.map Kind.bound))
    (hconjunct : (if state = 0 then
        if licb = indicConjunctBreakConsonant then licb else indicConjunctBreakNone
      else state >>> 8) = conjunctState (before.map Kind.conjunct))
    (hbefore : ∀ k ∈ before, Visible k) (hb : Visible b) :
    ((graphemeBreakExtended lbc (boundclassOf b.bound) licb (conjunctOf b.conjunct) state).1 =
        true ↔ Boundary before b) ∧
      (graphemeBreakExtended lbc (boundclassOf b.bound) licb (conjunctOf b.conjunct) state).2 =
        stateOf (b :: before) := by
  unfold graphemeBreakExtended
  simp only [hbound, hconjunct]
  constructor
  · have hconsonant : conjunctOf b.conjunct = indicConjunctBreakConsonant ↔
        b.conjunct = .consonant := by
      cases b.conjunct <;> decide
    rw [Bool.and_eq_true, Bool.not_eq_true', Bool.and_eq_false_iff]
    simp only [beq_eq_false_iff_ne, ne_eq, hconsonant, ← not_and_or, ← conjunct_iff]
    cases before with
    | nil =>
      refine iff_of_true ⟨graphemeBreakSimple_start _, ?_⟩ trivial
      rintro ⟨_, middle, rest, h, hmem, _⟩
      cases middle <;> cases h
    | cons a before =>
      rw [List.map_cons, List.map_cons, graphemeBreakSimple_state, ← pictographSequence_iff,
        ← flagPair_iff, ← not_or,
        ← joined_iff before (hbefore a List.mem_cons_self) hb]
      rfl
  · rw [nextBound_eq, nextConjunct_eq]
    rfl

theorem stateOf_split (before : List Kind) :
    stateOf before &&& 0xff = boundState (before.map Kind.bound) ∧
      stateOf before >>> 8 = conjunctState (before.map Kind.conjunct) := by
  have hlt := boundState_lt (before.map Kind.bound)
  have hlow : stateOf before &&& 0xff = stateOf before % 2 ^ 8 :=
    Nat.and_two_pow_sub_one_eq_mod _ 8
  rw [hlow, Nat.shiftRight_eq_div_pow, stateOf, Nat.shiftLeft_eq]
  omega

theorem stateOf_ne_zero (a : Kind) (before : List Kind) : stateOf (a :: before) ≠ 0 := by
  have h : 0 < boundState (a.bound :: before.map Kind.bound) :=
    Nat.pos_of_ne_zero (boundState_cons_ne_start _ _)
  rw [stateOf, List.map_cons]
  omega

/-- The records of the table hold the classes `kind`. -/
structure GraphemeClasses (t : Utf8procData) (kind : ℕ → Kind) : Prop where
  bound : ∀ c < 0x110000, (t.property c).boundclass = boundclassOf (kind c).bound
  conjunct : ∀ c < 0x110000, (t.property c).indicConjunctBreak = conjunctOf (kind c).conjunct
  visible : ∀ c < 0x110000, Visible (kind c)

/-- The answers for the consecutive pairs of a text, of a caller that keeps one state. -/
def graphemeBreaks (t : Utf8procData) : ℕ → ℤ → List ℤ → List Bool
  | _, _, [] => []
  | state, c1, c2 :: cs =>
    let (permitted, next) := utf8procGraphemeBreakStateful t c1 c2 (some state)
    permitted :: graphemeBreaks t (next.getD 0) c2 cs

section Breaks

variable {t : Utf8procData} {kind : ℕ → Kind} (classes : GraphemeClasses t kind)
include classes

theorem utf8procGraphemeBreakStateful_step {state c1 c2 : ℕ} {before : List ℕ}
    (hbefore : ∀ c ∈ before, c < 0x110000) (h1 : c1 < 0x110000) (h2 : c2 < 0x110000)
    (hstate : state = stateOf ((c1 :: before).map kind) ∨ (before = [] ∧ state = 0)) :
    ∃ permitted, utf8procGraphemeBreakStateful t c1 c2 (some state) =
        (permitted, some (stateOf ((c2 :: c1 :: before).map kind))) ∧
      (permitted = true ↔ Boundary ((c1 :: before).map kind) (kind c2)) := by
  have hproperty {c : ℕ} (hc : c < 0x110000) : utf8procGetProperty t c = t.property c := by
    rw [utf8procGetProperty, if_neg (by omega), Int.toNat_natCast]
  have hvisible : ∀ k ∈ (c1 :: before).map kind, Visible k := by
    intro k hk
    obtain ⟨c, hc, rfl⟩ := List.mem_map.mp hk
    rcases List.mem_cons.mp hc with rfl | hc
    · exact classes.visible c h1
    · exact classes.visible c (hbefore c hc)
  have hcomponents : (if state = 0 then boundclassOf (kind c1).bound else state &&& 0xff) =
        boundState (((c1 :: before).map kind).map Kind.bound) ∧
      (if state = 0 then
        if conjunctOf (kind c1).conjunct = indicConjunctBreakConsonant then
          conjunctOf (kind c1).conjunct
        else indicConjunctBreakNone
      else state >>> 8) = conjunctState (((c1 :: before).map kind).map Kind.conjunct) := by
    rcases hstate with rfl | ⟨rfl, rfl⟩
    · have hne : stateOf ((c1 :: before).map kind) ≠ 0 := stateOf_ne_zero _ _
      rw [if_neg hne, if_neg hne]
      exact stateOf_split _
    · simp only [if_true, List.map_cons, List.map_nil]
      constructor
      · cases (kind c1).bound <;> rfl
      · cases (kind c1).conjunct <;> rfl
  obtain ⟨hpermitted, hnext⟩ := graphemeBreakExtended_step hcomponents.1 hcomponents.2 hvisible
    (classes.visible c2 h2)
  rw [utf8procGraphemeBreakStateful, hproperty h1, hproperty h2]
  simp only [classes.bound c1 h1, classes.bound c2 h2, classes.conjunct c1 h1,
    classes.conjunct c2 h2]
  refine ⟨_, ?_, hpermitted⟩
  rw [hnext]
  rfl

theorem graphemeBreaks_getElem {state c : ℕ} {before pre post : List ℕ} {a b : ℕ}
    (hbefore : ∀ d ∈ before, d < 0x110000) (hcodes : ∀ d ∈ pre ++ a :: b :: post, d < 0x110000)
    (hfirst : ∃ text, pre ++ a :: b :: post = c :: text)
    (hstate : state = stateOf ((c :: before).map kind) ∨ (before = [] ∧ state = 0)) :
    ∃ permitted, (graphemeBreaks t state c
        (((pre ++ a :: b :: post).tail).map Nat.cast))[pre.length]? = some permitted ∧
      (permitted = true ↔ Boundary ((a :: pre.reverse ++ before).map kind) (kind b)) := by
  induction pre generalizing state c before with
  | nil =>
    obtain ⟨text, htext⟩ := hfirst
    obtain ⟨rfl, rfl⟩ := List.cons_eq_cons.mp htext
    obtain ⟨permitted, hcall, hpermitted⟩ := utf8procGraphemeBreakStateful_step classes hbefore
      (hcodes a (by simp)) (hcodes b (by simp)) hstate
    refine ⟨permitted, ?_, by simpa using hpermitted⟩
    change (graphemeBreaks t state a ((b : ℤ) :: post.map Nat.cast))[0]? = _
    rw [graphemeBreaks, hcall]
    rfl
  | cons d pre ih =>
    obtain ⟨text, htext⟩ := hfirst
    obtain ⟨rfl, rfl⟩ := List.cons_eq_cons.mp htext
    obtain ⟨e, rest, he⟩ : ∃ e rest, pre ++ a :: b :: post = e :: rest := by
      cases pre <;> exact ⟨_, _, rfl⟩
    have hd : d < 0x110000 := hcodes d (by simp)
    have hrest : ∀ x ∈ pre ++ a :: b :: post, x < 0x110000 := fun x hx =>
      hcodes x (List.mem_cons_of_mem d hx)
    obtain ⟨permitted, hcall, _⟩ := utf8procGraphemeBreakStateful_step classes hbefore hd
      (hrest e (by rw [he]; simp)) hstate
    have hseen : ∀ x ∈ d :: before, x < 0x110000 := List.forall_mem_cons.mpr ⟨hd, hbefore⟩
    obtain ⟨answer, hanswer, hboundary⟩ := ih hseen hrest ⟨rest, he⟩ (Or.inl rfl)
    refine ⟨answer, ?_, by simpa using hboundary⟩
    change (graphemeBreaks t state d ((pre ++ a :: b :: post).map Nat.cast))[pre.length + 1]? = _
    rw [he] at hanswer ⊢
    rw [List.map_cons, graphemeBreaks, hcall]
    exact hanswer

end Breaks

end LeoUTF8.GraphemeSegmentation
