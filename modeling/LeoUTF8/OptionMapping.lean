import LeoUTF8.TableAssumptions

set_option autoImplicit false

/-!
# The mapping of one code point under any options

What `utf8proc_decompose_char` makes of a code point, for every set of options: the code
points that replace it, expanded recursively, and the marks of grapheme breaks among them.
Nothing here writes to a buffer.
-/
namespace LeoUTF8.OptionMapping
open ScalarEncoding EngineTables EngineGraphemes EngineDecompose RecursiveExpansion
open CodePointMapping

/-- A code point of the recursion with the options that apply to it. -/
structure Item where
  options : Utf8procOption
  code : ℕ

/-- Whether the options decompose. -/
def Canonical (options : Utf8procOption) : Prop :=
  hasOption options (utf8procCompose ||| utf8procDecompose) = true

instance (options : Utf8procOption) : Decidable (Canonical options) :=
  inferInstanceAs (Decidable (_ = true))

/-- An option that is set is seen by a test for it and others. -/
theorem hasOption_mono {options one flags : Utf8procOption} (hflags : flags &&& one = one)
    (h : hasOption options one = true) : hasOption options flags = true := by
  unfold hasOption at h ⊢
  rw [bne_iff_ne] at h ⊢
  intro hzero
  apply h
  rw [← hflags, ← UInt32.and_assoc, hzero, UInt32.zero_and]

theorem canonical_of_compose {options : Utf8procOption}
    (h : hasOption options utf8procCompose = true) : Canonical options :=
  hasOption_mono (by decide) h

def IsSyllable (i : Item) : Prop := Canonical i.options ∧ IsHangulSyllable i.code

instance (i : Item) : Decidable (IsSyllable i) := inferInstanceAs (Decidable (_ ∧ _))

/-- Left out before its replacements are looked at. -/
def Dropped (t : Utf8procData) (i : Item) : Prop :=
  (hasOption i.options utf8procIgnore ∧ (t.property i.code).ignorable) ∨
    (hasOption i.options utf8procStripna ∧ (t.property i.code).category = .cn)

instance (t : Utf8procData) (i : Item) : Decidable (Dropped t i) :=
  inferInstanceAs (Decidable (_ ∨ _))

def IsMark (category : Category) : Prop := category = .mn ∨ category = .mc ∨ category = .me

instance (category : Category) : Decidable (IsMark category) :=
  inferInstanceAs (Decidable (_ ∨ _))

/-- Left out as a mark. -/
def Stripped (t : Utf8procData) (i : Item) : Prop :=
  hasOption i.options utf8procStripmark ∧ IsMark (t.property i.code).category

instance (t : Utf8procData) (i : Item) : Decidable (Stripped t i) :=
  inferInstanceAs (Decidable (_ ∧ _))

/-- A decomposition; one with a compatibility tag counts if the options ask for it. -/
def mappingEntry (t : Utf8procData) (compat : Bool) (c : ℕ) : Option (List ℕ) :=
  if (t.property c).decompSeqindex ≠ uint16Max ∧ ((t.property c).decompType = 0 ∨ compat) then
    some (sequenceOf t (t.property c).decompSeqindex)
  else none

def lumped (t : Utf8procData) (i : Item) : Option ℤ :=
  lumpReplacement (t.property i.code).category i.code i.options

/-- What an item is replaced by. -/
def itemEntry (t : Utf8procData) (i : Item) : Option (List Item) :=
  if IsSyllable i ∨ Dropped t i then none
  else
    match lumped t i with
    | some replacement => some [⟨i.options &&& ~~~ utf8procLump, replacement.toNat⟩]
    | none =>
      if Stripped t i then none
      else if hasOption i.options utf8procCasefold ∧
          (t.property i.code).casefoldSeqindex ≠ uint16Max then
        (foldEntry t i.code).map (List.map (Item.mk i.options))
      else if Canonical i.options then
        (mappingEntry t (hasOption i.options utf8procCompat) i.code).map
          (List.map (Item.mk i.options))
      else none

/-- What an item without an entry becomes. The jamo of a syllable are written as they are. -/
def itemTerminal (t : Utf8procData) (i : Item) : List Item :=
  if IsSyllable i then (hangulJamo i.code).map (Item.mk 0)
  else if Dropped t i ∨ Stripped t i then []
  else [i]

/-- The cells of one item and the state after it. -/
def markOne (t : Utf8procData) (state : ℕ) (i : Item) : List ℤ × ℕ :=
  if hasOption i.options utf8procCharbound then
    let (boundary, next) := graphemeBreakExtended 0 (t.property i.code).boundclass 0
      (t.property i.code).indicConjunctBreak state
    (if boundary then [-1, (i.code : ℤ)] else [(i.code : ℤ)], next)
  else ([(i.code : ℤ)], state)

def markState (t : Utf8procData) (state : ℕ) (is : List Item) : ℕ :=
  is.foldl (fun s i => (markOne t s i).2) state

/-- The cells of a list of items, with a `-1` before every grapheme break that is asked for. -/
def marked (t : Utf8procData) : ℕ → List Item → List ℤ
  | _, [] => []
  | state, i :: is => (markOne t state i).1 ++ marked t (markOne t state i).2 is

@[simp] theorem markState_nil (t : Utf8procData) (state : ℕ) : markState t state [] = state := rfl

@[simp] theorem markState_append (t : Utf8procData) (state : ℕ) (is js : List Item) :
    markState t state (is ++ js) = markState t (markState t state is) js := List.foldl_append

@[simp] theorem marked_nil (t : Utf8procData) (state : ℕ) : marked t state [] = [] := rfl

theorem marked_singleton (t : Utf8procData) (state : ℕ) (i : Item) :
    marked t state [i] = (markOne t state i).1 := List.append_nil _

@[simp] theorem marked_append (t : Utf8procData) (state : ℕ) (is js : List Item) :
    marked t state (is ++ js) = marked t state is ++ marked t (markState t state is) js := by
  induction is generalizing state with
  | nil => rfl
  | cons i is ih =>
    rw [List.cons_append, marked, marked, ih, List.append_assoc]
    rfl

/-- Without the option for grapheme breaks an item is its code point. -/
theorem markOne_plain (t : Utf8procData) (state : ℕ) {i : Item}
    (h : hasOption i.options utf8procCharbound = false) :
    markOne t state i = ([(i.code : ℤ)], state) := by
  rw [markOne, h]
  rfl

theorem marked_plain (t : Utf8procData) (state : ℕ) {is : List Item}
    (h : ∀ i ∈ is, hasOption i.options utf8procCharbound = false) :
    marked t state is = is.map (fun i => (i.code : ℤ)) ∧ markState t state is = state := by
  induction is with
  | nil => exact ⟨rfl, rfl⟩
  | cons i is ih =>
    obtain ⟨hi, his⟩ := List.forall_mem_cons.mp h
    obtain ⟨hcells, hstate⟩ := ih his
    have hone := markOne_plain t state hi
    constructor
    · rw [marked, hone, hcells]
      rfl
    · change markState t (markOne t state i).2 is = state
      rw [hone, hstate]

/-- A code point that is refused under `UTF8PROC_REJECTNA`. -/
def Rejected (t : Utf8procData) (i : Item) : Prop :=
  ¬ IsSyllable i ∧ hasOption i.options utf8procRejectna ∧ (t.property i.code).category = .cn

instance (t : Utf8procData) (i : Item) : Decidable (Rejected t i) :=
  inferInstanceAs (Decidable (_ ∧ _))

/-- The characters that `UTF8PROC_LUMP` replaces others by. -/
def lumpTargets : List ℕ :=
  [0x0020, 0x0027, 0x002D, 0x002F, 0x003A, 0x003C, 0x003E, 0x005C, 0x005E, 0x005F, 0x0060, 0x007C,
    0x007E, 0x000A]

theorem lumpReplacement_target {category : Category} {uc r : ℤ} {options : Utf8procOption}
    (h : lumpReplacement category uc options = some r) :
    hasOption options utf8procLump = true ∧ r.toNat ∈ lumpTargets ∧ (r.toNat : ℤ) = r := by
  unfold lumpReplacement at h
  cases hlump : hasOption options utf8procLump with
  | false =>
    rw [hlump] at h
    cases h
  | true =>
    refine ⟨rfl, ?_⟩
    have hchain {p : Prop} [Decidable p] {a : ℤ} {rest : Option ℤ}
        (ha : a.toNat ∈ lumpTargets ∧ (a.toNat : ℤ) = a)
        (hrest : rest = some r → r.toNat ∈ lumpTargets ∧ (r.toNat : ℤ) = r)
        (h : (if p then some a else rest) = some r) :
        r.toNat ∈ lumpTargets ∧ (r.toNat : ℤ) = r := by
      split_ifs at h
      · obtain rfl := Option.some.inj h
        exact ha
      · exact hrest h
    rw [hlump] at h
    revert h
    iterate 14 refine hchain (by decide) ?_
    intro h
    cases h

/-- The table entry of a code point, of either kind. -/
def HasEntry (t : Utf8procData) (c : ℕ) (bs : List ℕ) : Prop :=
  foldEntry t c = some bs ∨ mappingEntry t true c = some bs

/-- What the options rest on: entries are nested less than `0x80000` deep, and nothing is
replaced by an unassigned code point. -/
structure OptionTables (t : Utf8procData) : Prop where
  nesting : ∃ rank : ℕ → ℕ, (∀ c, rank c < 0x80000) ∧
    ∀ c < 0x110000, ∀ bs, HasEntry t c bs → ∀ b ∈ bs, rank b < rank c
  assigned : ∀ c < 0x110000, ∀ bs, HasEntry t c bs → ∀ b ∈ bs, (t.property b).category ≠ .cn
  targets : ∀ c ∈ lumpTargets, (t.property c).category ≠ .cn

/-- What stands at the top of a call that does not fail. -/
def Accepted (t : Utf8procData) (i : Item) : Prop := i.code < 0x110000 ∧ ¬ Rejected t i

theorem mappingEntry_compat {t : Utf8procData} {compat : Bool} {c : ℕ} {bs : List ℕ}
    (h : mappingEntry t compat c = some bs) : mappingEntry t true c = some bs := by
  unfold mappingEntry at h ⊢
  split_ifs at h with hc
  rw [if_pos ⟨hc.1, Or.inr rfl⟩, h]

theorem hasEntry_isScalar {t : Utf8procData} {c : ℕ} {bs : List ℕ} (h : HasEntry t c bs) :
    ∀ b ∈ bs, IsScalar b := by
  unfold HasEntry foldEntry mappingEntry at h
  rcases h with h | h <;>
  · split_ifs at h
    obtain rfl := Option.some.inj h
    exact sequenceOf_isScalar t _

/-- An entry is one of the table under the same options, or a replacement without lumping. -/
theorem itemEntry_cases {t : Utf8procData} {i : Item} {js : List Item}
    (h : itemEntry t i = some js) :
    (∃ bs, HasEntry t i.code bs ∧ js = bs.map (Item.mk i.options)) ∨
      (hasOption i.options utf8procLump ∧ ∃ a ∈ lumpTargets,
        js = [⟨i.options &&& ~~~ utf8procLump, a⟩]) := by
  rw [itemEntry] at h
  by_cases hout : IsSyllable i ∨ Dropped t i
  · rw [if_pos hout] at h
    cases h
  rw [if_neg hout] at h
  cases hl : lumped t i with
  | some r =>
    rw [hl] at h
    obtain ⟨hlump, hr, _⟩ := lumpReplacement_target hl
    exact Or.inr ⟨hlump, _, hr, (Option.some.inj h).symm⟩
  | none =>
    rw [hl] at h
    dsimp only at h
    left
    by_cases hstripped : Stripped t i
    · rw [if_pos hstripped] at h
      cases h
    rw [if_neg hstripped] at h
    split_ifs at h
    · obtain ⟨bs, hbs, rfl⟩ := Option.map_eq_some_iff.mp h
      exact ⟨bs, Or.inl hbs, rfl⟩
    · obtain ⟨bs, hbs, rfl⟩ := Option.map_eq_some_iff.mp h
      exact ⟨bs, Or.inr (mappingEntry_compat hbs), rfl⟩

theorem lumpTargets_lt : ∀ a ∈ lumpTargets, a < 0x80 := by decide

theorem accepted_entry {t : Utf8procData} (tables : OptionTables t) {i : Item} {js : List Item}
    (hi : i.code < 0x110000) (h : itemEntry t i = some js) : ∀ j ∈ js, Accepted t j := by
  rcases itemEntry_cases h with ⟨bs, hbs, rfl⟩ | ⟨_, a, ha, rfl⟩
  · intro j hj
    obtain ⟨b, hb, rfl⟩ := List.mem_map.mp hj
    exact ⟨(hasEntry_isScalar hbs b hb).lt,
      fun hrejected => tables.assigned _ hi bs hbs b hb hrejected.2.2⟩
  · intro j hj
    obtain rfl := List.mem_singleton.mp hj
    have hlt := lumpTargets_lt a ha
    exact ⟨show a < 0x110000 by omega, fun hrejected => tables.targets a ha hrejected.2.2⟩

theorem hasOption_without_lump (options : Utf8procOption) :
    hasOption (options &&& ~~~ utf8procLump) utf8procLump = false := by
  have h : options &&& ~~~ utf8procLump &&& utf8procLump = 0 := by
    rw [UInt32.and_assoc, UInt32.not_and_self, UInt32.and_zero]
  rw [hasOption, h]
  rfl

/-- The nesting of the tables bounds that of the calls. -/
theorem item_isSome {t : Utf8procData} (tables : OptionTables t) {i : Item}
    (hi : i.code < 0x110000) :
    (expandWithin (itemEntry t) (itemTerminal t) decomposeDepth i).isSome := by
  obtain ⟨rank, hlt, hfalls⟩ := tables.nesting
  refine expandWithin_rank_isSome _ _
    (fun i => (if hasOption i.options utf8procLump then 0x80000 else 0) + rank i.code)
    (p := fun i => i.code < 0x110000) ?_ hi ?_
  · intro i js hi h j hj
    refine ⟨(accepted_entry tables hi h j hj).1, ?_⟩
    rcases itemEntry_cases h with ⟨bs, hbs, rfl⟩ | ⟨hlump, a, ha, rfl⟩
    · obtain ⟨b, hb, rfl⟩ := List.mem_map.mp hj
      have := hfalls _ hi bs hbs b hb
      simp only
      omega
    · obtain rfl := List.mem_singleton.mp hj
      have := hlt a
      simp only [hlump, hasOption_without_lump, if_true, Bool.false_eq_true, if_false]
      omega
  · have := hlt i.code
    simp only [decomposeDepth]
    split_ifs <;> omega

/-- The items that an item becomes. -/
def items (t : Utf8procData) (i : Item) : List Item :=
  expand (itemEntry t) (itemTerminal t) decomposeDepth i

theorem items_eq {t : Utf8procData} (tables : OptionTables t) {i : Item}
    (hi : i.code < 0x110000) :
    expandWithin (itemEntry t) (itemTerminal t) decomposeDepth i = some (items t i) :=
  expandWithin_eq_expand _ _ (item_isSome tables hi)

section Acute

open TableAssumptions

theorem acute_hasEntry {c : ℕ} {bs : List ℕ} (h : HasEntry acuteData c bs) :
    (c = 0x41 ∧ bs = [0x61]) ∨ (c = 0xE9 ∧ bs = [0x65, 0x301]) := by
  rcases h with h | h
  · rw [acute_foldEntry] at h
    split_ifs at h with hc
    exact Or.inl ⟨hc, (Option.some.inj h).symm⟩
  · have hdecomposition : mappingEntry acuteData true c = decompositionEntry acuteData c := by
      rw [mappingEntry, decompositionEntry, acute_property]
      simp [acuteProperty]
    rw [hdecomposition, acute_decompositionEntry] at h
    split_ifs at h with hc
    exact Or.inr ⟨hc, (Option.some.inj h).symm⟩

theorem acute_optionTables : OptionTables acuteData := by
  have hcategory (c : ℕ) : (acuteData.property c).category ≠ .cn := by
    rw [acute_property]
    exact Category.noConfusion
  refine ⟨⟨fun c => if c = 0xE9 ∨ c = 0x41 then 1 else 0, ?_, ?_⟩,
    fun _ _ _ _ b _ => hcategory b, fun c _ => hcategory c⟩
  · intro c
    dsimp only
    split_ifs <;> omega
  · intro c _ bs h b hb
    rcases acute_hasEntry h with ⟨rfl, rfl⟩ | ⟨rfl, rfl⟩
    · obtain rfl := List.mem_singleton.mp hb
      decide
    · rcases List.mem_pair.mp hb with rfl | rfl <;> decide

end Acute

end LeoUTF8.OptionMapping
