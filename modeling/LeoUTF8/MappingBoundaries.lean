import LeoUTF8.CallProtocols
import LeoUTF8.MappingAbsorption

set_option autoImplicit false

/-!
# Mapping a text in pieces

A code point that stands for itself and takes part in no ordering and no composition separates
what stands on its sides, so a text may be mapped line by line.
-/
namespace LeoUTF8.MappingBoundaries
open HeapBlocks ScalarEncoding EngineTables EngineMap RunSorting StarterComposition
open CodePointMapping CompositionCorrectness DecompositionCorrectness TableAssumptions
open MapCorrectness OptionMapping OptionPass NewlineNormalization OptionMaps ReferenceMapping
open MappingAbsorption

structure Separator (t : Utf8procData) (options : Utf8procOption) (o : ℕ) : Prop where
  scalar : IsScalar o
  accepted : Accepted t ⟨options, o⟩
  stands : Stands t options o
  class_zero : combiningClass t o = 0
  not_first : ∀ b, composite t o b = none
  not_second : ∀ a, composite t a o = none

/-- A call without a NUL at the end of the text delivers `y` for the text `x`. -/
def Maps (rt : Runtime) (options : Utf8procOption) (customFunc : Option (ℤ → ℤ))
    (x y : List UInt8) : Prop :=
  ∃ heap n a after block, utf8procMapCustom rt heap x x.length options customFunc =
      .ok (n, some a, after) ∧ n = y.length ∧ after a = some block ∧ y <+: block

/-- Texts with the separator between them. -/
def joined (o : ℕ) (first : List UInt8) (rest : List (List UInt8)) : List UInt8 :=
  first ++ rest.flatMap fun l => encode o ++ l

theorem joined_cons (o : ℕ) (first l : List UInt8) (rest : List (List UInt8)) :
    joined o first (l :: rest) = first ++ (encode o ++ joined o l rest) := by
  rw [joined, joined, List.flatMap_cons, List.append_assoc]

/-- A well-formed text that is accepted, and what it is mapped to. -/
structure Mapped (t : Utf8procData) (options : Utf8procOption) (customFunc : Option (ℤ → ℤ))
    (l y : List UInt8) : Prop where
  wellFormed : (decode l).2 = []
  accepted : ∀ uc ∈ inputValues customFunc l, ¬ Refused t options uc
  bytes : y = mappedBytes t options customFunc l

/-- Code points that are accepted as they are. -/
def Passed (t : Utf8procData) (options : Utf8procOption) (customFunc : Option (ℤ → ℤ))
    (os : List ℕ) : Prop :=
  ∀ o ∈ os, IsScalar o ∧ Accepted t ⟨options, o⟩ ∧ customized customFunc o = o

section Texts

variable {t : Utf8procData} {options : Utf8procOption} {customFunc : Option (ℤ → ℤ)}

theorem inputValues_append {x : List UInt8} (hx : (decode x).2 = []) (l : List UInt8) :
    inputValues customFunc (x ++ l) = inputValues customFunc x ++ inputValues customFunc l ∧
      (decode (x ++ l)).2 = (decode l).2 := by
  obtain ⟨hscalar, hspec, _⟩ := decode_spec x
  rw [hx, List.append_nil] at hspec
  have hdecode : decode (x ++ l) = ((decode x).1 ++ (decode l).1, (decode l).2) := by
    conv_lhs => rw [hspec]
    exact decode_encodeAll_append hscalar l
  rw [inputValues, inputValues, inputValues, hdecode, List.map_append]
  exact ⟨rfl, rfl⟩

/-- The values of two texts with code points between them. -/
theorem Mapped.between {x y l z : List UInt8} (h : Mapped t options customFunc x y)
    (h' : Mapped t options customFunc l z) {os : List ℕ} (hos : Passed t options customFunc os) :
    inputValues customFunc (x ++ (encodeAll os ++ l)) =
        inputValues customFunc x ++ (int32s os ++ inputValues customFunc l) ∧
      (decode (x ++ (encodeAll os ++ l))).2 = [] ∧
      ∀ uc ∈ inputValues customFunc (x ++ (encodeAll os ++ l)), ¬ Refused t options uc := by
  have hdecode : decode (encodeAll os) = (os, []) := decode_encodeAll fun o ho => (hos o ho).1
  have hvalues : inputValues customFunc (encodeAll os) = int32s os := by
    rw [inputValues, hdecode]
    exact List.map_congr_left fun o ho => (hos o ho).2.2
  obtain ⟨hfirst, hrest⟩ := @inputValues_append customFunc x h.wellFormed (encodeAll os ++ l)
  obtain ⟨hsecond, hrest'⟩ :=
    @inputValues_append customFunc (encodeAll os) (congrArg Prod.snd hdecode) l
  rw [hsecond, hvalues] at hfirst
  refine ⟨hfirst, by rw [hrest, hrest', h'.wellFormed], ?_⟩
  intro uc huc
  rw [hfirst, List.mem_append, List.mem_append] at huc
  rcases huc with huc | huc | huc
  · exact h.accepted uc huc
  · obtain ⟨o, ho, rfl⟩ := List.mem_map.mp huc
    exact not_refused_of_accepted (hos o ho).2.1
  · exact h'.accepted uc huc

end Texts

section Pieces

variable {t : Utf8procData} (tables : OptionTables t) {options : Utf8procOption}
  (flat : Flat options) (hnewlines : ¬ Newlines options) {customFunc : Option (ℤ → ℤ)}

include tables flat hnewlines in
theorem mappedBytes_codes {l : List UInt8}
    (accepted : ∀ uc ∈ inputValues customFunc l, ¬ Refused t options uc) :
    mappedBytes t options customFunc l = encodeAll (finished t options
      (((inputValues customFunc l).map Int.toNat).flatMap (mapping t options))) := by
  apply (mappedBytes_flat flat tables accepted hnewlines (fullMapping_codes flat tables _)).2
  intro c hc
  obtain ⟨uc, huc, rfl⟩ := List.mem_map.mp hc
  exact (accepted_of_not_refused (accepted uc huc)).1.1

/-- Ordering does not look past a starter. -/
theorem ordered_append {o : ℕ} (hclass : combiningClass t o = 0) (xs ys : List ℕ) :
    ordered t options (xs ++ o :: ys) = ordered t options xs ++ o :: ordered t options ys := by
  unfold ordered
  split_ifs
  · rw [sortRuns_append_barrier _ hclass.le]
  · rfl

variable {o : ℕ} (separator : Separator t options o)
include separator

/-- Ordering and composition do not look past a separator. -/
theorem finished_append (xs ys : List ℕ) :
    finished t options (xs ++ o :: ys) = finished t options xs ++ o :: finished t options ys := by
  unfold finished
  split_ifs
  · rw [ordered_append separator.class_zero, composition, compose_boundary _ _ separator.class_zero
      separator.not_first separator.not_second]
    rfl
  · exact ordered_append separator.class_zero xs ys

variable (hcustom : customized customFunc o = o)
include tables flat hnewlines hcustom

/-- Two texts with the separator between them. -/
theorem Mapped.join {x y l z : List UInt8} (h : Mapped t options customFunc x y)
    (h' : Mapped t options customFunc l z) :
    Mapped t options customFunc (x ++ (encode o ++ l)) (y ++ (encode o ++ z)) := by
  have hpassed : Passed t options customFunc [o] := by
    intro c hc
    rw [List.mem_singleton.mp hc]
    exact ⟨separator.scalar, separator.accepted, hcustom⟩
  have hencode : encodeAll [o] = encode o := by
    rw [encodeAll_cons, encodeAll_nil, List.append_nil]
  obtain ⟨hvalues, hrest, accepted⟩ := h.between h' hpassed
  rw [hencode] at hvalues hrest accepted
  refine ⟨hrest, accepted, ?_⟩
  have hself : mapping t options o = [o] :=
    mapping_stands tables flat separator.scalar.lt separator.stands
  rw [h.bytes, h'.bytes, mappedBytes_codes tables flat hnewlines accepted,
    mappedBytes_codes tables flat hnewlines h.accepted,
    mappedBytes_codes tables flat hnewlines h'.accepted, hvalues, int32s_cons, int32s_nil,
    List.map_append, List.flatMap_append, List.singleton_append, List.map_cons, List.flatMap_cons,
    Int.toNat_natCast, hself, List.singleton_append, finished_append separator, encodeAll_append,
    encodeAll_cons]

theorem Mapped.joined {first : List UInt8 × List UInt8} {rest : List (List UInt8 × List UInt8)}
    (h : ∀ p ∈ first :: rest, Mapped t options customFunc p.1 p.2) :
    Mapped t options customFunc (joined o first.1 (rest.map Prod.fst))
      (joined o first.2 (rest.map Prod.snd)) := by
  induction rest generalizing first with
  | nil =>
    have hfirst := h first List.mem_cons_self
    simpa [MappingBoundaries.joined] using hfirst
  | cons p rest ih =>
    rw [List.map_cons, List.map_cons, joined_cons, joined_cons]
    apply Mapped.join tables flat hnewlines separator hcustom (h first List.mem_cons_self)
    exact ih fun q hq => h q (List.mem_cons_of_mem _ hq)

end Pieces

section Calls

variable {rt : Runtime} (tables : OptionTables rt.data) {options : Utf8procOption}
  (hnullterm : hasOption options utf8procNullterm = false) {customFunc : Option (ℤ → ℤ)}
include hnullterm

theorem whole_text (l : List UInt8) :
    Readable options l l.length ∧ inputText options l l.length = l := by
  constructor
  · unfold Readable
    rw [if_neg (by simp [hnullterm])]
    exact Nat.le_refl l.length
  · unfold inputText
    rw [if_neg (by simp [hnullterm])]
    exact List.take_length

include tables

/-- What a call delivers for one text. -/
theorem mapped_of_maps {x y : List UInt8} (h : Maps rt options customFunc x y) :
    ¬ InvalidOptions options ∧ Mapped rt.data options customFunc x y := by
  obtain ⟨heap, n, a, after, block, hcall, hn, hblock, hy⟩ := h
  obtain ⟨readable, hinput⟩ := whole_text hnullterm x
  obtain ⟨block', hlength, hdelivered, herror⟩ := utf8procMapCustom_delivers tables readable hcall
  rw [hinput] at hlength hdelivered herror
  obtain ⟨hoptions, accepted, _, hrest⟩ := accepted_of_passError herror
  have hsame : block' = block := by
    have hlive : after a = some block' := hdelivered.owned.live
    rw [hblock] at hlive
    exact (Option.some.inj hlive).symm
  subst hsame
  refine ⟨hoptions, hrest, accepted, ?_⟩
  have hwhole : mappedBytes rt.data options customFunc x <+: block' :=
    (List.prefix_append _ _).trans hdelivered.holds
  apply List.IsPrefix.eq_of_length (List.prefix_of_prefix_length_le hy hwhole _)
  · omega
  · omega

/-- A call for a text that can be mapped. -/
theorem call_of_mapped (hoptions : ¬ InvalidOptions options) {text result : List UInt8}
    (h : Mapped rt.data options customFunc text result) (heap : Heap) :
    ∃ r, utf8procMapCustom rt heap text text.length options customFunc = .ok r ∧
      ((rt.platform.codepointMax < cellCount rt.data options customFunc text ∧
          r = (utf8procErrorOverflow, none, heap)) ∨
        (rt.allocator.malloc heap (4 * cellCount rt.data options customFunc text + 1) = none ∧
          r = (utf8procErrorNomem, none, heap)) ∨
        ∃ a after block, r = ((result.length : ℤ), some a, after) ∧ Owned heap after a block ∧
          (result ++ [0]) <+: block) := by
  obtain ⟨readable, hinput⟩ := whole_text hnullterm text
  obtain ⟨⟨n, ptr, after⟩, hr, houtcome⟩ :=
    utf8procMapCustom_outcome tables readable heap customFunc
  refine ⟨_, hr, ?_⟩
  rw [hinput, OptionOutcome, passError_of_accepted h.accepted h.wellFormed, if_neg hoptions,
    ← h.bytes] at houtcome
  by_cases hover : rt.platform.codepointMax < cellCount rt.data options customFunc text
  · rw [if_pos hover] at houtcome
    exact Or.inl ⟨hover, houtcome⟩
  · rw [if_neg hover] at houtcome
    right
    cases hmalloc : rt.allocator.malloc heap
        (4 * cellCount rt.data options customFunc text + 1) with
    | none =>
      rw [hmalloc] at houtcome
      exact Or.inl ⟨rfl, houtcome⟩
    | some _ =>
      rw [hmalloc] at houtcome
      obtain ⟨a, block, hn, hptr, hdelivered⟩ := houtcome
      right
      exact ⟨a, after, block, Prod.ext hn (Prod.ext hptr rfl), hdelivered.owned,
        hdelivered.holds⟩

end Calls

/-- A text may be mapped in pieces: where a call delivers something for each of several texts, the
call for the texts with a separator between them delivers the results with the separator between
them, unless they are too long together or memory runs out. -/
theorem mapped_in_pieces {rt : Runtime} (tables : OptionTables rt.data) {options : Utf8procOption}
    (flat : Flat options) (hnewlines : ¬ Newlines options)
    (hnullterm : hasOption options utf8procNullterm = false) {customFunc : Option (ℤ → ℤ)} {o : ℕ}
    (separator : Separator rt.data options o) (hcustom : customized customFunc o = o)
    {first : List UInt8 × List UInt8} {rest : List (List UInt8 × List UInt8)}
    (h : ∀ p ∈ first :: rest, Maps rt options customFunc p.1 p.2) (heap : Heap)
    {text result : List UInt8} (htext : text = joined o first.1 (rest.map Prod.fst))
    (hresult : result = joined o first.2 (rest.map Prod.snd)) :
    ∃ r, utf8procMapCustom rt heap text text.length options customFunc = .ok r ∧
      ((rt.platform.codepointMax < cellCount rt.data options customFunc text ∧
          r = (utf8procErrorOverflow, none, heap)) ∨
        (rt.allocator.malloc heap (4 * cellCount rt.data options customFunc text + 1) = none ∧
          r = (utf8procErrorNomem, none, heap)) ∨
        ∃ a after block, r = ((result.length : ℤ), some a, after) ∧ Owned heap after a block ∧
          (result ++ [0]) <+: block) := by
  have hpiece : ∀ p ∈ first :: rest,
      ¬ InvalidOptions options ∧ Mapped rt.data options customFunc p.1 p.2 :=
    fun p hp => mapped_of_maps tables hnullterm (h p hp)
  apply call_of_mapped tables hnullterm (hpiece first List.mem_cons_self).1
  rw [htext, hresult]
  exact Mapped.joined tables flat hnewlines separator hcustom fun p hp => (hpiece p hp).2

section Acute

theorem acute_separator : Separator acuteData foldedCompose 0x0A where
  scalar := by decide
  accepted := by
    refine ⟨by decide, fun h => ?_⟩
    exact absurd h.2.1 (by decide)
  stands := acute_stands (by decide) (by decide) (by decide) (by decide) (by decide)
  class_zero := by
    rw [acute_combiningClass]
    rfl
  not_first := by
    intro b
    have hangul : hangulComposite 0x0A b = none := by
      rw [hangulComposite, if_neg (by omega), if_neg fun h => absurd h.1 (by decide)]
    rw [composite, hangul, Option.none_or, Option.eq_none_iff_forall_ne_some]
    intro p h
    exact absurd (acute_listed.mp (tableComposite_listed h)).1 (by decide)
  not_second := by
    intro a
    have hangul : hangulComposite a 0x0A = none := by
      rw [hangulComposite, if_neg (by omega), if_neg (by omega)]
    rw [composite, hangul, Option.none_or, Option.eq_none_iff_forall_ne_some]
    intro p h
    exact absurd (acute_listed.mp (tableComposite_listed h)).2.1 (by decide)

theorem acute_maps {options : Utf8procOption}
    (hnullterm : hasOption options utf8procNullterm = false) {x y : List UInt8}
    (herror : passError smallRuntime.platform acuteData options none x = none)
    (hmalloc : (smallRuntime.allocator.malloc (fun _ => none)
      (4 * cellCount acuteData options none x + 1)).isSome)
    (hy : mappedBytes acuteData options none x = y) : Maps smallRuntime options none x y := by
  have tables : OptionTables smallRuntime.data := acute_optionTables
  obtain ⟨readable, hinput⟩ := whole_text hnullterm x
  obtain ⟨n, a, after, h⟩ := utf8procMapCustom_succeeds tables readable (fun _ => none) none
    (by rw [hinput]; exact herror) (by rw [hinput]; exact hmalloc)
  obtain ⟨block, hn, hdelivered, _⟩ := utf8procMapCustom_delivers tables readable h
  rw [hinput] at hn hdelivered
  subst hy
  exact ⟨_, n, a, after, block, h, hn, hdelivered.owned.live,
    (List.prefix_append _ _).trans hdelivered.holds⟩

theorem mapped_in_pieces_acute :
    ∃ (a : Address) (after : Heap) (block : List UInt8),
      utf8procMapCustom smallRuntime (fun _ => none) [0x65, 0xCC, 0x81, 0x0A, 0x41] 5
        foldedCompose none = .ok (4, some a, after) ∧ [0xC3, 0xA9, 0x0A, 0x61, 0] <+: block := by
  have tables : OptionTables smallRuntime.data := acute_optionTables
  have hpieces : ∀ p ∈ [(([0x65, 0xCC, 0x81] : List UInt8), ([0xC3, 0xA9] : List UInt8)),
      ([0x41], [0x61])], Maps smallRuntime foldedCompose none p.1 p.2 := by
    intro p hp
    rw [List.mem_cons, List.mem_singleton] at hp
    rcases hp with rfl | rfl
    all_goals
      apply acute_maps (by decide)
      all_goals decide +kernel
  have htext : [0x65, 0xCC, 0x81, 0x0A, 0x41] = joined 0x0A [0x65, 0xCC, 0x81] [[0x41]] := by
    decide +kernel
  have hresult : [0xC3, 0xA9, 0x0A, 0x61] = joined 0x0A [0xC3, 0xA9] [[0x61]] := by
    decide +kernel
  obtain ⟨r, hr, houtcome⟩ := mapped_in_pieces tables ⟨by decide, by decide⟩ (by decide)
    (by decide) acute_separator rfl hpieces (fun _ => none) htext hresult
  rcases houtcome with ⟨hover, _⟩ | ⟨hmalloc, _⟩ | ⟨a, after, block, rfl, _, hblock⟩
  · exact absurd hover (by decide +kernel)
  · exact absurd (congrArg Option.isSome hmalloc) (by decide +kernel)
  · exact ⟨a, after, block, hr, hblock⟩

end Acute

end LeoUTF8.MappingBoundaries
