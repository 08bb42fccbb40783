import LeoUTF8.GraphemeSegmentation
import LeoUTF8.NeutralOptions

set_option autoImplicit false

/-!
# Grapheme clusters in texts

The answers of the stateful function for a text, and the marks that `UTF8PROC_CHARBOUND` puts
into the result of a mapping, against the rules of grapheme clusters.
-/
namespace LeoUTF8.GraphemeClusters
open HeapBlocks ScalarEncoding RunSorting EngineTables EngineGraphemes EngineDecompose EngineCodec
open EngineMap EngineInterface CodePointMapping DecompositionCorrectness TableAssumptions
open MapCorrectness OptionMapping OptionPass NewlineNormalization CellReordering OptionEncoding
open OptionMaps ReferenceMapping NeutralOptions GraphemeRules GraphemeSegmentation

section Marks

variable {t : Utf8procData} {kind : ℕ → Kind} (classes : GraphemeClasses t kind)

/-- The cells of clusters that are given last first: a mark before each, and `f` of its text. -/
def clusterCells (f : List ℕ → List ℕ) (gs : List (List ℕ)) : List ℤ :=
  gs.reverse.flatMap fun g => -1 :: int32s (f g.reverse)

theorem clusterCells_cons (f : List ℕ → List ℕ) (g : List ℕ) (gs : List (List ℕ)) :
    clusterCells f (g :: gs) = clusterCells f gs ++ -1 :: int32s (f g.reverse) := by
  simp [clusterCells]

include classes

theorem markOne_step {before : List ℕ} {i : Item}
    (hcharbound : hasOption i.options utf8procCharbound = true)
    (hbefore : ∀ c ∈ before, c < 0x110000) (hi : i.code < 0x110000) :
    (Boundary (before.map kind) (kind i.code) →
      (markOne t (stateOf (before.map kind)) i).1 = [-1, (i.code : ℤ)]) ∧
    (¬ Boundary (before.map kind) (kind i.code) →
      (markOne t (stateOf (before.map kind)) i).1 = [(i.code : ℤ)]) ∧
    (markOne t (stateOf (before.map kind)) i).2 = stateOf ((i.code :: before).map kind) := by
  have hvisible : ∀ k ∈ before.map kind, Visible k := by
    intro k hk
    obtain ⟨c, hc, rfl⟩ := List.mem_map.mp hk
    exact classes.visible c (hbefore c hc)
  have hcomponents : (if stateOf (before.map kind) = 0 then 0
        else stateOf (before.map kind) &&& 0xff) = boundState ((before.map kind).map Kind.bound) ∧
      (if stateOf (before.map kind) = 0 then
        if 0 = indicConjunctBreakConsonant then 0 else indicConjunctBreakNone
      else stateOf (before.map kind) >>> 8) =
        conjunctState ((before.map kind).map Kind.conjunct) := by
    cases before with
    | nil => exact ⟨rfl, rfl⟩
    | cons c before =>
      have hne : stateOf ((c :: before).map kind) ≠ 0 := stateOf_ne_zero _ _
      rw [if_neg hne, if_neg hne]
      exact stateOf_split _
  obtain ⟨hpermitted, hnext⟩ := graphemeBreakExtended_step hcomponents.1 hcomponents.2 hvisible
    (classes.visible i.code hi)
  rw [← classes.bound i.code hi, ← classes.conjunct i.code hi] at hpermitted hnext
  rw [markOne, if_pos hcharbound]
  refine ⟨fun h => if_pos (hpermitted.mpr h), fun h => if_neg fun h' => h (hpermitted.mp h'), hnext⟩

theorem marked_clusters {is : List Item} (his : ∀ i ∈ is, i.code < 0x110000 ∧
      hasOption i.options utf8procCharbound = true) :
    marked t boundclassStart is = clusterCells id (clusters kind (is.map Item.code).reverse) ∧
      markState t boundclassStart is = stateOf ((is.map Item.code).reverse.map kind) := by
  induction is using List.reverseRecOn with
  | nil => exact ⟨rfl, rfl⟩
  | append_singleton is i ih =>
    obtain ⟨hcells, hstate⟩ := ih fun j hj => his j (List.mem_append_left [i] hj)
    obtain ⟨hi, hcharbound⟩ := his i (by simp)
    have hbefore : ∀ c ∈ (is.map Item.code).reverse, c < 0x110000 := by
      intro c hc
      obtain ⟨j, hj, rfl⟩ := List.mem_map.mp (List.mem_reverse.mp hc)
      exact (his j (List.mem_append_left [i] hj)).1
    obtain ⟨hboundary, hjoined, hnext⟩ := markOne_step classes hcharbound hbefore hi
    rw [List.map_append, List.reverse_append, List.map_singleton, List.reverse_singleton,
      List.singleton_append, marked_append, marked_singleton, markState_append, hcells, hstate]
    refine ⟨?_, hnext⟩
    by_cases h : Boundary ((is.map Item.code).reverse.map kind) (kind i.code)
    · rw [hboundary h, clusters_boundary h, clusterCells_cons]
      rfl
    · obtain ⟨g, gs, hgs, hclusters⟩ := clusters_joined h
      rw [hjoined h, hclusters, hgs, clusterCells_cons, clusterCells_cons]
      simp

end Marks

/-- Reordering does not move a code point over a mark. -/
theorem sortRuns_clusterCells (t : Utf8procData) (gs : List (List ℕ)) :
    sortRuns (cellClass t) (clusterCells id gs) =
      clusterCells (sortRuns (combiningClass t)) gs := by
  have hmark : cellClass t (-1) ≤ 0 := le_refl 0
  induction gs with
  | nil => rfl
  | cons g gs ih =>
    rw [clusterCells_cons, clusterCells_cons, sortRuns_append_barrier _ hmark, ih, id_eq,
      sortRuns_int32s]

theorem encodeCells_clusterCells {options : Utf8procOption}
    (hcharbound : hasOption options utf8procCharbound = true) {f : List ℕ → List ℕ}
    {gs : List (List ℕ)} (hlt : ∀ g ∈ gs, ∀ c ∈ f g.reverse, c < 0x110000) :
    encodeCells options (clusterCells f gs) =
      gs.reverse.flatMap fun g => 0xFF :: encodeAll (f g.reverse) := by
  have hmark : encodeCell options (-1) = [0xFF] := by
    rw [encodeCell, if_pos hcharbound]
    rfl
  induction gs with
  | nil => rfl
  | cons g gs ih =>
    obtain ⟨hg, hgs⟩ := List.forall_mem_cons.mp hlt
    have hcells := encodeCells_int32s options hg
    have hrest := ih hgs
    rw [encodeCells] at hcells hrest
    rw [clusterCells_cons, encodeCells, List.flatMap_append, List.flatMap_cons, hmark, hcells,
      hrest, List.reverse_cons, List.flatMap_append, List.flatMap_singleton]
    rfl

/-- No code point of the mapping is a syllable that is decomposed into jamo. -/
def SyllableFree (t : Utf8procData) (options : Utf8procOption) (us : List ℤ) : Prop :=
  Canonical options → (∀ uc ∈ us, ¬ IsHangulSyllable uc.toNat) ∧
    ∀ c < 0x110000, ∀ bs, HasEntry t c bs → ∀ b ∈ bs, ¬ IsHangulSyllable b

section Texts

variable {t : Utf8procData} {options : Utf8procOption} {us : List ℤ}

/-- Every item keeps the option, since no syllable is decomposed. -/
theorem items_charbound (tables : OptionTables t)
    (hcharbound : hasOption options utf8procCharbound = true)
    (accepted : ∀ uc ∈ us, ¬ Refused t options uc) (hfree : SyllableFree t options us) :
    ∀ i ∈ allItems t options us, i.code < 0x110000 ∧
      hasOption i.options utf8procCharbound = true := by
  intro i hi
  obtain ⟨uc, huc, hi⟩ := List.mem_flatMap.mp hi
  have haccepted := accepted_of_not_refused (accepted uc huc)
  refine ⟨items_lt tables haccepted.1.1 i hi, ?_⟩
  refine RecursiveExpansion.expand_forall (itemEntry t) (itemTerminal t)
    (p := fun i => i.code < 0x110000 ∧ hasOption i.options utf8procCharbound = true ∧
      (Canonical i.options ↔ Canonical options) ∧
      (Canonical options → ¬ IsHangulSyllable i.code))
    (q := fun i => hasOption i.options utf8procCharbound = true)
    ?_ ?_ (item_isSome tables haccepted.1.1)
    ⟨haccepted.1.1, hcharbound, Iff.rfl, fun h => (hfree h).1 uc huc⟩ i hi
  · rintro i js ⟨hi, hbound, hcanonical, _⟩ h j hj
    have hlt := (accepted_entry tables hi h j hj).1
    rcases itemEntry_cases h with ⟨bs, hbs, rfl⟩ | ⟨_, a, ha, rfl⟩
    · obtain ⟨b, hb, rfl⟩ := List.mem_map.mp hj
      exact ⟨hlt, hbound, hcanonical, fun h => (hfree h).2 _ hi bs hbs b hb⟩
    · obtain rfl := List.mem_singleton.mp hj
      have hsmall := lumpTargets_lt a ha
      refine ⟨hlt, ?_, ?_, fun _ hs => ?_⟩
      · exact (hasOption_kept (by decide) i.options).trans hbound
      · rw [← hcanonical, Canonical, ← without, hasOption_kept (by decide)]
        rfl
      · have := hs.1
        change 0xAC00 ≤ a at this
        omega
  · rintro i ⟨_, hbound, hcanonical, hs⟩ _ j hj
    unfold itemTerminal at hj
    split_ifs at hj with hsyllable
    · exact absurd hsyllable.2 (hs (hcanonical.mp hsyllable.1))
    · cases hj
    · rwa [List.mem_singleton.mp hj]

variable {customFunc : Option (ℤ → ℤ)} {l : List UInt8} (tables : OptionTables t)
  (hcharbound : hasOption options utf8procCharbound = true)
  (hcompose : hasOption options utf8procCompose = false) (hnewlines : ¬ Newlines options)
  (accepted : ∀ uc ∈ inputValues customFunc l, ¬ Refused t options uc)

/-- The code points that a text is mapped to, before they are reordered. -/
def mappedText (t : Utf8procData) (options : Utf8procOption) (customFunc : Option (ℤ → ℤ))
    (l : List UInt8) : List ℕ :=
  (allItems t options (inputValues customFunc l)).map Item.code

/-- The grapheme clusters of a text, each behind the byte 0xFF. Code points are reordered within
a cluster. -/
noncomputable def markedClusters (t : Utf8procData) (kind : ℕ → Kind) (options : Utf8procOption)
    (text : List ℕ) : List UInt8 :=
  (clusters kind text.reverse).reverse.flatMap fun g =>
    0xFF :: encodeAll (ordered t options g.reverse)

include tables accepted

/-- Without lumping the text is the full expansion of the input, marks or no marks. -/
theorem mappedText_full (hlump : hasOption options utf8procLump = false) :
    FullMapping t (without utf8procCharbound options)
      ((inputValues customFunc l).map Int.toNat) (mappedText t options customFunc l) := by
  have flat : Flat (without utf8procCharbound options) :=
    ⟨(hasOption_kept (by decide) options).trans hlump, hasOption_without _ _⟩
  have haccepted : ∀ uc ∈ inputValues customFunc l,
      ¬ Refused t (without utf8procCharbound options) uc := by
    simpa only [refused_without neutral_charbound] using accepted
  have hcodes : ((allItems t options (inputValues customFunc l)).map
      (itemWithout utf8procCharbound)).map Item.code = mappedText t options customFunc l :=
    List.map_map
  rw [← hcodes, ← allItems_without neutral_charbound tables accepted]
  exact fullMapping_items flat tables haccepted

include hcompose hnewlines

include hcharbound in
theorem mappedBytes_marked {kind : ℕ → Kind} (classes : GraphemeClasses t kind)
    (hfree : SyllableFree t options (inputValues customFunc l)) :
    mappedBytes t options customFunc l =
      markedClusters t kind options (mappedText t options customFunc l) := by
  have hitems := items_charbound tables hcharbound accepted hfree
  have hcells : cellsOf t options (inputValues customFunc l) = clusterCells id _ :=
    (marked_clusters classes hitems).1
  have hordered : decomposedCells t options (inputValues customFunc l) = clusterCells
      (ordered t options) (clusters kind (mappedText t options customFunc l).reverse) := by
    unfold decomposedCells ordered
    rw [hcells]
    split_ifs
    · exact sortRuns_clusterCells t _
    · rfl
  rw [mappedBytes, mappedCells, hordered, normalizedCells, if_neg hnewlines,
    if_neg (by simp [hcompose])]
  apply encodeCells_clusterCells hcharbound
  intro g hg
  apply ordered_lt
  intro c hc
  have hflatten : (clusters kind (mappedText t options customFunc l).reverse).flatten = _ :=
    clusters_flatten _
  have htext : c ∈ (mappedText t options customFunc l).reverse := by
    rw [← hflatten]
    exact List.mem_flatten_of_mem hg (List.mem_reverse.mp hc)
  obtain ⟨i, hi, rfl⟩ := List.mem_map.mp (List.mem_reverse.mp htext)
  exact (hitems i hi).1

theorem mappedBytes_unmarked :
    mappedBytes t (without utf8procCharbound options) customFunc l =
      encodeAll (ordered t options (mappedText t options customFunc l)) := by
  have hitems := allItems_without neutral_charbound tables accepted
  have hplain : ∀ i ∈ allItems t (without utf8procCharbound options) (inputValues customFunc l),
      hasOption i.options utf8procCharbound = false := by
    intro i hi
    rw [hitems] at hi
    obtain ⟨j, _, rfl⟩ := List.mem_map.mp hi
    exact hasOption_without _ _
  have hcells : cellsOf t (without utf8procCharbound options) (inputValues customFunc l) =
      int32s (mappedText t options customFunc l) := by
    rw [cellsOf, (marked_plain t boundclassStart hplain).1, hitems, List.map_map, mappedText,
      int32s, List.map_map]
    rfl
  have hlt : ∀ c ∈ mappedText t options customFunc l, c < 0x110000 := by
    intro c hc
    obtain ⟨i, hi, rfl⟩ := List.mem_map.mp hc
    obtain ⟨uc, huc, hi⟩ := List.mem_flatMap.mp hi
    exact items_lt tables (accepted_of_not_refused (accepted uc huc)).1.1 i hi
  have hnewlines' : ¬ Newlines (without utf8procCharbound options) := by
    rwa [Newlines, hasOption_kept (by decide)]
  have hcompose' : hasOption (without utf8procCharbound options) utf8procCompose = false :=
    (hasOption_kept (by decide) options).trans hcompose
  rw [mappedBytes_of_cells hnewlines' hlt hcells, finished, if_neg (by simp [hcompose']), ordered,
    ordered]
  simp only [canonical_without neutral_charbound]

end Texts

/-- For the first pair of a text the stateful function looks at nothing more. -/
theorem graphemeBreakExtended_first (lbc tbc licb ticb : ℕ) :
    (graphemeBreakExtended lbc tbc licb ticb 0).1 = graphemeBreakSimple lbc tbc := by
  have hlinker : (if licb = indicConjunctBreakConsonant then licb else indicConjunctBreakNone) ≠
      indicConjunctBreakLinker := by
    split_ifs with h
    · rw [h]
      decide
    · decide
  unfold graphemeBreakExtended
  simp [hlinker]

/-- The answers of the stateful function for the pairs of a text. The first state is 0. -/
def breaksOf (t : Utf8procData) : List ℕ → List Bool
  | [] => []
  | c :: text => graphemeBreaks t 0 c (text.map Nat.cast)

/-- A caller that keeps one state is told of a boundary exactly where the rules have one, and
the function without a state tells of the boundaries in texts of two characters. -/
theorem grapheme_breaks_rules (t : Utf8procData) (kind : ℕ → Kind)
    (classes : GraphemeClasses t kind) :
    (∀ (pre post : List ℕ) (a b : ℕ), (∀ c ∈ pre ++ a :: b :: post, c < 0x110000) →
      ∃ permitted, (breaksOf t (pre ++ a :: b :: post))[pre.length]? = some permitted ∧
        (permitted = true ↔ Boundary ((a :: pre.reverse).map kind) (kind b))) ∧
    ∀ a b : ℕ, a < 0x110000 → b < 0x110000 →
      (utf8procGraphemeBreak t a b = true ↔ Boundary [kind a] (kind b)) := by
  constructor
  · intro pre post a b hcodes
    obtain ⟨c, text, htext⟩ : ∃ c text, pre ++ a :: b :: post = c :: text := by
      cases pre <;> exact ⟨_, _, rfl⟩
    obtain ⟨permitted, hanswer, hboundary⟩ := @graphemeBreaks_getElem t kind classes 0 c [] pre post
      a b (by simp) hcodes ⟨text, htext⟩ (Or.inr ⟨rfl, rfl⟩)
    rw [htext] at hanswer ⊢
    exact ⟨permitted, hanswer, by simpa using hboundary⟩
  · intro a b ha hb
    obtain ⟨permitted, hcall, hboundary⟩ :=
      @utf8procGraphemeBreakStateful_step t kind classes 0 a b [] (by simp) ha hb
        (Or.inr ⟨rfl, rfl⟩)
    have hfirst := congrArg Prod.fst hcall
    simp only [utf8procGraphemeBreakStateful, graphemeBreakExtended_first] at hfirst
    rw [utf8procGraphemeBreak, utf8procGraphemeBreakStateful]
    simp only [hfirst, hboundary]
    rfl

/-- A result with `UTF8PROC_CHARBOUND` is the text that the input is mapped to, cut into its
grapheme clusters, with the byte 0xFF before each; without the option it is that text. -/
theorem charbound_marks_clusters {rt : Runtime} (tables : OptionTables rt.data)
    {kind : ℕ → Kind} (classes : GraphemeClasses rt.data kind) {options : Utf8procOption}
    (hcharbound : hasOption options utf8procCharbound = true)
    (hcompose : hasOption options utf8procCompose = false) (hnewlines : ¬ Newlines options)
    {mem : List UInt8} {strlen : ℤ} (readable : Readable options mem strlen)
    {customFunc : Option (ℤ → ℤ)}
    (hfree : SyllableFree rt.data options (inputValues customFunc (inputText options mem strlen)))
    {text : List ℕ} (htext : text = mappedText rt.data options customFunc
      (inputText options mem strlen))
    {heap after : Heap} {n : ℤ} {a : Address}
    (h : utf8procMapCustom rt heap mem strlen options customFunc = .ok (n, some a, after)) :
    WellFormed (inputText options mem strlen) ∧
      (hasOption options utf8procLump = false →
        FullMapping rt.data (without utf8procCharbound options)
          ((inputValues customFunc (inputText options mem strlen)).map Int.toNat) text) ∧
      n = (markedClusters rt.data kind options text).length ∧
      (∃ block, Owned heap after a block ∧
        (markedClusters rt.data kind options text ++ [0]) <+: block) ∧
      ∀ heap' n' a' after', utf8procMapCustom rt heap' mem strlen
          (without utf8procCharbound options) customFunc = .ok (n', some a', after') →
        n' = (encodeAll (ordered rt.data options text)).length ∧
        ∃ block', Owned heap' after' a' block' ∧
          (encodeAll (ordered rt.data options text) ++ [0]) <+: block' := by
  obtain ⟨block, hn, hdelivered, herror⟩ := utf8procMapCustom_delivers tables readable h
  obtain ⟨_, accepted, _, hrest⟩ := accepted_of_passError herror
  rw [mappedBytes_marked tables hcharbound hcompose hnewlines accepted classes hfree, ← htext]
    at hn hdelivered
  refine ⟨wellFormed_iff_decode.mpr hrest,
    fun hlump => htext ▸ mappedText_full tables accepted hlump, hn,
    ⟨block, hdelivered.owned, hdelivered.holds⟩, ?_⟩
  intro heap' n' a' after' h'
  have hnull : hasOption (without utf8procCharbound options) utf8procNullterm =
      hasOption options utf8procNullterm := hasOption_kept (by decide) options
  have hreadable' : Readable (without utf8procCharbound options) mem strlen := by
    rwa [Readable, hnull]
  have hinput : inputText (without utf8procCharbound options) mem strlen =
      inputText options mem strlen := by
    rw [inputText, hnull]
    rfl
  obtain ⟨block', hn', hdelivered', _⟩ := utf8procMapCustom_delivers tables hreadable' h'
  rw [hinput, mappedBytes_unmarked tables hcompose hnewlines accepted, ← htext] at hn' hdelivered'
  exact ⟨hn', block', hdelivered'.owned, hdelivered'.holds⟩

section Sample

/-- A table without mappings, with classes for an accent, regional indicators, a pictograph and
a joiner. -/
def sampleKind (c : ℕ) : Kind where
  bound :=
    if c = 0x0D then .cr
    else if c = 0x0A then .lf
    else if c = 0x301 then .extend
    else if c = 0x200D then .zwj
    else if c = 0x1F468 then .extendedPictographic
    else if 0x1F1E6 ≤ c ∧ c ≤ 0x1F1FF then .regionalIndicator
    else .other
  conjunct := if c = 0x301 ∨ c = 0x200D then .extend else .none

def sampleProperty (c : ℕ) : Utf8procProperty :=
  { acuteProperty c with
    decompSeqindex := uint16Max
    casefoldSeqindex := uint16Max
    boundclass := boundclassOf (sampleKind c).bound
    indicConjunctBreak := conjunctOf (sampleKind c).conjunct }

def sampleData : Utf8procData := { acuteData with properties := sampleProperty }

theorem sample_property (c : ℕ) : sampleData.property c = sampleProperty c := by
  have hlow : c &&& 0xFF = c % 256 := Nat.and_two_pow_sub_one_eq_mod c 8
  have hc : 256 * (c >>> 8) + (c &&& 0xFF) = c := by
    rw [hlow, Nat.shiftRight_eq_div_pow]
    omega
  change sampleProperty (256 * (c >>> 8) + (c &&& 0xFF)) = _
  rw [hc]

theorem sample_classes : GraphemeClasses sampleData sampleKind := by
  constructor
  · intro c _
    rw [sample_property]
    rfl
  · intro c _
    rw [sample_property]
    rfl
  · intro c _ hconjunct
    have hc : c = 0x301 ∨ c = 0x200D := by
      by_contra h
      exact hconjunct (if_neg h)
    rcases hc with rfl | rfl <;> decide

theorem sample_optionTables : OptionTables sampleData := by
  have hnone {c : ℕ} {bs : List ℕ} : ¬ HasEntry sampleData c bs := by
    unfold HasEntry foldEntry mappingEntry
    rw [sample_property]
    simp [sampleProperty]
  have hcategory (c : ℕ) : (sampleData.property c).category ≠ .cn := by
    rw [sample_property]
    exact Category.noConfusion
  exact ⟨⟨fun _ => 0, fun _ => by norm_num, fun _ _ _ h => absurd h hnone⟩,
    fun _ _ _ h => absurd h hnone, fun c _ => hcategory c⟩

def sampleRuntime : Runtime := { smallRuntime with data := sampleData }

/-- A flag, half of another, and a letter with its accent. -/
def sampleText : List ℕ := [0x1F1E6, 0x1F1E7, 0x1F1E8, 0x65, 0x301]

theorem grapheme_breaks_rules_sample :
    ∃ permitted, (breaksOf sampleData [0x1F1E6, 0x1F1E7, 0x1F1E8])[1]? = some permitted ∧
      (permitted = true ↔
        Boundary [sampleKind 0x1F1E7, sampleKind 0x1F1E6] (sampleKind 0x1F1E8)) :=
  (grapheme_breaks_rules sampleData sampleKind sample_classes).1 [0x1F1E6] [] 0x1F1E7 0x1F1E8
    (by decide)

theorem sample_clusters : clusters sampleKind sampleText.reverse =
    [[0x301, 0x65], [0x1F1E8], [0x1F1E7, 0x1F1E6]] := by
  have hfirst : Boundary (([] : List ℕ).map sampleKind) (sampleKind 0x1F1E6) := trivial
  have hflag : ¬ Boundary ([0x1F1E6].map sampleKind) (sampleKind 0x1F1E7) := by
    simp [Boundary, GraphemeRules.Joined, sampleKind, IsControl, FlagPair, List.takeWhile]
  have hhalf : Boundary ([0x1F1E7, 0x1F1E6].map sampleKind) (sampleKind 0x1F1E8) := by
    simp [Boundary, GraphemeRules.Joined, sampleKind, IsControl, Syllable, Attached, Conjunct,
      PictographSequence, FlagPair, List.takeWhile]
  have hletter : Boundary ([0x1F1E8, 0x1F1E7, 0x1F1E6].map sampleKind)
      (sampleKind 0x65) := by
    simp [Boundary, GraphemeRules.Joined, sampleKind, IsControl, Syllable, Attached, Conjunct,
      PictographSequence, FlagPair]
  have haccent : ¬ Boundary ([0x65, 0x1F1E8, 0x1F1E7, 0x1F1E6].map sampleKind)
      (sampleKind 0x301) := by
    simp [Boundary, GraphemeRules.Joined, sampleKind, IsControl, Attached]
  simp only [sampleText, List.reverse_cons, List.reverse_nil, List.nil_append, List.cons_append]
  rw [clusters, if_neg haccent, clusters_boundary hletter, clusters_boundary hhalf, clusters,
    if_neg hflag, clusters_boundary hfirst, clusters]

/-- The flag is one cluster, and so is the letter with its accent. -/
theorem charbound_marks_clusters_sample :
    ∃ (a : Address) (after : Heap) (block : List UInt8),
      utf8procMapCustom sampleRuntime (fun _ => none) (encodeAll sampleText)
        (encodeAll sampleText).length utf8procCharbound none = .ok (18, some a, after) ∧
      Owned (fun _ => none) after a block ∧
      [0xFF, 0xF0, 0x9F, 0x87, 0xA6, 0xF0, 0x9F, 0x87, 0xA7, 0xFF, 0xF0, 0x9F, 0x87, 0xA8, 0xFF,
        0x65, 0xCC, 0x81, 0x00] <+: block := by
  have tables : OptionTables sampleRuntime.data := sample_optionTables
  have hreadable : Readable utf8procCharbound (encodeAll sampleText)
      (encodeAll sampleText).length := by decide +kernel
  have hplain : ¬ Canonical utf8procCharbound := by decide
  have htext : sampleText = mappedText sampleRuntime.data utf8procCharbound none
      (inputText utf8procCharbound (encodeAll sampleText) (encodeAll sampleText).length) := by
    decide +kernel
  obtain ⟨n, a, after, h⟩ := utf8procMapCustom_succeeds tables hreadable (fun _ => none) none
    (by decide +kernel) (by decide +kernel)
  obtain ⟨_, _, hn, ⟨block, howned, hholds⟩, _⟩ := charbound_marks_clusters tables sample_classes
    (by decide) (by decide) (by decide) hreadable (fun h => absurd h hplain) htext h
  have hmarked : markedClusters sampleRuntime.data sampleKind utf8procCharbound sampleText =
      [0xFF, 0xF0, 0x9F, 0x87, 0xA6, 0xF0, 0x9F, 0x87, 0xA7, 0xFF, 0xF0, 0x9F, 0x87, 0xA8, 0xFF,
        0x65, 0xCC, 0x81] := by
    rw [markedClusters, sample_clusters]
    decide +kernel
  rw [hmarked] at hn hholds
  obtain rfl : n = 18 := hn
  exact ⟨a, after, block, h, howned, hholds⟩

end Sample

end LeoUTF8.GraphemeClusters
