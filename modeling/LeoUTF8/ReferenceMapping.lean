import LeoUTF8.OptionMaps

set_option autoImplicit false

/-!
# What the mapping options mean for a text

Without lumping and without marks of grapheme breaks a text is expanded as the relation of
full expansions says, ordered and composed. The transforms of LeoUTF8Core are the cases of
three sets of options.
-/
namespace LeoUTF8.ReferenceMapping
open ScalarEncoding EngineTables EngineGraphemes EngineDecompose RecursiveExpansion RunSorting
open CodePointMapping DecompositionCorrectness DecompositionPass CompositionCorrectness
open EncodingCorrectness TableAssumptions MapCorrectness OptionMapping OptionPass OptionEncoding
open NewlineNormalization CellReordering OptionMaps HeapBlocks EngineMap

/-- Options that change neither in the recursion nor the number of cells of an item. -/
structure Flat (options : Utf8procOption) : Prop where
  lump : hasOption options utf8procLump = false
  charbound : hasOption options utf8procCharbound = false

/-- What a code point is replaced by. -/
def codeEntry (t : Utf8procData) (options : Utf8procOption) (c : ℕ) : Option (List ℕ) :=
  if IsSyllable ⟨options, c⟩ ∨ Dropped t ⟨options, c⟩ ∨ Stripped t ⟨options, c⟩ then none
  else if hasOption options utf8procCasefold ∧ (t.property c).casefoldSeqindex ≠ uint16Max then
    foldEntry t c
  else if Canonical options then mappingEntry t (hasOption options utf8procCompat) c
  else none

/-- What a code point without a replacement becomes. -/
def codeTerminal (t : Utf8procData) (options : Utf8procOption) (c : ℕ) : List ℕ :=
  if IsSyllable ⟨options, c⟩ then hangulJamo c
  else if Dropped t ⟨options, c⟩ ∨ Stripped t ⟨options, c⟩ then []
  else [c]

/-- The full expansion of a sequence of code points. -/
abbrev FullMapping (t : Utf8procData) (options : Utf8procOption) : List ℕ → List ℕ → Prop :=
  Expands (codeEntry t options) (codeTerminal t options)

def ordered (t : Utf8procData) (options : Utf8procOption) (xs : List ℕ) : List ℕ :=
  if Canonical options then sortRuns (combiningClass t) xs else xs

/-- The order and the composition of what has been expanded. -/
def finished (t : Utf8procData) (options : Utf8procOption) (xs : List ℕ) : List ℕ :=
  if hasOption options utf8procCompose then composition t (ordered t options xs)
  else ordered t options xs

theorem expands_codes {t : Utf8procData} (tables : OptionTables t) (options : Utf8procOption)
    {cs : List ℕ} (hcs : ∀ c ∈ cs, c < 0x110000) :
    Expands (itemEntry t) (itemTerminal t) (cs.map (Item.mk options))
      (cs.flatMap fun c => items t ⟨options, c⟩) := by
  have hexpands : Expands (itemEntry t) (itemTerminal t) (cs.map (Item.mk options)) _ :=
    expands_flatMap _ _ (by
      intro i hi
      obtain ⟨c, hc, rfl⟩ := List.mem_map.mp hi
      exact item_isSome tables (hcs c hc))
  rwa [List.flatMap_map] at hexpands

/-- The items of a list of values are its full expansion. -/
theorem expands_allItems {t : Utf8procData} (tables : OptionTables t) {options : Utf8procOption}
    {us : List ℤ} (accepted : ∀ uc ∈ us, ¬ Refused t options uc) :
    Expands (itemEntry t) (itemTerminal t) (us.map fun uc => ⟨options, uc.toNat⟩)
      (allItems t options us) := by
  have hexpands := @expands_codes _ tables options (us.map Int.toNat) (by
    intro c hc
    obtain ⟨uc, huc, rfl⟩ := List.mem_map.mp hc
    exact (accepted_of_not_refused (accepted uc huc)).1.1)
  rw [List.map_map, List.flatMap_map] at hexpands
  exact hexpands

/-- The code points that a code point is mapped to. -/
def mapping (t : Utf8procData) (options : Utf8procOption) (c : ℕ) : List ℕ :=
  (items t ⟨options, c⟩).map Item.code

section Items

variable {t : Utf8procData} {options : Utf8procOption} (flat : Flat options)

include flat in
theorem codeEntry_eq (c : ℕ) :
    codeEntry t options c = (itemEntry t ⟨options, c⟩).map (List.map Item.code) := by
  have hlumped : lumped t ⟨options, c⟩ = none := lumpReplacement_none _ _ flat.lump
  rw [codeEntry, itemEntry]
  by_cases hout : IsSyllable ⟨options, c⟩ ∨ Dropped t ⟨options, c⟩
  · rw [if_pos hout, if_pos]
    · rfl
    · exact hout.imp_right Or.inl
  obtain ⟨hsyllable, hdropped⟩ := not_or.mp hout
  rw [if_neg hout, hlumped]
  dsimp only
  by_cases hstripped : Stripped t ⟨options, c⟩
  · rw [if_pos hstripped, if_pos (Or.inr (Or.inr hstripped))]
    rfl
  rw [if_neg hstripped, if_neg (not_or.mpr ⟨hsyllable, not_or.mpr ⟨hdropped, hstripped⟩⟩)]
  have hcodes (o : Option (List ℕ)) :
      o = (o.map (List.map (Item.mk options))).map (List.map Item.code) := by
    cases o with
    | none => rfl
    | some bs => simp [Function.comp_def]
  split_ifs
  · exact hcodes _
  · exact hcodes _
  · rfl

theorem codeTerminal_eq (c : ℕ) :
    codeTerminal t options c = (itemTerminal t ⟨options, c⟩).map Item.code := by
  rw [codeTerminal, itemTerminal]
  by_cases hsyllable : IsSyllable ⟨options, c⟩
  · rw [if_pos hsyllable, if_pos hsyllable, List.map_map]
    exact (List.map_id _).symm
  rw [if_neg hsyllable, if_neg hsyllable]
  split_ifs <;> rfl

include flat

theorem itemEntry_options {i : Item} {js : List Item} (hi : i.options = options)
    (h : itemEntry t i = some js) : ∀ j ∈ js, j.options = options := by
  rcases itemEntry_cases h with ⟨bs, _, rfl⟩ | ⟨hlump, _⟩
  · intro j hj
    obtain ⟨b, _, rfl⟩ := List.mem_map.mp hj
    exact hi
  · rw [hi, flat.lump] at hlump
    cases hlump

variable (tables : OptionTables t)
include tables

/-- The mappings of the code points of a sequence are its full expansion. -/
theorem fullMapping_codes {cs : List ℕ} (hcs : ∀ c ∈ cs, c < 0x110000) :
    FullMapping t options cs (cs.flatMap (mapping t options)) := by
  have hmapped : FullMapping t options _ _ := (expands_codes tables options hcs).map Item.code
    (p := fun i => i.options = options) (by rintro i rfl; exact codeEntry_eq flat i.code)
    (by rintro i rfl _; exact codeTerminal_eq i.code)
    (fun i js hi h => itemEntry_options flat hi h) (by
      intro i hi
      obtain ⟨c, _, rfl⟩ := List.mem_map.mp hi
      rfl)
  rw [List.map_map, show Item.code ∘ Item.mk options = id from rfl, List.map_id,
    List.map_flatMap] at hmapped
  exact hmapped

variable {us : List ℤ} (accepted : ∀ uc ∈ us, ¬ Refused t options uc)
include accepted

theorem fullMapping_items :
    FullMapping t options (us.map Int.toNat) ((allItems t options us).map Item.code) := by
  have hcodes : FullMapping t options (us.map Int.toNat) _ := fullMapping_codes flat tables (by
    intro c hc
    obtain ⟨uc, huc, rfl⟩ := List.mem_map.mp hc
    exact (accepted_of_not_refused (accepted uc huc)).1.1)
  rw [List.flatMap_map] at hcodes
  rw [allItems, List.map_flatMap]
  exact hcodes

theorem cellsOf_flat : cellsOf t options us = int32s ((allItems t options us).map Item.code) := by
  have hplain := allItems_options tables accepted flat.charbound
  rw [cellsOf, (marked_plain t boundclassStart hplain).1, int32s, List.map_map]
  rfl

end Items

theorem sortRuns_int32s (t : Utf8procData) (cs : List ℕ) :
    sortRuns (cellClass t) (int32s cs) = int32s (sortRuns (combiningClass t) cs) := by
  refine (List.map_insertionSort _ _ _ cs fun a _ b _ => ?_).symm
  unfold Inverted
  rw [cellClass_natCast, cellClass_natCast]

theorem ordered_lt {t : Utf8procData} {options : Utf8procOption} {xs : List ℕ}
    (hxs : ∀ x ∈ xs, x < 0x110000) : ∀ x ∈ ordered t options xs, x < 0x110000 := by
  unfold ordered
  split_ifs
  · exact fun x hx => hxs x ((mem_sortRuns _).mp hx)
  · exact hxs

theorem finished_lt {t : Utf8procData} {options : Utf8procOption} {xs : List ℕ}
    (hxs : ∀ x ∈ xs, x < 0x110000) : ∀ x ∈ finished t options xs, x < 0x110000 := by
  unfold finished
  split_ifs
  · exact composition_lt (ordered_lt hxs)
  · exact ordered_lt hxs

/-- Cells without marks are ordered, composed and encoded as code points. -/
theorem mappedBytes_of_cells {t : Utf8procData} {options : Utf8procOption}
    {customFunc : Option (ℤ → ℤ)} {l : List UInt8} (hnewlines : ¬ Newlines options)
    {xs : List ℕ} (hlt : ∀ x ∈ xs, x < 0x110000)
    (hcells : cellsOf t options (inputValues customFunc l) = int32s xs) :
    mappedBytes t options customFunc l = encodeAll (finished t options xs) := by
  have hdecomposed : decomposedCells t options (inputValues customFunc l) =
      int32s (ordered t options xs) := by
    rw [decomposedCells, hcells, ordered]
    split_ifs
    · exact sortRuns_int32s t xs
    · rfl
  have hmapped : mappedCells t options customFunc l = int32s (finished t options xs) := by
    rw [mappedCells, hdecomposed, normalizedCells, if_neg hnewlines, finished]
    split_ifs
    · rw [composedCells, codesOf_int32s]
    · rfl
  rw [mappedBytes, hmapped, encodeCells_int32s options (finished_lt hlt)]

theorem decomposedCells_flat {t : Utf8procData} {options : Utf8procOption} (flat : Flat options)
    (tables : OptionTables t) {us : List ℤ} (accepted : ∀ uc ∈ us, ¬ Refused t options uc) :
    decomposedCells t options us =
      int32s (ordered t options ((us.map Int.toNat).flatMap (mapping t options))) := by
  have hcodes : (allItems t options us).map Item.code =
      (us.map Int.toNat).flatMap (mapping t options) := by
    rw [allItems, List.map_flatMap, List.flatMap_map]
    rfl
  rw [decomposedCells, cellsOf_flat flat tables accepted, hcodes, ordered]
  split_ifs
  · exact sortRuns_int32s t _
  · rfl

section Texts

variable {t : Utf8procData} {options : Utf8procOption} {customFunc : Option (ℤ → ℤ)}
  {l : List UInt8} (flat : Flat options) (tables : OptionTables t)
  (accepted : ∀ uc ∈ inputValues customFunc l, ¬ Refused t options uc)
include flat tables accepted

/-- The code points behind the cells that a call counts. -/
theorem cells_flat :
    ∃ xs, FullMapping t options ((inputValues customFunc l).map Int.toNat) xs ∧
      (∀ x ∈ xs, x < 0x110000) ∧ cellsOf t options (inputValues customFunc l) = int32s xs := by
  have hcells := cellsOf_flat flat tables accepted
  refine ⟨_, fullMapping_items flat tables accepted, ?_, hcells⟩
  intro x hx
  have hcell := isCell_cellsOf tables accepted x (by rw [hcells]; exact List.mem_map_of_mem hx)
  unfold IsCell at hcell
  omega

theorem mappedBytes_flat (hnewlines : ¬ Newlines options) {xs : List ℕ}
    (h : FullMapping t options ((inputValues customFunc l).map Int.toNat) xs) :
    cellCount t options customFunc l = xs.length ∧
      mappedBytes t options customFunc l = encodeAll (finished t options xs) := by
  obtain ⟨ys, hys, hlt, hcells⟩ := cells_flat flat tables accepted
  obtain rfl := h.unique hys
  exact ⟨by rw [cellCount, hcells, int32s_length], mappedBytes_of_cells hnewlines hlt hcells⟩

end Texts

/-- `NFKC_Casefold` without its options for ignorable characters. -/
def compatFold : Utf8procOption :=
  utf8procNullterm ||| utf8procCompose ||| utf8procCompat ||| utf8procCasefold

end LeoUTF8.ReferenceMapping
