import LeoUTF8.OptionMaps
import LeoUTF8.OutputEncoding

set_option autoImplicit false

/-!
# The bytes of a mapping under any options

Whatever the options, what is delivered are whole encodings of scalar values, with single bytes
0xFF between them as marks. Composition and `UTF8PROC_STRIPCC` leave no marks.
-/
namespace LeoUTF8.WellFormedOutput
open HeapBlocks ScalarEncoding RecursiveExpansion StarterComposition EngineTables EngineCodec
open EngineGraphemes EngineCompose EngineMap CodePointMapping DecompositionCorrectness
open CompositionCorrectness TableAssumptions MapCorrectness OutputEncoding OptionMapping
open OptionPass NewlineNormalization OptionEncoding OptionMaps

/-- A custom function that makes no surrogates of scalar values. -/
def ScalarFunction (customFunc : Option (ℤ → ℤ)) : Prop :=
  ∀ f, customFunc = some f → ∀ c v : ℕ, IsScalar c → f c = v → v < 0x110000 → IsScalar v

/-- A scalar value or the mark of a grapheme break. -/
def IsText (v : ℤ) : Prop := v = -1 ∨ ∃ c : ℕ, v = c ∧ IsScalar c

section Items

variable {t : Utf8procData} (tables : OptionTables t)
include tables

theorem items_isScalar {i : Item} (hi : IsScalar i.code) : ∀ j ∈ items t i, IsScalar j.code := by
  refine expand_forall (itemEntry t) (itemTerminal t) (p := fun i => IsScalar i.code) ?_ ?_
    (item_isSome tables hi.lt) hi
  · intro i js _ h j hj
    rcases itemEntry_cases h with ⟨bs, hbs, rfl⟩ | ⟨_, a, ha, rfl⟩
    · obtain ⟨b, hb, rfl⟩ := List.mem_map.mp hj
      exact hasEntry_isScalar hbs b hb
    · obtain rfl := List.mem_singleton.mp hj
      have := lumpTargets_lt a ha
      exact Or.inl (by simp only; omega)
  · intro i hi _ j hj
    unfold itemTerminal at hj
    split_ifs at hj with hs
    · obtain ⟨c, hc, rfl⟩ := List.mem_map.mp hj
      have := hangulJamo_scalar hs.2 c hc
      exact Or.inl (by simp only; omega)
    · cases hj
    · rwa [List.mem_singleton.mp hj]

end Items

theorem mem_marked {t : Utf8procData} {state : ℕ} {is : List Item} {v : ℤ}
    (hv : v ∈ marked t state is) : v = -1 ∨ ∃ i ∈ is, v = i.code := by
  induction is generalizing state with
  | nil => cases hv
  | cons i is ih =>
    rw [marked, List.mem_append] at hv
    rcases hv with hv | hv
    · unfold markOne at hv
      simp only at hv
      split_ifs at hv <;> simp only [List.mem_cons, List.not_mem_nil, or_false] at hv
      · exact hv.imp_right fun h => ⟨i, List.mem_cons_self, h⟩
      all_goals exact Or.inr ⟨i, List.mem_cons_self, hv⟩
    · rcases ih hv with h | ⟨j, hj, h⟩
      · exact Or.inl h
      · exact Or.inr ⟨j, List.mem_cons_of_mem i hj, h⟩

section Cells

variable {t : Utf8procData} (tables : OptionTables t) {options : Utf8procOption} {us : List ℤ}
  (accepted : ∀ uc ∈ us, ¬ Refused t options uc)
include tables accepted

omit accepted in
theorem decomposedCells_isText (hus : ∀ uc ∈ us, IsScalar uc.toNat) :
    ∀ v ∈ decomposedCells t options us, IsText v := by
  intro v hv
  rcases mem_marked (mem_decomposedCells.mp hv) with h | ⟨i, hi, rfl⟩
  · exact Or.inl h
  · obtain ⟨uc, huc, hi⟩ := List.mem_flatMap.mp hi
    exact Or.inr ⟨i.code, rfl, items_isScalar tables (hus uc huc) i hi⟩

theorem decomposedCells_unmarked (hcharbound : hasOption options utf8procCharbound = false) :
    ∀ v ∈ decomposedCells t options us, 0 ≤ v := by
  intro v hv
  have hplain := allItems_options tables accepted hcharbound
  have hcells := mem_decomposedCells.mp hv
  rw [cellsOf, (marked_plain t boundclassStart hplain).1] at hcells
  obtain ⟨i, _, rfl⟩ := List.mem_map.mp hcells
  exact Int.natCast_nonneg _

end Cells

section Normalized

variable {options : Utf8procOption} {l : List ℤ}

theorem newlines_forall {p : ℤ → Prop} (hreplacement : p (nlfReplacement options)) (htab : p 0x0020)
    (hkept : ∀ v ∈ l, ¬ IsStripped options v → p v) : ∀ v ∈ newlines options l, p v := by
  intro v hv
  obtain ⟨u, hu, hv⟩ := List.mem_flatMap.mp hv
  unfold newlineCell at hv
  split_ifs at hv with _ hstripped
  · rwa [List.mem_singleton.mp hv]
  · rwa [List.mem_singleton.mp hv]
  · cases hv
  · rw [List.mem_singleton.mp hv]
    exact hkept u (joinCrlf_subset l hu) hstripped

theorem nlfReplacement_isText (options : Utf8procOption) :
    ∃ c : ℕ, nlfReplacement options = c ∧ IsScalar c := by
  unfold nlfReplacement
  split_ifs
  · exact ⟨0x000A, rfl, by decide⟩
  · exact ⟨0x2028, rfl, by decide⟩
  · exact ⟨0x2029, rfl, by decide⟩
  · exact ⟨0x0020, rfl, by decide⟩

theorem composedCells_isText {t : Utf8procData} (scalars : ScalarComposites t)
    (hl : ∀ v ∈ l, IsText v) :
    ∀ v ∈ composedCells t l, ∃ c : ℕ, v = c ∧ IsScalar c := by
  have hcodes : ∀ c ∈ codesOf l, IsScalar c := by
    intro c hc
    obtain ⟨v, hv, rfl⟩ := List.mem_map.mp hc
    obtain ⟨hv, hnonneg⟩ := List.mem_filter.mp hv
    rcases hl v hv with rfl | ⟨c, rfl, hscalar⟩
    · exact absurd hnonneg (by decide)
    · exact hscalar
  intro v hv
  obtain ⟨c, hc, rfl⟩ := List.mem_map.mp hv
  exact ⟨c, rfl, compose_forall _ _ (fun _ _ _ _ _ hp => composite_isScalar scalars hp) hcodes c hc⟩

theorem normalizedCells_isText {t : Utf8procData} (scalars : ScalarComposites t)
    (hl : ∀ v ∈ l, IsText v) : ∀ v ∈ normalizedCells t options l, IsText v := by
  have hnewlines : ∀ v ∈ (if Newlines options then newlines options l else l), IsText v := by
    split_ifs
    · exact newlines_forall (Or.inr (nlfReplacement_isText options))
        (Or.inr ⟨0x20, rfl, by decide⟩) fun v hv _ => hl v hv
    · exact hl
  unfold normalizedCells
  simp only
  by_cases hcompose : hasOption options utf8procCompose
  · rw [if_pos hcompose]
    exact fun v hv => Or.inr (composedCells_isText scalars hnewlines v hv)
  · rw [if_neg hcompose]
    exact hnewlines

theorem newlines_of_stripcc (h : hasOption options utf8procStripcc = true) : Newlines options :=
  hasOption_mono (by decide) h

/-- Composition skips the marks, and control characters are stripped with them. -/
theorem normalizedCells_unmarked {t : Utf8procData}
    (h : hasOption options utf8procCompose = true ∨ hasOption options utf8procStripcc = true ∨
      ∀ v ∈ l, 0 ≤ v) : ∀ v ∈ normalizedCells t options l, 0 ≤ v := by
  have hreplacement : 0 ≤ nlfReplacement options := by
    obtain ⟨c, hc, _⟩ := nlfReplacement_isText options
    rw [hc]
    exact Int.natCast_nonneg c
  unfold normalizedCells
  simp only
  by_cases hcompose : hasOption options utf8procCompose
  · rw [if_pos hcompose]
    intro v hv
    obtain ⟨c, _, rfl⟩ := List.mem_map.mp hv
    exact Int.natCast_nonneg c
  rw [if_neg hcompose]
  rcases h with h | h | h
  · exact absurd h hcompose
  · rw [if_pos (newlines_of_stripcc h)]
    refine newlines_forall hreplacement (by decide) fun v _ hstripped => ?_
    by_contra hneg
    exact hstripped ⟨h, Or.inl (by omega)⟩
  · split_ifs
    · exact newlines_forall hreplacement (by decide) fun v hv _ => h v hv
    · exact h

end Normalized

/-- The bytes of scalar values and marks. -/
def textBytes (cs : List (Option ℕ)) : List UInt8 := cs.flatMap fun c => c.elim [0xFF] encode

/-- The scalar value of a cell, or nothing for a mark. -/
def cellText (v : ℤ) : Option ℕ := if v < 0 then none else some v.toNat

theorem textBytes_cells {options : Utf8procOption} {l : List ℤ} (hl : ∀ v ∈ l, IsText v)
    (hmarks : (∃ v ∈ l, v < 0) → hasOption options utf8procCharbound = true) :
    encodeCells options l = textBytes (l.map cellText) := by
  rw [encodeCells, textBytes, List.flatMap_map]
  refine List.flatMap_congr fun v hv => ?_
  rcases hl v hv with rfl | ⟨c, rfl, hc⟩
  · rw [encodeCell, if_pos (hmarks ⟨-1, hv, by decide⟩)]
    rfl
  · rw [encodeCell_natCast options hc.lt, cellText, if_neg (by omega), Int.toNat_natCast]
    rfl

theorem values_isScalar {t : Utf8procData} {options : Utf8procOption}
    {customFunc : Option (ℤ → ℤ)} (hcustom : ScalarFunction customFunc) {l : List UInt8}
    (accepted : ∀ uc ∈ inputValues customFunc l, ¬ Refused t options uc) :
    ∀ uc ∈ inputValues customFunc l, IsScalar uc.toNat := by
  intro uc huc
  obtain ⟨⟨hlt, _⟩, hnat⟩ := accepted_of_not_refused (accepted uc huc)
  obtain ⟨c, hc, rfl⟩ := List.mem_map.mp huc
  have hscalar := (decode_spec l).1 c hc
  cases customFunc with
  | none => exact hscalar
  | some f => exact hcustom f rfl c _ hscalar hnat.symm hlt

theorem marks_options {t : Utf8procData} (tables : OptionTables t) {options : Utf8procOption}
    {customFunc : Option (ℤ → ℤ)} {l : List UInt8}
    (accepted : ∀ uc ∈ inputValues customFunc l, ¬ Refused t options uc)
    (hmark : ∃ v ∈ mappedCells t options customFunc l, v < 0) :
    hasOption options utf8procCharbound = true ∧ hasOption options utf8procCompose = false ∧
      hasOption options utf8procStripcc = false := by
  obtain ⟨v, hv, hneg⟩ := hmark
  have hnot (h : hasOption options utf8procCompose = true ∨
      hasOption options utf8procStripcc = true ∨
      ∀ v ∈ decomposedCells t options (inputValues customFunc l), 0 ≤ v) : False := by
    have := normalizedCells_unmarked h v hv
    omega
  refine ⟨?_, ?_, ?_⟩
  · by_contra h
    exact hnot (Or.inr (Or.inr (decomposedCells_unmarked tables accepted (by simpa using h))))
  · by_contra h
    exact hnot (Or.inl (by simpa using h))
  · by_contra h
    exact hnot (Or.inr (Or.inl (by simpa using h)))

theorem wellFormed_textBytes {cs : List (Option ℕ)} (hnone : none ∉ cs)
    (hscalar : ∀ c, some c ∈ cs → IsScalar c) : WellFormed (textBytes cs) := by
  induction cs with
  | nil => exact ⟨[], by simp, rfl⟩
  | cons c cs ih =>
    rw [List.mem_cons, not_or] at hnone
    cases c with
    | none => exact absurd rfl hnone.1
    | some c =>
      have hc := hscalar c List.mem_cons_self
      have hrest := ih hnone.2 fun d hd => hscalar d (List.mem_cons_of_mem _ hd)
      obtain ⟨ds, hds, hbytes⟩ := hrest
      refine ⟨c :: ds, List.forall_mem_cons.mpr ⟨hc, hds⟩, ?_⟩
      rw [encodeAll_cons, ← hbytes]
      rfl

/-- The cells behind the bytes that a call delivers. -/
theorem delivered_text {rt : Runtime} (tables : OptionTables rt.data)
    (scalars : ScalarComposites rt.data) {options : Utf8procOption} {mem : List UInt8} {strlen : ℤ}
    (readable : Readable options mem strlen) {customFunc : Option (ℤ → ℤ)}
    (hcustom : ScalarFunction customFunc) {heap after : Heap} {n : ℤ} {a : Address}
    (h : utf8procMapCustom rt heap mem strlen options customFunc = .ok (n, some a, after))
    {l : List UInt8} (hl : inputText options mem strlen = l) :
    (∀ uc ∈ inputValues customFunc l, ¬ Refused rt.data options uc) ∧
      (∀ v ∈ mappedCells rt.data options customFunc l, IsText v) ∧
      ∃ block, Owned heap after a block ∧
        (textBytes ((mappedCells rt.data options customFunc l).map cellText) ++ [0]) <+: block ∧
        n = (textBytes ((mappedCells rt.data options customFunc l).map cellText)).length := by
  obtain ⟨block, hn, hdelivered, herror⟩ := utf8procMapCustom_delivers tables readable h
  rw [hl] at hn hdelivered herror
  obtain ⟨_, accepted, _, _⟩ := accepted_of_passError herror
  have htext : ∀ v ∈ mappedCells rt.data options customFunc l, IsText v :=
    normalizedCells_isText scalars
      (decomposedCells_isText tables (values_isScalar hcustom accepted))
  have hbytes : mappedBytes rt.data options customFunc l = _ :=
    textBytes_cells htext fun hmark => (marks_options tables accepted hmark).1
  rw [hbytes] at hn hdelivered
  exact ⟨accepted, htext, block, hdelivered.owned, hdelivered.holds, hn⟩

theorem mem_cellText {l : List ℤ} {c : ℕ} (h : some c ∈ l.map cellText) : (c : ℤ) ∈ l := by
  obtain ⟨v, hv, hvc⟩ := List.mem_map.mp h
  unfold cellText at hvc
  split_ifs at hvc with hneg
  obtain rfl := Option.some.inj hvc
  rwa [Int.toNat_of_nonneg (by omega)]

theorem cellText_isScalar {l : List ℤ} (hl : ∀ v ∈ l, IsText v) :
    ∀ c, some c ∈ l.map cellText → IsScalar c := by
  intro c hc
  rcases hl c (mem_cellText hc) with hneg | ⟨d, hd, hscalar⟩
  · omega
  · rwa [Int.natCast_inj.mp hd]

theorem mem_cellText_none {l : List ℤ} (h : none ∈ l.map cellText) : ∃ v ∈ l, v < 0 := by
  obtain ⟨v, hv, hvc⟩ := List.mem_map.mp h
  refine ⟨v, hv, ?_⟩
  by_contra hnonneg
  rw [cellText, if_neg hnonneg] at hvc
  cases hvc

/-- Whatever the options and the text, a call that delivers anything delivers whole encodings of
scalar values. Marks between them come with `UTF8PROC_CHARBOUND` only, and not with composition
or stripped control characters; without them the bytes are well-formed UTF-8. -/
theorem delivers_scalar_values {rt : Runtime} (tables : OptionTables rt.data)
    (scalars : ScalarComposites rt.data) {options : Utf8procOption} {mem : List UInt8} {strlen : ℤ}
    (readable : Readable options mem strlen) {customFunc : Option (ℤ → ℤ)}
    (hcustom : ScalarFunction customFunc) {heap after : Heap} {n : ℤ} {a : Address}
    (h : utf8procMapCustom rt heap mem strlen options customFunc = .ok (n, some a, after)) :
    ∃ cs block, Owned heap after a block ∧ (textBytes cs ++ [0]) <+: block ∧
      n = (textBytes cs).length ∧ (∀ c, some c ∈ cs → IsScalar c) ∧
      (none ∈ cs → hasOption options utf8procCharbound = true ∧
        hasOption options utf8procCompose = false ∧ hasOption options utf8procStripcc = false) ∧
      (none ∉ cs → WellFormed (textBytes cs)) := by
  obtain ⟨accepted, htext, block, howned, hholds, hn⟩ :=
    delivered_text tables scalars readable hcustom h rfl
  have hscalar := cellText_isScalar htext
  exact ⟨_, block, howned, hholds, hn, hscalar,
    fun hnone => marks_options tables accepted (mem_cellText_none hnone),
    fun hnone => wellFormed_textBytes hnone hscalar⟩

theorem delivers_scalar_values_acute :
    ∃ (n : ℤ) (a : Address) (after : Heap) (cs : List (Option ℕ)) (block : List UInt8),
      utf8procMapCustom smallRuntime (fun _ => none) [0x65, 0xCC, 0x81, 0x0A] 4
          (utf8procCharbound ||| utf8procNlf2ls) (some fun c => if c = 0x65 then 0x61 else c) =
        .ok (n, some a, after) ∧
      (textBytes cs ++ [0]) <+: block ∧ ∀ c, some c ∈ cs → IsScalar c := by
  have tables : OptionTables smallRuntime.data := acute_optionTables
  have hreadable : Readable (utf8procCharbound ||| utf8procNlf2ls) [0x65, 0xCC, 0x81, 0x0A] 4 := by
    decide
  have hcustom : ScalarFunction (some fun c => if c = 0x65 then 0x61 else c) := by
    rintro f hf c v hc hv _
    obtain rfl := Option.some.inj hf
    dsimp only at hv
    split_ifs at hv
    · obtain rfl : v = 0x61 := by omega
      decide
    · rwa [← Int.natCast_inj.mp hv]
  obtain ⟨n, a, after, h⟩ := utf8procMapCustom_succeeds tables hreadable (fun _ => none)
    (some fun c => if c = 0x65 then 0x61 else c) (by decide +kernel) (by decide +kernel)
  obtain ⟨cs, block, _, hholds, _, hscalar, _⟩ :=
    delivers_scalar_values tables acute_scalarComposites hreadable hcustom h
  exact ⟨n, a, after, cs, block, h, hholds, hscalar⟩

end LeoUTF8.WellFormedOutput
