import LeoUTF8.MapCorrectness
import LeoUTF8.OptionEncoding
import LeoUTF8.OptionPass

set_option autoImplicit false

/-!
# Mapping under any options

`utf8proc_map_custom` for every set of options, text with a length or a NUL, and every custom
function: which error it returns, or which bytes it delivers.
-/
namespace LeoUTF8.OptionMaps
open BoundedLoop CellStorage HeapBlocks ScalarEncoding EngineTables EngineDecompose EngineMap
open RecursiveExpansion CodePointMapping DecompositionCorrectness TableAssumptions
open MapCorrectness OptionMapping OptionPass OptionEncoding CellReordering

/-- The number of cells of a text. -/
def cellCount (t : Utf8procData) (options : Utf8procOption) (customFunc : Option (ℤ → ℤ))
    (l : List UInt8) : ℕ :=
  (cellsOf t options (inputValues customFunc l)).length

/-- The cells that are encoded. -/
def mappedCells (t : Utf8procData) (options : Utf8procOption) (customFunc : Option (ℤ → ℤ))
    (l : List UInt8) : List ℤ :=
  normalizedCells t options (decomposedCells t options (inputValues customFunc l))

/-- The bytes that are delivered. -/
def mappedBytes (t : Utf8procData) (options : Utf8procOption) (customFunc : Option (ℤ → ℤ))
    (l : List UInt8) : List UInt8 :=
  encodeCells options (mappedCells t options customFunc l)

/-- What a call returns: an error code and nothing else, or a block with the bytes. -/
def OptionOutcome (rt : Runtime) (heap : Heap) (options : Utf8procOption)
    (customFunc : Option (ℤ → ℤ)) (l : List UInt8) (r : ℤ × Option Address × Heap) : Prop :=
  match passError rt.platform rt.data options customFunc l with
  | some code => r = (code, none, heap)
  | none =>
    match rt.allocator.malloc heap (4 * cellCount rt.data options customFunc l + 1) with
    | none => r = (utf8procErrorNomem, none, heap)
    | some _ => ∃ a block, r.1 = (mappedBytes rt.data options customFunc l).length ∧
        r.2.1 = some a ∧ Delivered heap r.2.2 a (mappedBytes rt.data options customFunc l)
          (cellCount rt.data options customFunc l) block

/-- A call that returns a block has found no error. -/
theorem OptionOutcome.delivered {rt : Runtime} {heap : Heap} {options : Utf8procOption}
    {customFunc : Option (ℤ → ℤ)} {l : List UInt8} {r : ℤ × Option Address × Heap} {a : Address}
    (h : OptionOutcome rt heap options customFunc l r) (ha : r.2.1 = some a) :
    ∃ block, r.1 = (mappedBytes rt.data options customFunc l).length ∧
      Delivered heap r.2.2 a (mappedBytes rt.data options customFunc l)
        (cellCount rt.data options customFunc l) block ∧
      passError rt.platform rt.data options customFunc l = none := by
  unfold OptionOutcome at h
  cases herror : passError rt.platform rt.data options customFunc l with
  | some code =>
    rw [herror] at h
    rw [h] at ha
    cases ha
  | none =>
    rw [herror] at h
    dsimp only at h
    cases hmalloc : rt.allocator.malloc heap (4 * cellCount rt.data options customFunc l + 1) with
    | none =>
      rw [hmalloc] at h
      rw [h] at ha
      cases ha
    | some _ =>
      rw [hmalloc] at h
      obtain ⟨b, block, hlength, hb, hdelivered⟩ := h
      rw [ha] at hb
      obtain rfl := Option.some.inj hb
      exact ⟨block, hlength, hdelivered, rfl⟩

/-- A call returns a null pointer and the heap as it was, or a block of the caller. -/
theorem OptionOutcome.null_or_owned {rt : Runtime} {heap after : Heap} {options : Utf8procOption}
    {customFunc : Option (ℤ → ℤ)} {l : List UInt8} {rc : ℤ} {ptr : Option Address}
    (h : OptionOutcome rt heap options customFunc l (rc, ptr, after)) :
    (rc < 0 ∧ ptr = none ∧ after = heap) ∨
      ∃ a block, 0 ≤ rc ∧ ptr = some a ∧ Owned heap after a block := by
  cases ptr with
  | some a =>
    obtain ⟨block, hrc, hdelivered, _⟩ := h.delivered rfl
    obtain rfl : rc = _ := hrc
    exact Or.inr ⟨a, block, Int.natCast_nonneg _, rfl, hdelivered.owned⟩
  | none =>
    left
    unfold OptionOutcome at h
    cases herror : passError rt.platform rt.data options customFunc l with
    | some code =>
      rw [herror] at h
      obtain ⟨rfl, rfl⟩ : rc = code ∧ after = heap := by simpa using h
      exact ⟨passError_neg herror, rfl, rfl⟩
    | none =>
      rw [herror] at h
      dsimp only at h
      cases hmalloc : rt.allocator.malloc heap
          (4 * cellCount rt.data options customFunc l + 1) with
      | none =>
        rw [hmalloc] at h
        obtain ⟨rfl, rfl⟩ : rc = utf8procErrorNomem ∧ after = heap := by simpa using h
        exact ⟨by decide, rfl, rfl⟩
      | some _ =>
        rw [hmalloc] at h
        obtain ⟨_, _, _, hptr, _⟩ := h
        cases hptr

section PassError

variable {pf : Platform} {t : Utf8procData} {options : Utf8procOption}
  {customFunc : Option (ℤ → ℤ)} {l : List UInt8}

/-- Without an error every value is accepted, and the count is in range. -/
theorem accepted_of_passError (h : passError pf t options customFunc l = none) :
    ¬ InvalidOptions options ∧ (∀ uc ∈ inputValues customFunc l, ¬ Refused t options uc) ∧
      cellCount t options customFunc l ≤ pf.codepointMax ∧ (decode l).2 = [] := by
  unfold passError at h
  simp only at h
  split_ifs at h with hopts hover hrefused hrest
  have haccepted : ∀ uc ∈ inputValues customFunc l, ¬ Refused t options uc := by
    simpa using hrefused
  rw [acceptedValues_of_all haccepted] at hover
  exact ⟨hopts, haccepted, by unfold cellCount; omega, hrest⟩

/-- Where all values are accepted, the error depends on the number of cells only. -/
theorem passError_of_accepted (haccepted : ∀ uc ∈ inputValues customFunc l, ¬ Refused t options uc)
    (hrest : (decode l).2 = []) :
    passError pf t options customFunc l =
      if InvalidOptions options then some utf8procErrorInvalidopts
      else if pf.codepointMax < cellCount t options customFunc l then some utf8procErrorOverflow
      else none := by
  have hnone : ¬ ∃ uc ∈ inputValues customFunc l, Refused t options uc := by simpa using haccepted
  rw [passError, acceptedValues_of_all haccepted, cellCount]
  simp only [if_neg hnone, if_pos hrest]

end PassError

section Map

variable {rt : Runtime} (tables : OptionTables rt.data) {options : Utf8procOption}
  {mem : List UInt8} {strlen : ℤ} {customFunc : Option (ℤ → ℤ)}
  (readable : Readable options mem strlen)
include tables readable

theorem option_counting_pass (customFunc : Option (ℤ → ℤ)) :
    ∃ rc cells, utf8procDecomposeCustom rt.platform rt.data mem strlen none 0 options customFunc =
        .ok (rc, cells) ∧
      rc = (passError rt.platform rt.data options customFunc (inputText options mem strlen)).getD
        (cellCount rt.data options customFunc (inputText options mem strlen) : ℤ) := by
  have room : Room ((none : Option (List ℤ)).map fun _ => 0) 0 ((none : Option (List ℤ)).getD []) :=
    Or.inl rfl
  obtain ⟨⟨rc, cells⟩, hpass, houtcome⟩ :=
    utf8procDecomposeCustom_outcome tables rt.platform customFunc readable room
  refine ⟨rc, cells, hpass, ?_⟩
  unfold PassOutcome at houtcome
  cases herror : passError rt.platform rt.data options customFunc
      (inputText options mem strlen) with
  | some code =>
    rw [herror] at houtcome
    exact houtcome
  | none =>
    rw [herror] at houtcome
    exact houtcome.1

theorem option_filling_pass (customFunc : Option (ℤ → ℤ))
    (herror : passError rt.platform rt.data options customFunc
      (inputText options mem strlen) = none) {array : List ℤ}
    (harray : array.length = cellCount rt.data options customFunc (inputText options mem strlen)) :
    utf8procDecomposeCustom rt.platform rt.data mem strlen (some array)
        (cellCount rt.data options customFunc (inputText options mem strlen)) options customFunc =
      .ok ((cellCount rt.data options customFunc (inputText options mem strlen) : ℤ),
        decomposedCells rt.data options
          (inputValues customFunc (inputText options mem strlen))) := by
  have room : Room ((some array).map fun _ => 0)
      (cellCount rt.data options customFunc (inputText options mem strlen))
      ((some array).getD []) := Or.inr ⟨0, rfl, by simp [harray]⟩
  obtain ⟨⟨rc, cells⟩, hpass, houtcome⟩ :=
    utf8procDecomposeCustom_outcome tables rt.platform customFunc readable room
  unfold PassOutcome at houtcome
  rw [herror] at houtcome
  obtain ⟨hrc, hcells⟩ := houtcome
  rw [if_pos (show (cellsOf rt.data options _).length ≤ cellCount rt.data options customFunc _
    from le_rfl), Option.getD_some, List.drop_of_length_le (by rw [harray, cellCount]),
    List.append_nil] at hcells
  rw [hpass]
  exact congrArg Except.ok (Prod.ext hrc hcells)

/-- The call never faults, returns the first error there is, and otherwise delivers. -/
theorem utf8procMapCustom_outcome (heap : Heap) (customFunc : Option (ℤ → ℤ)) :
    ∃ r, utf8procMapCustom rt heap mem strlen options customFunc = .ok r ∧
      OptionOutcome rt heap options customFunc (inputText options mem strlen) r := by
  obtain ⟨rc, counted, hfirst, hrc⟩ := option_counting_pass tables readable customFunc
  have hfill := option_filling_pass tables readable customFunc
  generalize inputText options mem strlen = l at *
  rw [utf8procMapCustom, hfirst, ok_bind]
  simp only
  unfold OptionOutcome
  cases herror : passError rt.platform rt.data options customFunc l with
  | some code =>
    rw [herror, Option.getD_some] at hrc
    have hneg := passError_neg herror
    rw [if_pos (by omega), hrc]
    exact ⟨_, rfl, rfl⟩
  | none =>
    rw [herror, Option.getD_none] at hrc
    obtain ⟨_, haccepted, hmax, _⟩ := accepted_of_passError herror
    rw [if_neg (by omega), hrc, mapSize_eq hmax]
    dsimp only
    cases hmalloc : rt.allocator.malloc heap (4 * cellCount rt.data options customFunc l + 1) with
    | none => exact ⟨_, rfl, rfl⟩
    | some a =>
      dsimp only
      generalize hblock :
        rt.allocator.fresh (4 * cellCount rt.data options customFunc l + 1) = block
      have hlength : block.length = 4 * cellCount rt.data options customFunc l + 1 := by
        rw [← hblock, rt.allocator.fresh_length]
      have harray : (cells rt.platform.bigEndian block).length =
          cellCount rt.data options customFunc l := by
        rw [cells_length, hlength]
        omega
      have hspare : (block.drop (4 * (cells rt.platform.bigEndian block).length)).length = 1 := by
        rw [List.length_drop, harray, hlength]
        omega
      have hcells : ∀ v ∈ decomposedCells rt.data options (inputValues customFunc l), IsCell v :=
        fun v hv => isCell_cellsOf tables haccepted v (mem_decomposedCells.mp hv)
      have hcount : (decomposedCells rt.data options (inputValues customFunc l)).length =
          cellCount rt.data options customFunc l := decomposedCells_length _ _ _
      obtain ⟨junk, hjunk, hreencode⟩ := utf8procReencode_cells rt options hcells []
        (show 0 < (block.drop (4 * (cells rt.platform.bigEndian block).length)).length by omega)
      rw [List.append_nil, hspare, hcount] at hjunk
      rw [List.append_nil, hcount] at hreencode
      rw [hfill herror harray, ok_bind]
      simp only
      rw [if_neg (by omega), hreencode, ok_bind]
      simp only [Heap.put_put, Int.toNat_natCast]
      rw [if_neg (by omega)]
      obtain ⟨b, final, hshrink, hdelivered⟩ :=
        shrink_delivered rt.allocator (rt.allocator.malloc_fresh _ _ _ hmalloc) hjunk
      cases hrealloc : rt.allocator.realloc _ a _ with
      | none =>
        rw [hrealloc] at hshrink
        obtain ⟨rfl, hheap⟩ := by simpa using hshrink
        exact ⟨_, rfl, a, final, rfl, rfl, by rw [hheap]; exact hdelivered⟩
      | some newptr =>
        rw [hrealloc] at hshrink
        obtain ⟨rfl, hheap⟩ := by simpa using hshrink
        exact ⟨_, rfl, newptr, final, rfl, rfl, by rw [hheap]; exact hdelivered⟩

theorem utf8procMapCustom_delivers {heap after : Heap} {n : ℤ} {a : Address}
    (h : utf8procMapCustom rt heap mem strlen options customFunc = .ok (n, some a, after)) :
    ∃ block,
      n = (mappedBytes rt.data options customFunc (inputText options mem strlen)).length ∧
      Delivered heap after a (mappedBytes rt.data options customFunc (inputText options mem strlen))
        (cellCount rt.data options customFunc (inputText options mem strlen)) block ∧
      passError rt.platform rt.data options customFunc (inputText options mem strlen) = none := by
  obtain ⟨r, hr, houtcome⟩ := utf8procMapCustom_outcome tables readable heap customFunc
  rw [h] at hr
  obtain rfl := Except.ok.inj hr
  exact houtcome.delivered rfl

theorem utf8procMapCustom_succeeds (heap : Heap) (customFunc : Option (ℤ → ℤ))
    (herror : passError rt.platform rt.data options customFunc
      (inputText options mem strlen) = none)
    (hmalloc : (rt.allocator.malloc heap
      (4 * cellCount rt.data options customFunc (inputText options mem strlen) + 1)).isSome) :
    ∃ n a after, utf8procMapCustom rt heap mem strlen options customFunc =
      .ok (n, some a, after) := by
  obtain ⟨⟨n, ptr, after⟩, hr, houtcome⟩ :=
    utf8procMapCustom_outcome tables readable heap customFunc
  obtain ⟨b, hb⟩ := Option.isSome_iff_exists.mp hmalloc
  unfold OptionOutcome at houtcome
  rw [herror, hb] at houtcome
  obtain ⟨a, _, _, hptr, _⟩ := houtcome
  obtain rfl : ptr = some a := hptr
  exact ⟨n, a, after, hr⟩

end Map

/-- Two calls with the same error, or the same cells and the same encoding of them, are the same
call. -/
theorem mapCustom_congr {rt : Runtime} (tables : OptionTables rt.data)
    {options options' : Utf8procOption} {mem mem' : List UInt8} {strlen strlen' : ℤ}
    {customFunc customFunc' : Option (ℤ → ℤ)} (readable : Readable options mem strlen)
    (readable' : Readable options' mem' strlen')
    (hreencode : ∀ buffer spare length, utf8procReencode rt buffer spare length options' =
      utf8procReencode rt buffer spare length options)
    (herror' :
      passError rt.platform rt.data options' customFunc' (inputText options' mem' strlen') =
        passError rt.platform rt.data options customFunc (inputText options mem strlen))
    (hcells :
      passError rt.platform rt.data options customFunc (inputText options mem strlen) = none →
      decomposedCells rt.data options'
          (inputValues customFunc' (inputText options' mem' strlen')) =
        decomposedCells rt.data options
          (inputValues customFunc (inputText options mem strlen))) (heap : Heap) :
    utf8procMapCustom rt heap mem' strlen' options' customFunc' =
      utf8procMapCustom rt heap mem strlen options customFunc := by
  obtain ⟨rc, counted, hfirst, hrc⟩ := option_counting_pass tables readable customFunc
  obtain ⟨rc', counted', hfirst', hrc'⟩ := option_counting_pass tables readable' customFunc'
  have hfill := option_filling_pass tables readable customFunc
  have hfill' := option_filling_pass tables readable' customFunc'
  generalize inputText options mem strlen = l at *
  generalize inputText options' mem' strlen' = l' at *
  rw [utf8procMapCustom, utf8procMapCustom, hfirst, hfirst', ok_bind, ok_bind]
  dsimp only
  rw [herror'] at hrc' hfill'
  cases herror : passError rt.platform rt.data options customFunc l with
  | some code =>
    rw [herror, Option.getD_some] at hrc hrc'
    have hneg := passError_neg herror
    rw [hrc, hrc', if_pos hneg, if_pos hneg]
  | none =>
    obtain ⟨_, _, hmax, _⟩ := accepted_of_passError herror
    have hcells := hcells herror
    have hcount : cellCount rt.data options' customFunc' l' =
        cellCount rt.data options customFunc l := by
      rw [cellCount, ← decomposedCells_length, hcells, decomposedCells_length, cellCount]
    rw [hcount, hcells] at hfill'
    rw [herror, Option.getD_none, hcount] at hrc'
    rw [herror, Option.getD_none] at hrc
    rw [hrc, hrc', if_neg (by omega), if_neg (by omega), mapSize_eq hmax]
    cases hmalloc : rt.allocator.malloc heap (4 * cellCount rt.data options customFunc l + 1) with
    | none => rfl
    | some a =>
      dsimp only
      have harray : (cells rt.platform.bigEndian
          (rt.allocator.fresh (4 * cellCount rt.data options customFunc l + 1))).length =
            cellCount rt.data options customFunc l := by
        rw [cells_length, rt.allocator.fresh_length]
        omega
      rw [hfill herror harray, hfill' herror harray]
      simp only [ok_bind, hreencode]

end LeoUTF8.OptionMaps
