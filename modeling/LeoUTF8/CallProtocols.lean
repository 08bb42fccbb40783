import LeoUTF8.NulTerminatedMaps

set_option autoImplicit false

/-!
# Mapping with buffers of the caller, and mapping with a custom function

A caller may ask for the number of cells with a buffer that is too small, decompose into one
that is large enough and encode it in place. A custom function may as well be applied to the text
before the call.
-/
namespace LeoUTF8.CallProtocols
open BoundedLoop CellStorage HeapBlocks ScalarEncoding EngineTables EngineDecompose EngineMap
open CodePointMapping DecompositionCorrectness CompositionCorrectness MapCorrectness OptionMapping
open OptionPass CellReordering
open OptionEncoding OptionMaps NeutralOptions NulTerminatedMaps ReferenceMapping

/-- What a pass returns, whatever its buffer. -/
def needed (pf : Platform) (t : Utf8procData) (options : Utf8procOption)
    (customFunc : Option (ℤ → ℤ)) (l : List UInt8) : ℤ :=
  (passError pf t options customFunc l).getD (cellCount t options customFunc l)

section Buffers

variable {pf : Platform} {t : Utf8procData} (tables : OptionTables t) {options : Utf8procOption}
  {mem : List UInt8} {strlen : ℤ} (readable : Readable options mem strlen)
  {buffer : List ℤ} {cap : ℕ} (hcap : cap ≤ buffer.length)
include tables readable hcap

/-- A pass writes into the first `cap` cells only, and leaves all its cells there if they fit. -/
theorem buffer_pass (customFunc : Option (ℤ → ℤ)) :
    ∃ filled, utf8procDecomposeCustom pf t mem strlen (some buffer) cap options customFunc =
        .ok (needed pf t options customFunc (inputText options mem strlen), filled) ∧
      (passError pf t options customFunc (inputText options mem strlen) = none →
        filled.drop cap = buffer.drop cap ∧
        (cellCount t options customFunc (inputText options mem strlen) ≤ cap →
          filled = decomposedCells t options
              (inputValues customFunc (inputText options mem strlen)) ++
            buffer.drop (cellCount t options customFunc (inputText options mem strlen)))) := by
  have room : Room ((some buffer).map fun _ => 0) cap ((some buffer).getD []) :=
    Or.inr ⟨0, rfl, by simpa using hcap⟩
  obtain ⟨⟨rc, filled⟩, hpass, houtcome⟩ :=
    utf8procDecomposeCustom_outcome tables pf customFunc readable room
  refine ⟨filled, ?_⟩
  unfold PassOutcome at houtcome
  unfold needed
  generalize inputText options mem strlen = l at *
  cases herror : passError pf t options customFunc l with
  | some code =>
    rw [herror] at houtcome
    obtain rfl : rc = code := houtcome
    exact ⟨hpass, by simp⟩
  | none =>
    rw [herror] at houtcome
    obtain ⟨rfl, hfilled⟩ : rc = (cellCount t options customFunc l : ℤ) ∧ _ := houtcome
    refine ⟨hpass, fun _ => ?_⟩
    rw [Option.getD_some] at hfilled
    change filled = if cellCount t options customFunc l ≤ cap then
      decomposedCells t options (inputValues customFunc l) ++
        buffer.drop (cellCount t options customFunc l)
      else _ at hfilled
    have hlength : (decomposedCells t options (inputValues customFunc l)).length =
        cellCount t options customFunc l := decomposedCells_length _ _ _
    by_cases hfits : cellCount t options customFunc l ≤ cap
    · rw [if_pos hfits] at hfilled
      refine ⟨?_, fun _ => hfilled⟩
      rw [hfilled, List.drop_append, List.drop_of_length_le (by omega), List.nil_append, hlength,
        List.drop_drop, Nat.add_sub_cancel' hfits]
    · rw [if_neg hfits] at hfilled
      refine ⟨?_, fun h => absurd h hfits⟩
      have htake : ((cellsOf t options (inputValues customFunc l)).take cap).length = cap :=
        List.length_take_of_le (by unfold cellCount at hfits; omega)
      rw [hfilled, List.drop_append, htake, Nat.sub_self, List.drop_zero,
        List.drop_of_length_le htake.le, List.nil_append]

end Buffers

/-- Every call for a text returns the same count or error code, whatever the buffer, and finds no
fault; with a count it has written nothing behind the room it was told of. With room for that count
the cells can be encoded in their own storage, and one spare byte is enough. The bytes are those
that `utf8proc_map_custom` delivers; where a pass fails this call fails with the same code. -/
theorem caller_buffers {rt : Runtime} (tables : OptionTables rt.data) {options : Utf8procOption}
    {mem : List UInt8} {strlen : ℤ} (readable : Readable options mem strlen)
    (customFunc : Option (ℤ → ℤ)) {l : List UInt8} (hl : inputText options mem strlen = l)
    {count : ℤ} (hcount : count = needed rt.platform rt.data options customFunc l)
    {bytes : List UInt8} (hbytes : bytes = mappedBytes rt.data options customFunc l) :
    ∀ (buffer : List ℤ) (cap : ℕ), cap ≤ buffer.length →
      ∃ filled, utf8procDecomposeCustom rt.platform rt.data mem strlen (some buffer) cap options
          customFunc = .ok (count, filled) ∧
        (count < 0 → ∀ heap, utf8procMapCustom rt heap mem strlen options customFunc =
          .ok (count, none, heap)) ∧
        (0 ≤ count → filled.drop cap = buffer.drop cap) ∧
        (0 ≤ count → count ≤ cap → ∀ spare : List UInt8, spare ≠ [] →
          (∃ storage, utf8procReencode rt filled spare count options =
            .ok ((bytes.length : ℤ), bytes ++ 0 :: storage)) ∧
          ∀ heap n a after, utf8procMapCustom rt heap mem strlen options customFunc =
              .ok (n, some a, after) →
            n = bytes.length ∧ ∃ block, Owned heap after a block ∧ (bytes ++ [0]) <+: block) := by
  subst hl hcount hbytes
  intro buffer cap hcap
  obtain ⟨filled, hpass, hfilled⟩ := @buffer_pass rt.platform _ tables _ _ _ readable _ _ hcap
    customFunc
  have houtcome (heap : Heap) := utf8procMapCustom_outcome tables readable heap customFunc
  refine ⟨filled, hpass, ?_⟩
  unfold needed
  generalize inputText options mem strlen = l at *
  cases herror : passError rt.platform rt.data options customFunc l with
  | some code =>
    rw [Option.getD_some]
    have hneg := passError_neg herror
    refine ⟨fun _ heap => ?_, fun h => by omega, fun h => by omega⟩
    obtain ⟨r, hr, h⟩ := houtcome heap
    unfold OptionOutcome at h
    rw [herror] at h
    obtain rfl : r = (code, none, heap) := h
    exact hr
  | none =>
    rw [Option.getD_none]
    obtain ⟨hbehind, hfits⟩ := hfilled herror
    refine ⟨fun h => by omega, fun _ => hbehind, fun _ hcount spare hspare => ⟨?_, ?_⟩⟩
    · obtain ⟨_, accepted, _, _⟩ := accepted_of_passError herror
      have hcells : ∀ v ∈ decomposedCells rt.data options (inputValues customFunc l), IsCell v :=
        fun v hv => isCell_cellsOf tables accepted v (mem_decomposedCells.mp hv)
      have hlength : (decomposedCells rt.data options (inputValues customFunc l)).length =
          cellCount rt.data options customFunc l := decomposedCells_length _ _ _
      obtain ⟨junk, _, hreencode⟩ := utf8procReencode_cells rt options hcells
        (buffer.drop (cellCount rt.data options customFunc l)) (List.length_pos_iff.mpr hspare)
      rw [hlength, ← hfits (by omega)] at hreencode
      exact ⟨junk, hreencode⟩
    · intro heap n a after h
      obtain ⟨r, hr, hoption⟩ := houtcome heap
      rw [h] at hr
      obtain rfl := Except.ok.inj hr
      obtain ⟨block, hn, hdelivered, _⟩ := hoption.delivered rfl
      exact ⟨hn, block, hdelivered.owned, hdelivered.holds⟩

/-- A retry with the count that a call without room returned, encoded in place. -/
theorem caller_buffers_acute :
    ∃ (filled : List ℤ) (storage : List UInt8),
      utf8procDecomposeCustom smallRuntime.platform smallRuntime.data [0x65, 0xCC, 0x81] 3
          (some [0, 0]) 2 utf8procCompose none = .ok (2, filled) ∧
      utf8procReencode smallRuntime filled [0] 2 utf8procCompose =
        .ok (2, 0xC3 :: 0xA9 :: 0x00 :: storage) := by
  have tables : OptionTables smallRuntime.data := acute_optionTables
  have hcount : (2 : ℤ) = needed smallRuntime.platform smallRuntime.data utf8procCompose none
      [0x65, 0xCC, 0x81] := by
    decide +kernel
  have hbytes : [0xC3, 0xA9] = mappedBytes smallRuntime.data utf8procCompose none
      [0x65, 0xCC, 0x81] := by
    decide +kernel
  obtain ⟨filled, hpass, _, _, hencode⟩ := @caller_buffers smallRuntime tables utf8procCompose
    [0x65, 0xCC, 0x81] 3 (by decide) none [0x65, 0xCC, 0x81] rfl 2 hcount [0xC3, 0xA9] hbytes [0, 0]
    2 (by decide)
  obtain ⟨⟨storage, hreencode⟩, _⟩ := hencode (by decide) (by decide) [0] (by decide)
  exact ⟨filled, storage, hpass, hreencode⟩

theorem without_of_not_hasOption {m options : Utf8procOption} (h : hasOption options m = false) :
    without m options = options := by
  have hzero : options &&& m = 0 := by simpa [hasOption] using h
  rw [without, ← UInt32.toBitVec_inj]
  rw [← UInt32.toBitVec_inj] at hzero
  ext i hi
  have hbit := congrArg (fun b : BitVec 32 => b[i]) hzero
  simp at hbit ⊢
  grind

/-- The text with a function applied to its code points; what is not decoded stays. -/
def mappedSource (f : ℤ → ℤ) (text : List UInt8) : List UInt8 :=
  encodeAll ((decode text).1.map fun c : ℕ => (f c).toNat) ++ (decode text).2

/-- A custom function that maps scalar values to scalar values does what a call without it does
for the text that is mapped before, well-formed or not. -/
theorem custom_as_source (rt : Runtime) (tables : OptionTables rt.data)
    {options : Utf8procOption} (hnull : hasOption options utf8procNullterm = false)
    (f : ℤ → ℤ) (hf : ∀ c : ℕ, IsScalar c → ∃ d : ℕ, f c = d ∧ IsScalar d) (text : List UInt8)
    (heap : Heap) :
    utf8procMapCustom rt heap text text.length options (some f) =
      utf8procMap rt heap (mappedSource f text) (mappedSource f text).length options := by
  have hwithout := without_of_not_hasOption hnull
  have hinput (l : List UInt8) : inputText options l l.length = l := by
    rw [inputText, hnull, if_neg Bool.false_ne_true, Int.toNat_natCast, List.take_length]
  have hreadable (l : List UInt8) : Readable options l l.length := by
    rw [Readable, hnull, if_neg Bool.false_ne_true, Int.toNat_natCast]
  obtain ⟨hscalar, _, hrest⟩ := decode_spec text
  have hmapped : ∀ c ∈ (decode text).1.map fun c : ℕ => (f c).toNat, IsScalar c := by
    intro d hd
    obtain ⟨c, hc, rfl⟩ := List.mem_map.mp hd
    obtain ⟨d, hd, hscalar⟩ := hf c (hscalar c hc)
    rwa [hd, Int.toNat_natCast]
  have hdecode : decode (mappedSource f text) =
      ((decode text).1.map fun c : ℕ => (f c).toNat, (decode text).2) := by
    rw [mappedSource, decode_encodeAll_append hmapped, decode_of_none hrest, List.append_nil]
  have hvalues : inputValues (some f) text = inputValues none (mappedSource f text) := by
    rw [inputValues, inputValues, hdecode, List.map_map]
    refine List.map_congr_left fun c hc => ?_
    obtain ⟨d, hd, _⟩ := hf c (hscalar c hc)
    simp [customized, hd]
  have hsame := @mapCustom_same rt tables options (mappedSource f text) text
    (mappedSource f text).length text.length none (some f) (hreadable _)
  rw [hwithout, hinput, hinput, hdecode] at hsame
  exact hsame (hreadable text) hvalues rfl heap

theorem custom_as_source_acute :
    utf8procMapCustom smallRuntime (fun _ => none) [0x62, 0xCC, 0x81, 0xFF] 4 utf8procCompose
        (some fun c => if c = 0x62 then 0x65 else c) =
      utf8procMap smallRuntime (fun _ => none) [0x65, 0xCC, 0x81, 0xFF] 4 utf8procCompose := by
  have tables : OptionTables smallRuntime.data := acute_optionTables
  have hf : ∀ c : ℕ, IsScalar c →
      ∃ d : ℕ, (if (c : ℤ) = 0x62 then 0x65 else (c : ℤ)) = d ∧ IsScalar d := by
    intro c hc
    by_cases h : (c : ℤ) = 0x62
    · exact ⟨0x65, if_pos h, by decide⟩
    · exact ⟨c, if_neg h, hc⟩
  have h := @custom_as_source smallRuntime tables utf8procCompose (by decide)
    (fun c => if c = 0x62 then 0x65 else c) hf [0x62, 0xCC, 0x81, 0xFF] (fun _ => none)
  rwa [show mappedSource (fun c => if c = 0x62 then 0x65 else c) [0x62, 0xCC, 0x81, 0xFF] =
    [0x65, 0xCC, 0x81, 0xFF] by decide +kernel] at h

end LeoUTF8.CallProtocols
