import LeoUTF8.CodepointCounting
import LeoUTF8.MapCorrectness

set_option autoImplicit false

/-! # The bytes that a successful transform returns -/
namespace LeoUTF8.OutputEncoding
open BoundedLoop CellStorage HeapBlocks ScalarEncoding
open EngineTables EngineDecompose EngineCompose EngineMap CoreFunctions
open CodePointMapping DecompositionCorrectness DecompositionPass CompositionCorrectness
open TableAssumptions EncodingCorrectness ValidatorLanguage CodepointCounting MapCorrectness
open StarterComposition

theorem hangulComposite_isScalar {a b p : ℕ} (h : hangulComposite a b = some p) : IsScalar p := by
  unfold hangulComposite IsHangulSyllable at h
  unfold IsScalar
  split_ifs at h <;>
  · obtain rfl := Option.some.inj h
    omega

theorem composite_isScalar {t : Utf8procData} (scalars : ScalarComposites t) {a b p : ℕ}
    (h : composite t a b = some p) : IsScalar p := by
  rcases Option.or_eq_some_iff.mp h with h | ⟨_, h⟩
  · exact hangulComposite_isScalar h
  · exact scalars a b p (tableComposite_listed h)

theorem transformed_isScalar {t : Utf8procData} (scalars : ScalarComposites t) {T : Transform}
    {cs : List ℕ} (hcs : ∀ c ∈ cs, Expandable t T c ∧ IsScalar c) :
    ∀ c ∈ transformed t T cs, IsScalar c := by
  apply transformed_forall
  · exact fun _ _ _ _ _ hp => composite_isScalar scalars hp
  · exact expansions_isScalar hcs

/-- From the counted array to the encoded bytes: the filling pass and the composition leave
`codes` in the cells, and the encoding loop reads each cell before it is overwritten. -/
def EncodedInPlace (rt : Runtime) (T : Transform) (mem : List UInt8) (length count : ℕ)
    (codes : List ℕ) : Prop :=
  ∀ array : List ℤ, array.length = count → ∃ filled gap,
    utf8procDecomposeCustom rt.platform rt.data mem length (some array) count T.options none =
      .ok ((count : ℤ), filled) ∧
    utf8procNormalizeUtf32 rt.data filled count T.options =
      .ok ((codes.length : ℤ), int32s codes ++ gap) ∧
    ∀ spare : List UInt8, spare ≠ [] → ∀ n s,
      Reaches (reencodeBody rt.platform.bigEndian codes.length T.options)
        { rpos := 0, wpos := 0
          storage := storageOf rt.platform.bigEndian (int32s codes ++ gap) ++ spare } n s →
      s.rpos = n ∧ ∀ i (h : i < codes.length), s.rpos ≤ i →
        loadCell rt.platform.bigEndian s.storage i = .ok (codes[i] : ℤ)

theorem encodedInPlace {rt : Runtime} {T : Transform} {mem : List UInt8} {length : ℕ}
    (expandable : ∀ c ∈ (decode (mem.take length)).1, Expandable rt.data T c)
    (hlen : length ≤ mem.length) (hvalid : WellFormed (mem.take length))
    (hcount : runningCount rt.data T (mem.take length) ≤ rt.platform.codepointMax) :
    EncodedInPlace rt T mem length (runningCount rt.data T (mem.take length))
      (resultCodes rt.data T (mem.take length)) := by
  intro array harray
  have hlt := decomposition_lt (decoded expandable)
  have hlength : (decomposition rt.data T (decode (mem.take length)).1).length =
      runningCount rt.data T (mem.take length) := decomposition_length _ _ _
  have hcodes : ∀ c ∈ resultCodes rt.data T (mem.take length), c < 0x110000 :=
    transformed_lt (decoded expandable)
  obtain ⟨gap, _, hnormalize⟩ := utf8procNormalizeUtf32_eq rt.data T hlt
  rw [hlength] at hnormalize
  refine ⟨_, gap, filling_pass expandable hlen hcount (wellFormed_iff_decode.mp hvalid) harray,
    hnormalize, ?_⟩
  intro spare hspare n s hreaches
  have hold := holds_storageOf rt.platform.bigEndian gap (List.length_pos_iff.mpr hspare) hcodes
  obtain ⟨_, hencoded⟩ := reaches_encoded T hold hreaches
  refine ⟨hencoded.rpos, fun i hi hn => ?_⟩
  exact loadCell_of_encoded hold hencoded hi (by rwa [← hencoded.rpos])

/-- `*out` holds the encodings of the computed code points and a terminator, inside a block
whose size does not wrap, and both scanners read those code points back. -/
structure OutputEncoded (rt : Runtime) (codes : List ℕ) (count : ℕ) (outLen : ℕ)
    (block : List UInt8) : Prop where
  outLen_eq : outLen = (encodeAll codes).length
  holds : (encodeAll codes ++ [0]) <+: block
  terminator : block[outLen]? = some 0
  inside : outLen < mapSize rt.platform count
  no_wrap : mapSize rt.platform count = 4 * count + 1
  decodes : decode (block.take outLen) = (codes, [])
  validates : leoUTF8ValidateBytes rt.platform (some block) outLen = .ok .ok
  counts : ∀ old, leoUTF8CodepointCountBytes rt.platform (some block) outLen (some old) =
    .ok (.ok, some codes.length)

theorem outputEncoded {rt : Runtime} {codes : List ℕ} {count : ℕ} {block : List UInt8}
    (hcodes : ∀ c ∈ codes, IsScalar c) (hcount : count ≤ rt.platform.codepointMax)
    (hle : codes.length ≤ count) (holds : (encodeAll codes ++ [0]) <+: block) :
    OutputEncoded rt codes count (encodeAll codes).length block := by
  obtain ⟨junk, rfl⟩ := holds
  have hbytes := encodeAll_length_le codes
  have htake :
      (encodeAll codes ++ [0] ++ junk).take (encodeAll codes).length = encodeAll codes := by
    rw [List.append_assoc, List.take_left]
  have hlen : (encodeAll codes).length ≤ (encodeAll codes ++ [0] ++ junk).length := by
    rw [List.append_assoc, List.length_append]
    omega
  have hmax : (encodeAll codes).length ≤ rt.platform.longMax := by
    have hssize := rt.platform.longMax_eq
    unfold Platform.codepointMax at hcount
    omega
  have hvalid : validity (encodeAll codes) = .ok := validity_eq_ok.mpr ⟨codes, hcodes, rfl⟩
  refine ⟨rfl, ⟨junk, rfl⟩, ?_, ?_, mapSize_eq hcount, ?_, ?_, ?_⟩
  · rw [List.append_assoc, List.getElem?_append_right (le_refl _), Nat.sub_self]
    rfl
  · rw [mapSize_eq hcount]
    omega
  · rw [htake, decode_encodeAll hcodes]
  · rw [leoUTF8ValidateBytes_eq hlen hmax, htake, hvalid]
  · intro old
    rw [leoUTF8CodepointCountBytes_eq hlen hmax, htake, hvalid, decode_encodeAll hcodes]
    rfl

theorem resultCodes_length_le (t : Utf8procData) (T : Transform) (l : List UInt8) :
    (resultCodes t T l).length ≤ runningCount t T l := by
  rw [runningCount, ← decomposition_length t T]
  unfold resultCodes transformed
  split_ifs
  · exact compose_length_le _ _ _
  · exact le_refl _

/-- Every successful call computes code points, encodes them in place and returns them. -/
theorem bytesFunction_output (rt : Runtime) (T : Transform) (heap after : Heap)
    (mem : List UInt8) (length : ℕ) (o o' : Outputs) (hlen : length ≤ mem.length)
    (scalars : ScalarComposites rt.data)
    (hcall : bytesFunction T rt heap (some mem) length o = .ok (.ok, o', after)) :
    ∃ codes count a block outLen,
      codes = transformed rt.data T (decode (mem.take length)).1 ∧
      count = (decomposition rt.data T (decode (mem.take length)).1).length ∧
      EncodedInPlace rt T mem length count codes ∧
      o' = (o.setOut (some a)).setOutLen outLen ∧ after a = some block ∧
      OutputEncoded rt codes count outLen block := by
  have hsuccess := bytesFunction_success hlen hcall
  obtain ⟨a, block, houtputs, hdelivered⟩ := hsuccess.delivered
  have hscalar : ∀ c ∈ resultCodes rt.data T (mem.take length), IsScalar c :=
    transformed_isScalar scalars (decoded hsuccess.expandable)
  refine ⟨resultCodes rt.data T (mem.take length), runningCount rt.data T (mem.take length), a,
    block, (resultBytes rt.data T (mem.take length)).length, rfl,
    (decomposition_length _ _ _).symm, ?_, houtputs, hdelivered.owned.live, ?_⟩
  · exact encodedInPlace hsuccess.expandable hlen hsuccess.valid hsuccess.count
  · exact outputEncoded hscalar hsuccess.count (resultCodes_length_le _ _ _) hdelivered.holds

theorem bytesFunction_output_acute :
    ∃ codes count a block outLen o', codes = [0xE9] ∧ count = 2 ∧
      o' = ({ out := some (some a), outLen := some outLen } : Outputs) ∧
      OutputEncoded smallRuntime codes count outLen block := by
  have hvalid : WellFormed ([0x65, 0xCC, 0x81] : List UInt8) :=
    ⟨[0x65, 0x301], by decide, by decide⟩
  obtain ⟨o', after, hcall⟩ : ∃ o' after, bytesFunction .nfc smallRuntime (fun _ => none)
      (some [0x65, 0xCC, 0x81]) 3 { out := some none, outLen := some 0 } = .ok (.ok, o', after) :=
    bytesFunction_succeeds _ (expandable_decode (acute_terminates .nfc) _) (by decide) (by decide)
      (by simp) hvalid (by decide +kernel) (by simp [smallRuntime, Allocator.single])
  obtain ⟨codes, count, a, block, outLen, hcodes, hcount, _, ho, _, hblock⟩ :=
    bytesFunction_output smallRuntime .nfc (fun _ => none) after [0x65, 0xCC, 0x81] 3 _ o'
      (by decide) acute_scalarComposites hcall
  refine ⟨codes, count, a, block, outLen, o', ?_, ?_, ho, hblock⟩
  · rw [hcodes]
    decide +kernel
  · rw [hcount]
    decide +kernel

end LeoUTF8.OutputEncoding
