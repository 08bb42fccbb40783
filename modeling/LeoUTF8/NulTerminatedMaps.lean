import LeoUTF8.EngineInterface
import LeoUTF8.FailureOutputs
import LeoUTF8.NulBoundaries
import LeoUTF8.NeutralOptions

set_option autoImplicit false

/-!
# NUL-terminated text

`UTF8PROC_NULLTERM` ends a text at its first NUL and changes nothing else: a call returns what
it returns for the length of the text without the option.
-/
namespace LeoUTF8.NulTerminatedMaps
open BoundedLoop CellStorage HeapBlocks ScalarEncoding EngineTables EngineDecompose EngineCompose
open EngineMap EngineInterface RecursiveExpansion CodePointMapping DecompositionCorrectness
open TableAssumptions MapCorrectness OptionMapping OptionPass NewlineNormalization OptionEncoding
open ReferenceMapping NeutralOptions OptionMaps CoreFunctions ValidatorLanguage NulBoundaries
open FailureOutputs

theorem nullterm_kept (flags : Utf8procOption) (h : ~~~ utf8procNullterm &&& flags = flags)
    (options : Utf8procOption) :
    hasOption (without utf8procNullterm options) flags = hasOption options flags :=
  hasOption_kept h options

section Values

variable {t : Utf8procData} (tables : OptionTables t) (options : Utf8procOption)

theorem marked_without (state : ℕ) (is : List Item) :
    marked t state (is.map (itemWithout utf8procNullterm)) = marked t state is := by
  have hone (state : ℕ) (i : Item) :
      markOne t state (itemWithout utf8procNullterm i) = markOne t state i := by
    simp only [markOne, itemWithout, nullterm_kept utf8procCharbound (by decide)]
    rfl
  induction is generalizing state with
  | nil => rfl
  | cons i is ih => rw [List.map_cons, marked, marked, hone, ih]

theorem invalidOptions_without :
    InvalidOptions (without utf8procNullterm options) ↔ InvalidOptions options := by
  simp only [InvalidOptions, nullterm_kept utf8procCompose (by decide),
    nullterm_kept EngineTables.utf8procDecompose (by decide),
    nullterm_kept utf8procStripmark (by decide)]

include tables

theorem cellsOf_without {us : List ℤ} (accepted : ∀ uc ∈ us, ¬ Refused t options uc) :
    cellsOf t (without utf8procNullterm options) us = cellsOf t options us := by
  rw [cellsOf, allItems_without neutral_nullterm tables accepted, marked_without]
  rfl

theorem decomposedCells_without {us : List ℤ} (accepted : ∀ uc ∈ us, ¬ Refused t options uc) :
    decomposedCells t (without utf8procNullterm options) us = decomposedCells t options us := by
  simp only [decomposedCells, canonical_without neutral_nullterm,
    cellsOf_without tables options accepted]

theorem passError_without (pf : Platform) (customFunc : Option (ℤ → ℤ)) (l : List UInt8) :
    passError pf t (without utf8procNullterm options) customFunc l =
      passError pf t options customFunc l := by
  have hrefused := refused_without neutral_nullterm t options
  have haccepted : acceptedValues t (without utf8procNullterm options) (inputValues customFunc l) =
      acceptedValues t options (inputValues customFunc l) := by
    simp only [acceptedValues, hrefused]
  have hprefix : ∀ uc ∈ acceptedValues t options (inputValues customFunc l),
      ¬ Refused t options uc := by
    intro uc huc
    simpa using List.mem_takeWhile_imp huc
  have hcells := cellsOf_without tables options hprefix
  simp only [passError, invalidOptions_without, hrefused, haccepted, hcells]

end Values

/-- The loops behind the decomposition do not look at the option. -/
theorem utf8procReencode_without (rt : Runtime) (buffer : List ℤ) (spare : List UInt8) (length : ℤ)
    (options : Utf8procOption) :
    utf8procReencode rt buffer spare length (without utf8procNullterm options) =
      utf8procReencode rt buffer spare length options := by
  have hbody (length : ℤ) :
      reencodeBody rt.platform.bigEndian length (without utf8procNullterm options) =
      reencodeBody rt.platform.bigEndian length options := by
    funext s
    simp only [reencodeBody, nullterm_kept utf8procCharbound (by decide)]
  have hnlf (length : ℤ) :
      nlfBody length (without utf8procNullterm options) = nlfBody length options := by
    funext s
    simp only [nlfBody, nlfReplacement, nullterm_kept utf8procStripcc (by decide),
      nullterm_kept utf8procNlf2ls (by decide),
      nullterm_kept utf8procNlf2ps (by decide)]
  simp only [utf8procReencode, utf8procNormalizeUtf32, hbody, hnlf,
    nullterm_kept utf8procCompose (by decide),
    nullterm_kept (utf8procNlf2ls ||| utf8procNlf2ps ||| utf8procStripcc) (by decide)]

section Calls

variable {rt : Runtime} (tables : OptionTables rt.data) {options : Utf8procOption}

include tables in
/-- Two calls for the same values, of which one finds the end of its text by the option. -/
theorem mapCustom_same {mem mem' : List UInt8} {strlen strlen' : ℤ}
    {customFunc customFunc' : Option (ℤ → ℤ)} (readable : Readable options mem strlen)
    (readable' : Readable (without utf8procNullterm options) mem' strlen')
    (hvalues : inputValues customFunc'
        (inputText (without utf8procNullterm options) mem' strlen') =
      inputValues customFunc (inputText options mem strlen))
    (hrest : (decode (inputText (without utf8procNullterm options) mem' strlen')).2 =
      (decode (inputText options mem strlen)).2) (heap : Heap) :
    utf8procMapCustom rt heap mem' strlen' (without utf8procNullterm options) customFunc' =
      utf8procMapCustom rt heap mem strlen options customFunc := by
  refine mapCustom_congr tables readable readable'
    (fun buffer spare length => utf8procReencode_without rt buffer spare length options) ?_ ?_ heap
  · rw [passError_without tables, passError, passError, hvalues, hrest]
  · intro herror
    obtain ⟨_, accepted, _, _⟩ := accepted_of_passError herror
    rw [hvalues, decomposedCells_without tables options accepted]

include tables in
theorem mapCustom_bare (hnull : hasOption options utf8procNullterm = true) {text : List UInt8}
    (htext : 0 ∉ text) (rest : List UInt8) (strlen : ℤ) (heap : Heap)
    (customFunc : Option (ℤ → ℤ)) {mem : List UInt8} (hmem : text <+: mem) :
    utf8procMapCustom rt heap (text ++ 0 :: rest) strlen options customFunc =
      utf8procMapCustom rt heap mem text.length (without utf8procNullterm options) customFunc := by
  have htext : inputText (without utf8procNullterm options) mem text.length =
      inputText options (text ++ 0 :: rest) strlen := by
    rw [inputText, inputText, hasOption_without, if_neg Bool.false_ne_true, if_pos hnull,
      Int.toNat_natCast, LineCutting.takeWhile_line htext]
    exact (List.prefix_iff_eq_take.mp hmem).symm
  refine (mapCustom_same tables ?_ ?_ (by rw [htext]) (by rw [htext]) heap).symm
  · rw [Readable, if_pos hnull]
    simp
  · rw [Readable, hasOption_without, if_neg Bool.false_ne_true]
    exact hmem.length_le

end Calls

/-- The length that is given, the bytes behind the first NUL and the option itself do not matter:
a call returns what it returns for the bare text and its length. -/
theorem nullterm_as_length (rt : Runtime) (tables : OptionTables rt.data)
    (options : Utf8procOption) (hnull : hasOption options utf8procNullterm = true)
    (text : List UInt8) (htext : 0 ∉ text) (rest : List UInt8) (strlen : ℤ) (heap : Heap)
    (customFunc : Option (ℤ → ℤ)) :
    utf8procMapCustom rt heap (text ++ 0 :: rest) strlen options customFunc =
      utf8procMapCustom rt heap text text.length (without utf8procNullterm options) customFunc :=
  mapCustom_bare tables hnull htext rest strlen heap customFunc (List.prefix_refl text)

theorem nullterm_as_length_acute :
    utf8procMapCustom smallRuntime (fun _ => none) [0x65, 0xCC, 0x81, 0x00, 0x41] 2 compatFold
        none =
      utf8procMapCustom smallRuntime (fun _ => none) [0x65, 0xCC, 0x81] 3
        (utf8procCompose ||| utf8procCompat ||| utf8procCasefold) none :=
  nullterm_as_length smallRuntime acute_optionTables compatFold (by decide) [0x65, 0xCC, 0x81]
    (by decide) [0x41] 2 (fun _ => none) none

/-- What a call of a function of LeoUTF8Core shows of the call of utf8proc behind it. -/
theorem leoUTF8MapBytes_of_map {rt : Runtime} {heap after : Heap} {mem : List UInt8}
    {length : ℕ} {options : Utf8procOption} {o : Outputs} {rc : ℤ} {ptr : Option Address}
    (hmax : length ≤ rt.platform.longMax) (hout : o.out ≠ none)
    (h : utf8procMap rt heap mem length options = .ok (rc, ptr, after)) :
    leoUTF8MapBytes rt heap (some mem) length options o =
      .ok (if rc < 0 then (leoUTF8StatusFromUtf8proc rc, cleared o, after)
        else (.ok, (o.setOut ptr).setOutLen rc.toNat, after)) := by
  rw [leoUTF8MapBytes, if_neg hout]
  simp only [leoUTF8ToUtf8procLength_ok hmax, h, ok_bind]
  split_ifs
  · rfl
  · simp [Outputs.setOut, Outputs.setOutLen, Option.map_map, Function.comp_def]

/-- One call of utf8proc stands behind both functions. -/
theorem mapNullterm_agrees {rt : Runtime} (tables : OptionTables rt.data) {T : Transform}
    {options : Utf8procOption} (hnull : hasOption options utf8procNullterm = true)
    (hoptions : without utf8procNullterm options = T.options) {text : List UInt8} (htext : 0 ∉ text)
    (hmax : text.length ≤ rt.platform.longMax) (rest : List UInt8) (heap : Heap) {o : Outputs}
    (hout : o.out ≠ none) :
    ∃ ptr after status o', mapNullterm rt heap (text ++ 0 :: rest) options = .ok (ptr, after) ∧
      textFunction T rt heap (some (text ++ 0 :: rest)) o = .ok (status, o', after) ∧
      (status = .ok ↔ ptr ≠ none) ∧ o'.out = some ptr ∧ utf8procFree after ptr = heap := by
  have hreadable : Readable T.options (text ++ 0 :: rest) text.length := by
    rw [Readable, T.hasOption_inactive utf8procNullterm (by simp), if_neg Bool.false_ne_true]
    simp
  obtain ⟨⟨rc, ptr, after⟩, hr, houtcome⟩ :=
    utf8procMapCustom_outcome tables hreadable heap none
  have hbare :=
    mapCustom_bare tables hnull htext rest 0 heap none (List.prefix_append text (0 :: rest))
  rw [hoptions, hr] at hbare
  have hcore := leoUTF8MapBytes_of_map hmax hout hr
  obtain ⟨value, hvalue⟩ := Option.ne_none_iff_exists'.mp hout
  have hstring : mapNullterm rt heap (text ++ 0 :: rest) options = .ok (ptr, after) := by
    rw [mapNullterm, utf8procMap, hbare]
    rfl
  have hcall := textFunction_eq T rt heap htext rest o
  rw [bytesFunction_eq, hcore] at hcall
  rcases houtcome.null_or_owned with ⟨hneg, rfl, rfl⟩ | ⟨a, block, hrc, rfl, howned⟩
  · rw [if_pos hneg] at hcall
    refine ⟨_, _, _, _, hstring, hcall, iff_of_false ?_ (by simp), ?_, rfl⟩
    · exact leoUTF8StatusFromUtf8proc_ne_ok hneg
    · simp [cleared, Outputs.setOut, Outputs.setOutLen, hvalue]
  · rw [if_neg (by omega)] at hcall
    refine ⟨_, _, _, _, hstring, hcall, iff_of_true rfl (by simp), ?_, ?_⟩
    · simp [Outputs.setOut, Outputs.setOutLen, hvalue]
    · rw [howned.2]
      exact Heap.free_put howned.1 block

/-- The functions of utf8proc for C strings that LeoUTF8Core has functions for. -/
def stringFunctions :
    List (Transform × (Runtime → Heap → List UInt8 → Exec (Option Address × Heap))) :=
  [(.nfd, utf8procNFD), (.nfc, utf8procNFC)]

/-- `utf8proc_NFD` and `utf8proc_NFC` return the block that the functions of LeoUTF8Core for the
same text store, at the same address and with the same heap, and a null pointer when these do
not return `ok`. Freeing what is returned restores the heap. -/
theorem stringFunctions_agree (rt : Runtime) (tables : OptionTables rt.data)
    (text : List UInt8) (htext : 0 ∉ text) (hmax : text.length ≤ rt.platform.longMax)
    (rest : List UInt8) (heap : Heap) (o : Outputs) (hout : o.out ≠ none) :
    ∀ p ∈ stringFunctions, ∃ ptr after status o',
      p.2 rt heap (text ++ 0 :: rest) = .ok (ptr, after) ∧
      textFunction p.1 rt heap (some (text ++ 0 :: rest)) o = .ok (status, o', after) ∧
      (status = .ok ↔ ptr ≠ none) ∧ o'.out = some ptr ∧ utf8procFree after ptr = heap := by
  intro p hp
  rcases List.mem_pair.mp hp with rfl | rfl
  · exact mapNullterm_agrees tables (by decide) (by decide) htext hmax rest heap hout
  · exact mapNullterm_agrees tables (by decide) (by decide) htext hmax rest heap hout

theorem stringFunctions_agree_acute :
    ∃ ptr after status o', utf8procNFC smallRuntime (fun _ => none) [0x65, 0xCC, 0x81, 0x00, 0x41] =
        .ok (ptr, after) ∧
      textFunction .nfc smallRuntime (fun _ => none) (some [0x65, 0xCC, 0x81, 0x00, 0x41])
        { out := some none, outLen := some 0 } = .ok (status, o', after) ∧
      (status = .ok ↔ ptr ≠ none) ∧ o'.out = some ptr := by
  obtain ⟨ptr, after, status, o', hstring, htext, hstatus, hptr, _⟩ :=
    stringFunctions_agree smallRuntime acute_optionTables [0x65, 0xCC, 0x81] (by decide)
      (by decide) [0x41] (fun _ => none) { out := some none, outLen := some 0 } (by decide)
      (.nfc, utf8procNFC) (by simp [stringFunctions])
  exact ⟨ptr, after, status, o', hstring, htext, hstatus, hptr⟩

end LeoUTF8.NulTerminatedMaps
