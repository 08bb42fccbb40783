import LeoUTF8.EncodingCorrectness
import LeoUTF8.TableAssumptions
import LeoUTF8.ValidatorLanguage

set_option autoImplicit false

/-!
# The transforms as a whole

The two passes, the allocation, the re-encoding and the shrinking of the result, and
what the functions of LeoUTF8Core return of it.
-/
namespace LeoUTF8.MapCorrectness
open BoundedLoop CellStorage HeapBlocks ScalarEncoding RecursiveExpansion
open EngineTables EngineDecompose EngineMap CoreFunctions
open CodePointMapping DecompositionCorrectness DecompositionPass CompositionCorrectness
open EncodingCorrectness
open TableAssumptions ValidatorLanguage

/-- The byte-length function of a transform. -/
def bytesFunction (T : Transform) (rt : Runtime) (heap : Heap) (bytes : Option (List UInt8))
    (length : ℕ) (o : Outputs) : Exec (LeoUTF8Status × Outputs × Heap) :=
  match T with
  | .nfc => leoUTF8NormalizeNFCBytes rt heap bytes length o
  | .nfd => leoUTF8NormalizeNFDBytes rt heap bytes length o
  | .caseFold => leoUTF8CaseFoldBytes rt heap bytes length o

/-- The function of a transform for NUL-terminated text. -/
def textFunction (T : Transform) (rt : Runtime) (heap : Heap) (text : Option (List UInt8))
    (o : Outputs) : Exec (LeoUTF8Status × Outputs × Heap) :=
  match T with
  | .nfc => leoUTF8NormalizeNFC rt heap text o
  | .nfd => leoUTF8NormalizeNFD rt heap text o
  | .caseFold => leoUTF8CaseFold rt heap text o

theorem bytesFunction_eq (T : Transform) (rt : Runtime) (heap : Heap)
    (bytes : Option (List UInt8)) (length : ℕ) (o : Outputs) :
    bytesFunction T rt heap bytes length o = leoUTF8MapBytes rt heap bytes length T.options o := by
  cases T <;> rfl

theorem textFunction_none (T : Transform) (rt : Runtime) (heap : Heap) (o : Outputs) :
    textFunction T rt heap none o = .ok (.invalid, o, heap) := by
  cases T <;> rfl

theorem textFunction_some (T : Transform) (rt : Runtime) (heap : Heap) (mem : List UInt8)
    (o : Outputs) :
    textFunction T rt heap (some mem) o =
      strlen mem >>= fun n => bytesFunction T rt heap (some mem) n o := by
  cases T <;> rfl

/-- The number of code points that the well-formed prefix of the input expands to. -/
def runningCount (t : Utf8procData) (T : Transform) (l : List UInt8) : ℕ :=
  (expansions t T (decode l).1).length

def resultCodes (t : Utf8procData) (T : Transform) (l : List UInt8) : List ℕ :=
  transformed t T (decode l).1

def resultBytes (t : Utf8procData) (T : Transform) (l : List UInt8) : List UInt8 :=
  encodeAll (resultCodes t T l)

/-- The heap after a success: a block that was not live, with the result and a NUL at its
beginning, no longer than what was allocated for `count` code points. -/
structure Delivered (heap after : Heap) (a : Address) (bytes : List UInt8) (count : ℕ)
    (block : List UInt8) : Prop where
  owned : Owned heap after a block
  holds : (bytes ++ [0]) <+: block
  size : block.length ≤ 4 * count + 1

def MapOutcome (rt : Runtime) (heap : Heap) (T : Transform) (l : List UInt8)
    (r : ℤ × Option Address × Heap) : Prop :=
  if rt.platform.codepointMax < runningCount rt.data T l then
    r = (utf8procErrorOverflow, none, heap)
  else if (decode l).2 = [] then
    match rt.allocator.malloc heap (4 * runningCount rt.data T l + 1) with
    | none => r = (utf8procErrorNomem, none, heap)
    | some _ => ∃ a block, r.1 = (resultBytes rt.data T l).length ∧ r.2.1 = some a ∧
        Delivered heap r.2.2 a (resultBytes rt.data T l) (runningCount rt.data T l) block
  else r = (utf8procErrorInvalidutf8, none, heap)

theorem mapSize_eq {pf : Platform} {n : ℕ} (h : n ≤ pf.codepointMax) :
    mapSize pf n = 4 * n + 1 := by
  have hlt := pf.four_mul_codepointMax_lt
  rw [mapSize, Int.toNat_natCast, Nat.mod_eq_of_lt (by omega)]
  omega

/-- The last step of the mapping gives the block back at its final size, or as it is. -/
theorem shrink_delivered (alloc : Allocator) {heap : Heap} {a : Address}
    (hfresh : heap a = none) {bytes junk : List UInt8} {count : ℕ}
    (hsize : bytes.length + 1 + junk.length = 4 * count + 1) :
    ∃ b block, (match alloc.realloc (heap.put a (bytes ++ 0 :: junk)) a (bytes.length + 1) with
        | none => (some a, heap.put a (bytes ++ 0 :: junk))
        | some newptr => (some newptr, alloc.resize (heap.put a (bytes ++ 0 :: junk)) a newptr
            (bytes ++ 0 :: junk) (bytes.length + 1))) = (some b, heap.put b block) ∧
      Delivered heap (heap.put b block) b bytes count block := by
  have hlength : (bytes ++ 0 :: junk).length = 4 * count + 1 := by
    rw [List.length_append, List.length_cons]
    omega
  have htake : (bytes ++ 0 :: junk).take (bytes.length + 1) = bytes ++ [0] := by
    rw [List.take_length_add_append]
    rfl
  cases hr : alloc.realloc (heap.put a (bytes ++ 0 :: junk)) a (bytes.length + 1) with
  | none =>
    refine ⟨a, bytes ++ 0 :: junk, rfl, ⟨hfresh, rfl⟩, ⟨junk, ?_⟩, by omega⟩
    rw [List.append_assoc]
    rfl
  | some b =>
    have hb : heap b = none := alloc.realloc_put_fresh hfresh hr
    have hresize : alloc.resize (heap.put a (bytes ++ 0 :: junk)) a b (bytes ++ 0 :: junk)
        (bytes.length + 1) = heap.put b (bytes ++ [0]) := by
      rw [alloc.resize_shrink (by rw [hlength]; omega) hfresh, htake]
    refine ⟨b, bytes ++ [0], ?_, ⟨hb, rfl⟩, List.prefix_refl _, ?_⟩
    · simp only [hresize]
    · rw [List.length_append, List.length_singleton]
      omega

theorem counting_pass {rt : Runtime} {T : Transform} {mem : List UInt8} {length : ℕ}
    (expandable : ∀ c ∈ (decode (mem.take length)).1, Expandable rt.data T c)
    (hlen : length ≤ mem.length) :
    ∃ rc cells, utf8procDecomposeCustom rt.platform rt.data mem length none 0 T.options none =
        .ok (rc, cells) ∧
      rc = if rt.platform.codepointMax < runningCount rt.data T (mem.take length) then
          utf8procErrorOverflow
        else if (decode (mem.take length)).2 = [] then
          (runningCount rt.data T (mem.take length) : ℤ)
        else utf8procErrorInvalidutf8 := by
  obtain ⟨⟨rc, cells⟩, hpass, houtcome⟩ : ∃ r,
      utf8procDecomposeCustom rt.platform rt.data mem length none (0 : ℕ) T.options none = .ok r ∧
        PassOutcome rt.platform rt.data T (mem.take length) [] 0 r :=
    utf8procDecomposeCustom_outcome hlen (Or.inl rfl) expandable
  refine ⟨rc, cells, hpass, ?_⟩
  unfold PassOutcome at houtcome
  unfold runningCount
  split_ifs at houtcome ⊢
  · exact houtcome
  · exact houtcome.1
  · exact houtcome

theorem filling_pass {rt : Runtime} {T : Transform} {mem : List UInt8} {length : ℕ}
    (expandable : ∀ c ∈ (decode (mem.take length)).1, Expandable rt.data T c)
    (hlen : length ≤ mem.length)
    (hmax : runningCount rt.data T (mem.take length) ≤ rt.platform.codepointMax)
    (hrest : (decode (mem.take length)).2 = []) {array : List ℤ}
    (harray : array.length = runningCount rt.data T (mem.take length)) :
    utf8procDecomposeCustom rt.platform rt.data mem length (some array)
        (runningCount rt.data T (mem.take length)) T.options none =
      .ok ((runningCount rt.data T (mem.take length) : ℤ),
        int32s (decomposition rt.data T (decode (mem.take length)).1)) := by
  obtain ⟨⟨rc, cells⟩, hpass, houtcome⟩ : ∃ r,
      utf8procDecomposeCustom rt.platform rt.data mem length (some array)
        (runningCount rt.data T (mem.take length)) T.options none = .ok r ∧
        PassOutcome rt.platform rt.data T (mem.take length) array
          (runningCount rt.data T (mem.take length)) r :=
    utf8procDecomposeCustom_outcome hlen (Or.inr ⟨0, rfl, by simp [harray]⟩) expandable
  unfold runningCount at *
  rw [PassOutcome, if_neg (by omega), if_pos hrest] at houtcome
  obtain ⟨rfl, hcells⟩ := houtcome
  have hcells : cells = _ := hcells le_rfl
  rw [hpass, hcells, List.drop_of_length_le (by omega), List.append_nil]

theorem decomposition_lt {t : Utf8procData} {T : Transform} {cs : List ℕ}
    (hcs : ∀ c ∈ cs, Expandable t T c ∧ IsScalar c) : ∀ c ∈ decomposition t T cs, c < 0x110000 :=
  decomposition_codes fun c hc => (expansions_isScalar hcs c hc).lt

theorem transformed_lt {t : Utf8procData} {T : Transform} {cs : List ℕ}
    (hcs : ∀ c ∈ cs, Expandable t T c ∧ IsScalar c) : ∀ c ∈ transformed t T cs, c < 0x110000 := by
  apply transformed_forall
  · exact fun _ _ _ _ _ hp => composite_lt hp
  · exact fun c hc => (expansions_isScalar hcs c hc).lt

theorem decoded {t : Utf8procData} {T : Transform} {l : List UInt8}
    (expandable : ∀ c ∈ (decode l).1, Expandable t T c) :
    ∀ c ∈ (decode l).1, Expandable t T c ∧ IsScalar c :=
  fun c hc => ⟨expandable c hc, (decode_spec l).1 c hc⟩

theorem utf8procMap_outcome {rt : Runtime} {T : Transform} (heap : Heap) {mem : List UInt8}
    {length : ℕ} (expandable : ∀ c ∈ (decode (mem.take length)).1, Expandable rt.data T c)
    (hlen : length ≤ mem.length) :
    ∃ r, utf8procMap rt heap mem length T.options = .ok r ∧
      MapOutcome rt heap T (mem.take length) r := by
  obtain ⟨rc, counted, hfirst, hrc⟩ := counting_pass expandable hlen
  rw [utf8procMap, utf8procMapCustom, hfirst, ok_bind]
  simp only
  by_cases hover : rt.platform.codepointMax < runningCount rt.data T (mem.take length)
  · rw [if_pos hover] at hrc
    refine ⟨(rc, none, heap), ?_, ?_⟩
    · rw [hrc]
      rfl
    · rw [MapOutcome, if_pos hover, hrc]
  by_cases hrest : (decode (mem.take length)).2 = []
  swap
  · rw [if_neg hover, if_neg hrest] at hrc
    refine ⟨(rc, none, heap), ?_, ?_⟩
    · rw [hrc]
      rfl
    · rw [MapOutcome, if_neg hover, if_neg hrest, hrc]
  rw [if_neg hover, if_pos hrest] at hrc
  rw [hrc, if_neg (by omega), mapSize_eq (by omega)]
  unfold MapOutcome
  simp only [hover, hrest, if_true, if_false]
  cases hmalloc : rt.allocator.malloc heap (4 * runningCount rt.data T (mem.take length) + 1) with
  | none => exact ⟨_, rfl, rfl⟩
  | some a =>
    simp only
    generalize hblock :
      rt.allocator.fresh (4 * runningCount rt.data T (mem.take length) + 1) = block
    have hlength : block.length = 4 * runningCount rt.data T (mem.take length) + 1 := by
      rw [← hblock, rt.allocator.fresh_length]
    have harray : (cells rt.platform.bigEndian block).length =
        runningCount rt.data T (mem.take length) := by
      rw [cells_length, hlength]
      omega
    have hspare : (block.drop (4 * (cells rt.platform.bigEndian block).length)).length = 1 := by
      rw [List.length_drop, harray, hlength]
      omega
    have hcount : (decomposition rt.data T (decode (mem.take length)).1).length =
        runningCount rt.data T (mem.take length) := decomposition_length _ _ _
    obtain ⟨junk, hjunk, hreencode⟩ := utf8procReencode_eq rt T
      (resultCodes rt.data T (mem.take length)) (by rw [hspare]; omega)
      (decomposition_lt (decoded expandable)) rfl
    rw [hspare, hcount] at hjunk
    rw [hcount] at hreencode
    rw [filling_pass expandable hlen (by omega) hrest harray, ok_bind]
    simp only
    rw [if_neg (by omega), hreencode, ok_bind]
    simp only [Heap.put_put, Int.toNat_natCast]
    rw [if_neg (by omega)]
    obtain ⟨b, final, hshrink, hdelivered⟩ :=
      shrink_delivered rt.allocator (rt.allocator.malloc_fresh _ _ _ hmalloc) hjunk
    cases hrealloc : rt.allocator.realloc _ a _ with
    | none =>
      rw [hrealloc] at hshrink
      obtain ⟨rfl, hheap⟩ := by simpa using hshrink
      exact ⟨_, rfl, a, final, rfl, rfl, by rw [hheap]; exact hdelivered⟩
    | some newptr =>
      rw [hrealloc] at hshrink
      obtain ⟨rfl, hheap⟩ := by simpa using hshrink
      exact ⟨_, rfl, newptr, final, rfl, rfl, by rw [hheap]; exact hdelivered⟩

def cleared (o : Outputs) : Outputs := (o.setOut none).setOutLen 0

/-- What a byte-length function returns for a readable buffer and an `out` that is not null. -/
def CallOutcome (rt : Runtime) (heap : Heap) (T : Transform) (l : List UInt8) (o : Outputs)
    (r : LeoUTF8Status × Outputs × Heap) : Prop :=
  if rt.platform.codepointMax < runningCount rt.data T l then r = (.error, cleared o, heap)
  else if (decode l).2 = [] then
    match rt.allocator.malloc heap (4 * runningCount rt.data T l + 1) with
    | none => r = (.noMemory, cleared o, heap)
    | some _ => ∃ a block after,
        r = (.ok, (o.setOut (some a)).setOutLen (resultBytes rt.data T l).length, after) ∧
          Delivered heap after a (resultBytes rt.data T l) (runningCount rt.data T l) block
  else r = (.invalid, cleared o, heap)

theorem bytesFunction_outcome {rt : Runtime} {T : Transform} (heap : Heap) {mem : List UInt8}
    {length : ℕ} {o : Outputs}
    (expandable : ∀ c ∈ (decode (mem.take length)).1, Expandable rt.data T c)
    (hlen : length ≤ mem.length) (hmax : length ≤ rt.platform.longMax) (hout : o.out ≠ none) :
    ∃ r, bytesFunction T rt heap (some mem) length o = .ok r ∧
      CallOutcome rt heap T (mem.take length) o r := by
  obtain ⟨⟨rc, mapped, after⟩, hmap, houtcome⟩ := utf8procMap_outcome heap expandable hlen
  rw [bytesFunction_eq, leoUTF8MapBytes, if_neg hout]
  simp only [leoUTF8ToUtf8procLength_ok hmax, hmap, ok_bind]
  unfold MapOutcome at houtcome
  unfold CallOutcome
  by_cases hover : rt.platform.codepointMax < runningCount rt.data T (mem.take length)
  · simp only [hover, if_true] at houtcome ⊢
    obtain ⟨rfl, rfl, rfl⟩ : rc = _ ∧ mapped = _ ∧ after = _ := by simpa using houtcome
    exact ⟨_, rfl, rfl⟩
  by_cases hrest : (decode (mem.take length)).2 = []
  swap
  · simp only [hover, hrest, if_false] at houtcome ⊢
    obtain ⟨rfl, rfl, rfl⟩ : rc = _ ∧ mapped = _ ∧ after = _ := by simpa using houtcome
    exact ⟨_, rfl, rfl⟩
  simp only [hover, hrest, if_true, if_false] at houtcome ⊢
  cases hmalloc : rt.allocator.malloc heap (4 * runningCount rt.data T (mem.take length) + 1) with
  | none =>
    rw [hmalloc] at houtcome
    obtain ⟨rfl, rfl, rfl⟩ : rc = _ ∧ mapped = _ ∧ after = _ := by simpa using houtcome
    exact ⟨_, rfl, rfl⟩
  | some _ =>
    rw [hmalloc] at houtcome
    obtain ⟨a, block, hrc, hmapped, hdelivered⟩ := houtcome
    obtain rfl : rc = _ := hrc
    obtain rfl : mapped = _ := hmapped
    refine ⟨_, if_neg (by omega), a, block, after, ?_, hdelivered⟩
    simp [Outputs.setOut, Outputs.setOutLen, Option.map_map, Function.comp_def]

theorem expandable_decode {t : Utf8procData} {T : Transform} (terminates : Terminates (entry t T))
    (l : List UInt8) : ∀ c ∈ (decode l).1, Expandable t T c :=
  fun c hc => expandable_of_terminates terminates ((decode_spec l).1 c hc).lt

/-- The call of a byte-length function on `x` succeeds with the bytes `y` at `*out`. -/
def TransformOutput (pf : Platform) (t : Utf8procData) (T : Transform) (x y : List UInt8) : Prop :=
  ∃ (alloc : Allocator) (heap after : Heap) (mem block : List UInt8) (old : Option Address)
    (oldLen : ℕ) (a : Address), x <+: mem ∧
    bytesFunction T { platform := pf, data := t, allocator := alloc } heap (some mem) x.length
        { out := some old, outLen := some oldLen } =
      .ok (.ok, { out := some (some a), outLen := some y.length }, after) ∧
    after a = some block ∧ y <+: block

/-- A successful call has expanded every code point of its input. -/
theorem expandable_of_ok {rt : Runtime} {T : Transform} {heap after : Heap} {mem : List UInt8}
    {length : ℕ} {o o' : Outputs} (hlen : length ≤ mem.length)
    (h : bytesFunction T rt heap (some mem) length o = .ok (.ok, o', after)) :
    length ≤ rt.platform.longMax ∧ o.out ≠ none ∧
      ∀ c ∈ (decode (mem.take length)).1, Expandable rt.data T c := by
  rw [bytesFunction_eq, leoUTF8MapBytes] at h
  by_cases hout : o.out = none
  · rw [if_pos hout] at h
    cases h
  rw [if_neg hout] at h
  by_cases hmax : length ≤ rt.platform.longMax
  swap
  · simp only [leoUTF8ToUtf8procLength, if_pos (show length > rt.platform.longMax by omega)] at h
    cases h
  refine ⟨hmax, hout, ?_⟩
  simp only [leoUTF8ToUtf8procLength_ok hmax] at h
  obtain ⟨⟨rc, mapped, heap'⟩, hmap, hrc⟩ := bind_eq_ok h
  have hnonneg : 0 ≤ rc := by
    by_contra hneg
    simp only [if_pos (show rc < 0 by omega)] at hrc
    have hstatus : leoUTF8StatusFromUtf8proc rc = .ok := congrArg Prod.fst (Except.ok.inj hrc)
    unfold leoUTF8StatusFromUtf8proc at hstatus
    rw [if_neg (by omega)] at hstatus
    split_ifs at hstatus
  rw [utf8procMap, utf8procMapCustom] at hmap
  obtain ⟨⟨count, cells⟩, hcount, hrest⟩ := bind_eq_ok hmap
  have hcount' : utf8procDecomposeCustom rt.platform rt.data mem length none (0 : ℕ) T.options
      none = .ok (count, cells) := hcount
  apply expandable_of_utf8procDecomposeCustom hlen (Or.inl rfl) hcount'
  by_contra hneg
  simp only [if_pos (show count < 0 by omega)] at hrest
  obtain rfl : count = rc := congrArg Prod.fst (Except.ok.inj hrest)
  omega

/-- What a successful call on the bytes `l` says about its input and its outputs. -/
structure CallSuccess (rt : Runtime) (heap : Heap) (T : Transform) (l : List UInt8)
    (o o' : Outputs) (after : Heap) : Prop where
  expandable : ∀ c ∈ (decode l).1, Expandable rt.data T c
  valid : WellFormed l
  count : runningCount rt.data T l ≤ rt.platform.codepointMax
  out : o.out ≠ none
  delivered : ∃ a block, o' = (o.setOut (some a)).setOutLen (resultBytes rt.data T l).length ∧
    Delivered heap after a (resultBytes rt.data T l) (runningCount rt.data T l) block

theorem bytesFunction_success {rt : Runtime} {T : Transform} {heap after : Heap}
    {mem : List UInt8} {length : ℕ} {o o' : Outputs} (hlen : length ≤ mem.length)
    (h : bytesFunction T rt heap (some mem) length o = .ok (.ok, o', after)) :
    CallSuccess rt heap T (mem.take length) o o' after := by
  obtain ⟨hmax, hout, hexp⟩ := expandable_of_ok hlen h
  obtain ⟨r, hr, houtcome⟩ := bytesFunction_outcome heap hexp hlen hmax hout
  rw [h] at hr
  obtain rfl := Except.ok.inj hr
  unfold CallOutcome at houtcome
  split_ifs at houtcome with hover hrest
  · simp at houtcome
  · cases hmalloc : rt.allocator.malloc heap (4 * runningCount rt.data T (mem.take length) + 1) with
    | none => simp [hmalloc] at houtcome
    | some _ =>
      simp only [hmalloc] at houtcome
      obtain ⟨a, block, after', heq, hdelivered⟩ := houtcome
      obtain ⟨rfl, rfl⟩ : o' = _ ∧ after = after' := by simpa using heq
      exact ⟨hexp, wellFormed_iff_decode.mpr hrest, by omega, hout, a, block, rfl, hdelivered⟩
  · simp at houtcome

theorem TransformOutput.result {pf : Platform} {t : Utf8procData} {T : Transform}
    {x y : List UInt8} (h : TransformOutput pf t T x y) :
    WellFormed x ∧ (∀ c ∈ (decode x).1, Expandable t T c) ∧ y = resultBytes t T x := by
  obtain ⟨alloc, heap, after, mem, block, old, oldLen, a, hx, hcall, hblock, hy⟩ := h
  have htake : mem.take x.length = x := (List.prefix_iff_eq_take.mp hx).symm
  have hsuccess := bytesFunction_success hx.length_le hcall
  rw [htake] at hsuccess
  obtain ⟨b, final, houtputs, hdelivered⟩ := hsuccess.delivered
  refine ⟨hsuccess.valid, hsuccess.expandable, ?_⟩
  obtain ⟨rfl, hlen⟩ : a = b ∧ y.length = (resultBytes t T x).length := by
    simpa [Outputs.setOut, Outputs.setOutLen] using houtputs
  obtain rfl : block = final := by
    have hlive := hdelivered.owned.live
    rw [hblock] at hlive
    exact Option.some.inj hlive
  have hp := (List.prefix_append _ [0]).trans hdelivered.holds
  exact (List.prefix_of_prefix_length_le hy hp hlen.le).eq_of_length hlen

theorem TransformOutput.codes {pf : Platform} {t : Utf8procData} {T : Transform}
    {x y : List UInt8} (h : TransformOutput pf t T x y) :
    ∃ cs, (∀ c ∈ cs, Expandable t T c ∧ IsScalar c) ∧ x = encodeAll cs ∧
      y = encodeAll (transformed t T cs) := by
  obtain ⟨hvalid, hexp, hy⟩ := h.result
  obtain ⟨_, hx, _⟩ := decode_spec x
  rw [wellFormed_iff_decode.mp hvalid, List.append_nil] at hx
  exact ⟨(decode x).1, decoded hexp, hx, hy⟩

/-- Valid input within the limits is transformed, given memory. -/
theorem bytesFunction_succeeds {rt : Runtime} {T : Transform} (heap : Heap) {mem : List UInt8}
    {length : ℕ} {o : Outputs}
    (expandable : ∀ c ∈ (decode (mem.take length)).1, Expandable rt.data T c)
    (hlen : length ≤ mem.length) (hmax : length ≤ rt.platform.longMax) (hout : o.out ≠ none)
    (hvalid : WellFormed (mem.take length))
    (hcount : runningCount rt.data T (mem.take length) ≤ rt.platform.codepointMax)
    (hmalloc : rt.allocator.malloc heap (4 * runningCount rt.data T (mem.take length) + 1) ≠ none) :
    ∃ o' after, bytesFunction T rt heap (some mem) length o = .ok (.ok, o', after) := by
  obtain ⟨r, hr, houtcome⟩ := bytesFunction_outcome heap expandable hlen hmax hout
  obtain ⟨b, hb⟩ := Option.ne_none_iff_exists'.mp hmalloc
  rw [CallOutcome, if_neg (by omega), if_pos (wellFormed_iff_decode.mp hvalid), hb] at houtcome
  obtain ⟨a, block, after, rfl, _⟩ := houtcome
  exact ⟨_, after, hr⟩

theorem transformOutput_of_wellFormed {pf : Platform} {t : Utf8procData} {T : Transform}
    {x : List UInt8} (hx : WellFormed x) (hmax : x.length ≤ pf.longMax)
    (expandable : ∀ c ∈ (decode x).1, Expandable t T c)
    (hcount : runningCount t T x ≤ pf.codepointMax) :
    TransformOutput pf t T x (resultBytes t T x) := by
  have htake : x.take x.length = x := List.take_length
  obtain ⟨o', after, hcall⟩ : ∃ o' after,
      bytesFunction T { platform := pf, data := t, allocator := .single } (fun _ => none)
        (some x) x.length { out := some none, outLen := some 0 } = .ok (.ok, o', after) :=
    bytesFunction_succeeds _ (by rwa [htake]) le_rfl hmax (by simp) (by rwa [htake])
      (by rwa [htake]) (by simp [Allocator.single])
  have hsuccess := bytesFunction_success le_rfl hcall
  rw [htake] at hsuccess
  obtain ⟨a, block, rfl, hdelivered⟩ := hsuccess.delivered
  exact ⟨.single, fun _ => none, after, x, block, none, 0, a, List.prefix_refl x, hcall,
    hdelivered.owned.live, (List.prefix_append _ [0]).trans hdelivered.holds⟩

/-- A 32-bit target with the small table and one block of memory. -/
def smallRuntime : Runtime :=
  { platform := .leopardPPC, data := acuteData, allocator := .single }

theorem acute_transformOutput {T : Transform} {x y : List UInt8} (cs : List ℕ)
    (h : (∀ c ∈ cs, IsScalar c) ∧ x = encodeAll cs ∧ y = encodeAll (transformed acuteData T cs) ∧
      x.length ≤ Platform.leopardPPC.longMax ∧
      (expansions acuteData T cs).length ≤ Platform.leopardPPC.codepointMax) :
    TransformOutput .leopardPPC acuteData T x y := by
  obtain ⟨hcs, rfl, hy, hmax, hcount⟩ := h
  have hdecode := decode_encodeAll hcs
  have h := transformOutput_of_wellFormed (T := T) ⟨cs, hcs, rfl⟩ hmax
    (expandable_decode (acute_terminates T) _)
    (by rwa [runningCount, hdecode])
  rwa [resultBytes, resultCodes, hdecode, ← hy] at h

theorem acute_composed :
    TransformOutput .leopardPPC acuteData .nfc [0x65, 0xCC, 0x81] [0xC3, 0xA9] :=
  acute_transformOutput [0x65, 0x301] (by decide +kernel)

theorem acute_decomposed :
    TransformOutput .leopardPPC acuteData .nfd [0xC3, 0xA9] [0x65, 0xCC, 0x81] :=
  acute_transformOutput [0xE9] (by decide +kernel)

end LeoUTF8.MapCorrectness
