import LeoUTF8.CompositionCorrectness
import LeoUTF8.EngineMap

set_option autoImplicit false

/-!
# Re-encoding in place

The loop of `utf8proc_reencode` writes bytes over the array of code points it reads.
-/
namespace LeoUTF8.EncodingCorrectness
open BoundedLoop CellStorage ScalarEncoding EngineTables EngineCodec EngineCompose EngineMap
open RunSorting StarterComposition RecursiveExpansion CodecCorrectness CodePointMapping
open DecompositionCorrectness DecompositionPass CompositionCorrectness

/-- The code points that a transform computes. -/
def transformed (t : Utf8procData) (T : Transform) (cs : List ℕ) : List ℕ :=
  if T = .nfc then composition t (decomposition t T cs) else decomposition t T cs

theorem transformed_nfc (t : Utf8procData) (cs : List ℕ) :
    transformed t .nfc cs =
      composition t (sortRuns (combiningClass t) (expansions t .nfc cs)) := rfl

theorem transformed_nfd (t : Utf8procData) (cs : List ℕ) :
    transformed t .nfd cs = sortRuns (combiningClass t) (expansions t .nfd cs) := rfl

/-- The stages of the normal forms do nothing for case folding. -/
theorem transformed_caseFold (t : Utf8procData) (cs : List ℕ) :
    transformed t .caseFold cs = expansions t .caseFold cs := rfl

/-- What holds of the expansions and of what a pair of such code points composes to. -/
theorem transformed_forall {t : Utf8procData} {T : Transform} {p : ℕ → Prop}
    (hpair : ∀ a b c, p a → p b → composite t a b = some c → p c) {cs : List ℕ}
    (h : ∀ c ∈ expansions t T cs, p c) : ∀ c ∈ transformed t T cs, p c := by
  have hdecomposition : ∀ c ∈ decomposition t T cs, p c := decomposition_codes h
  unfold transformed
  split_ifs
  · exact compose_forall _ _ hpair hdecomposition
  · exact hdecomposition

theorem utf8procNormalizeUtf32_eq (t : Utf8procData) (T : Transform) {l : List ℕ}
    (hl : ∀ c ∈ l, c < 0x110000) :
    ∃ gap, gap.length + (if T = .nfc then composition t l else l).length = l.length ∧
      utf8procNormalizeUtf32 t (int32s l) l.length T.options =
        .ok ((if T = .nfc then composition t l else l).length,
          int32s (if T = .nfc then composition t l else l) ++ gap) := by
  have hnlf :=
    T.hasOption_inactive (utf8procNlf2ls ||| utf8procNlf2ps ||| utf8procStripcc) (by simp)
  have hcompose := T.hasOption_compose
  rw [utf8procNormalizeUtf32, hnlf]
  simp only [Bool.false_eq_true, if_false, ok_bind, hcompose, beq_iff_eq, Int.toNat_natCast]
  by_cases hT : T = .nfc
  · obtain ⟨gap, hlen, hrun⟩ := compose_run t [] hl
    rw [List.append_nil, List.append_nil] at hrun
    rw [if_pos hT, if_pos hT]
    exact ⟨gap, hlen, hrun⟩
  · rw [if_neg hT, if_neg hT]
    exact ⟨[], by simp, by simp⟩

/-- `n` code points have been encoded over the beginning of the storage. -/
structure Encoded (storage : List UInt8) (codes : List ℕ) (n : ℕ) (s : ReencodeState) : Prop where
  rpos : s.rpos = n
  wpos : s.wpos = (encodeAll (codes.take n)).length
  storage : s.storage = overwrite storage 0 (encodeAll (codes.take n))

section Reencode

variable {bigEndian : Bool} {storage : List UInt8} {codes : List ℕ} {n : ℕ} {s : ReencodeState}
  (T : Transform)

/-- The storage holds the code points in its cells, and one byte more than all cells. -/
structure Holds (bigEndian : Bool) (storage : List UInt8) (codes : List ℕ) : Prop where
  room : 4 * codes.length + 1 ≤ storage.length
  cells : ∀ i (h : i < codes.length), loadCell bigEndian storage i = .ok (codes[i] : ℤ)
  codes : ∀ c ∈ codes, c < 0x110000

theorem encodeAll_take_length_le (codes : List ℕ) (n : ℕ) :
    (encodeAll (codes.take n)).length ≤ 4 * n := by
  have h := encodeAll_length_le (codes.take n)
  have hlen := List.length_take_le n codes
  omega

theorem loadCell_of_encoded (hold : Holds bigEndian storage codes) (hs : Encoded storage codes n s)
    {i : ℕ} (hi : i < codes.length) (hn : n ≤ i) :
    loadCell bigEndian s.storage i = .ok (codes[i] : ℤ) := by
  have hle := encodeAll_take_length_le codes n
  rw [hs.storage, loadCell_overwrite bigEndian (by omega), hold.cells i hi]

theorem reencodeBody_next (hold : Holds bigEndian storage codes) (hs : Encoded storage codes n s)
    (hn : n < codes.length) :
    ∃ u, reencodeBody bigEndian codes.length T.options s = .ok (.next u) ∧
      Encoded storage codes (n + 1) u := by
  have hcharbound := T.hasOption_inactive utf8procCharbound (by simp)
  have hload := loadCell_of_encoded hold hs hn le_rfl
  have hle := encodeAll_take_length_le codes n
  have hlen := encode_length_le codes[n]
  have hroom := hold.room
  have htake : encodeAll (codes.take (n + 1)) = encodeAll (codes.take n) ++ encode codes[n] := by
    rw [List.take_succ_eq_append_getElem hn, encodeAll_append, encodeAll_cons, encodeAll_nil,
      List.append_nil]
  have hstorage : s.storage.length = storage.length := by
    rw [hs.storage, overwrite_length (by omega)]
  have hstore : storeAll s.storage s.wpos (encode codes[n]) =
      .ok (overwrite storage 0 (encodeAll (codes.take (n + 1)))) := by
    rw [storeAll, if_pos (by rw [hstorage, hs.wpos]; omega), hs.storage, hs.wpos, htake]
    have hfit : 0 + (encodeAll (codes.take n)).length ≤ storage.length := by omega
    have h := overwrite_overwrite hfit (encode codes[n])
    rw [Nat.zero_add] at h
    rw [h]
  rw [reencodeBody, hs.rpos, if_pos (by omega), hload, ok_bind, hcharbound]
  simp only [Bool.false_eq_true, if_false,
    utf8procEncodeChar_eq (hold.codes _ (List.getElem_mem hn)), hstore, ok_bind]
  refine ⟨_, rfl, rfl, ?_, rfl⟩
  rw [htake, List.length_append, hs.wpos]

theorem reencodeBody_end (hs : Encoded storage codes codes.length s) :
    reencodeBody bigEndian codes.length T.options s =
      .ok (.done ((encodeAll codes).length, overwrite storage 0 (encodeAll codes))) := by
  have hwpos := hs.wpos
  have hstorage := hs.storage
  rw [List.take_length] at hwpos hstorage
  rw [reencodeBody, hs.rpos, if_neg (by omega), hwpos, hstorage]

theorem encoded_entry : Encoded storage codes 0 { rpos := 0, wpos := 0, storage := storage } :=
  ⟨rfl, rfl, by rw [List.take_zero, encodeAll_nil, overwrite_nil]⟩

theorem encoded_le {u : ReencodeState} (hs : Encoded storage codes n s) (hn : n ≤ codes.length)
    (hu : reencodeBody bigEndian codes.length T.options s = .ok (.next u)) : n < codes.length := by
  by_contra h
  obtain rfl : n = codes.length := by omega
  rw [reencodeBody_end T hs] at hu
  cases hu

theorem reaches_encoded (hold : Holds bigEndian storage codes)
    (h : Reaches (reencodeBody bigEndian codes.length T.options)
      { rpos := 0, wpos := 0, storage := storage } n s) :
    n ≤ codes.length ∧ Encoded storage codes n s := by
  apply h.invariant (fun n s => n ≤ codes.length ∧ Encoded storage codes n s)
    ⟨Nat.zero_le _, encoded_entry⟩
  rintro n u v ⟨hn, hu⟩ hv
  have hlt := encoded_le T hu hn hv
  obtain ⟨w, hw, hI⟩ := reencodeBody_next T hold hu hlt
  rw [hw] at hv
  cases hv
  exact ⟨hlt, hI⟩

theorem reencode_run (hold : Holds bigEndian storage codes) :
    run (reencodeBody bigEndian codes.length T.options) (codes.length + 1)
        { rpos := 0, wpos := 0, storage := storage } =
      .ok ((encodeAll codes).length, overwrite storage 0 (encodeAll codes)) := by
  have hprogress : Progress (reencodeBody bigEndian codes.length T.options)
      (fun s => s.rpos ≤ codes.length ∧ Encoded storage codes s.rpos s)
      (fun s => codes.length - s.rpos)
      (· = ((encodeAll codes).length, overwrite storage 0 (encodeAll codes))) := by
    rintro s ⟨hn, hs⟩
    by_cases hend : s.rpos = codes.length
    · rw [hend] at hs
      exact Or.inr ⟨_, reencodeBody_end T hs, rfl⟩
    · obtain ⟨u, hu, hI⟩ := reencodeBody_next T hold hs (by omega)
      have hrpos := hI.rpos
      refine Or.inl ⟨u, hu, ⟨by omega, by rw [hrpos]; exact hI⟩, ?_⟩
      change codes.length - u.rpos < codes.length - s.rpos
      omega
  exact run_eq hprogress ⟨Nat.zero_le _, encoded_entry⟩ (Nat.lt_succ_of_le (Nat.sub_le _ _))

end Reencode

theorem holds_storageOf (bigEndian : Bool) {codes : List ℕ} (gap : List ℤ) {spare : List UInt8}
    (hspare : 0 < spare.length) (hcodes : ∀ c ∈ codes, c < 0x110000) :
    Holds bigEndian (storageOf bigEndian (int32s codes ++ gap) ++ spare) codes := by
  have hsplit : storageOf bigEndian (int32s codes ++ gap) ++ spare =
      storageOf bigEndian (int32s codes) ++ (storageOf bigEndian gap ++ spare) := by
    rw [storageOf, List.flatMap_append, List.append_assoc]
    rfl
  rw [hsplit]
  refine ⟨?_, ?_, hcodes⟩
  · rw [List.length_append, List.length_append, storageOf_length, int32s_length]
    omega
  · intro i hi
    refine loadCell_storageOf bigEndian ?_ ?_ _
    · intro v hv
      obtain ⟨c, hc, rfl⟩ := List.mem_map.mp hv
      have := hcodes c hc
      constructor <;> omega
    · rw [int32s, List.getElem?_map, List.getElem?_eq_getElem hi]
      rfl

/-- The bytes of the transformed code points, a terminator, and the rest of the storage. -/
theorem utf8procReencode_eq (rt : Runtime) (T : Transform) {l : List ℕ} (codes : List ℕ)
    {spare : List UInt8} (hspare : 0 < spare.length) (hl : ∀ c ∈ l, c < 0x110000)
    (hcodes : codes = if T = .nfc then composition rt.data l else l) :
    ∃ junk, (encodeAll codes).length + 1 + junk.length = 4 * l.length + spare.length ∧
      utf8procReencode rt (int32s l) spare l.length T.options =
        .ok ((encodeAll codes).length, encodeAll codes ++ 0 :: junk) := by
  obtain ⟨gap, hgap, hnormalize⟩ := utf8procNormalizeUtf32_eq rt.data T hl
  rw [← hcodes] at hgap hnormalize
  have hclt : ∀ c ∈ codes, c < 0x110000 := by
    rw [hcodes]
    split_ifs
    · exact composition_lt hl
    · exact hl
  have hold : Holds rt.platform.bigEndian
      (storageOf rt.platform.bigEndian (int32s codes ++ gap) ++ spare) codes :=
    holds_storageOf _ gap hspare hclt
  have hrun := reencode_run T hold
  generalize hstorage :
    storageOf rt.platform.bigEndian (int32s codes ++ gap) ++ spare = storage at *
  have hlen : storage.length = 4 * l.length + spare.length := by
    rw [← hstorage, List.length_append, storageOf_length, List.length_append, int32s_length, ← hgap]
    omega
  have hroom := hold.room
  have hle := encodeAll_length_le codes
  -- the terminator takes the place of one more byte of the old storage
  obtain ⟨b, junk, hb⟩ : ∃ b junk, storage.drop (encodeAll codes).length = b :: junk := by
    refine List.exists_cons_of_ne_nil fun h => ?_
    have := List.drop_eq_nil_iff.mp h
    omega
  have hstore := store_append (encodeAll codes) junk b 0
  have hjunk := congrArg List.length hb
  rw [List.length_drop, List.length_cons] at hjunk
  refine ⟨junk, by omega, ?_⟩
  rw [utf8procReencode, hnormalize, ok_bind]
  simp only [hstorage, Int.toNat_natCast]
  rw [if_neg (by omega), hrun, ok_bind]
  simp only [overwrite_zero, hb, hstore, ok_bind]

end LeoUTF8.EncodingCorrectness
