import LeoUTF8.CellReordering
import LeoUTF8.EncodingCorrectness
import LeoUTF8.NewlineNormalization

set_option autoImplicit false

/-!
# Normalization and re-encoding of cells

The loops of `utf8proc_normalize_utf32` and `utf8proc_reencode` on code points with marks of
grapheme breaks among them. Composition skips the marks and does not write them.
-/
namespace LeoUTF8.OptionEncoding
open BoundedLoop CellStorage ScalarEncoding EngineTables EngineCodec EngineDecompose
open EngineCompose EngineMap RunSorting StarterComposition CodecCorrectness CodePointMapping
open DecompositionCorrectness CompositionCorrectness CellReordering NewlineNormalization

/-- The code points among the cells. -/
def codesOf (l : List ℤ) : List ℕ := (l.filter (0 ≤ ·)).map Int.toNat

theorem codesOf_cons_neg {v : ℤ} (h : v < 0) (l : List ℤ) : codesOf (v :: l) = codesOf l := by
  rw [codesOf, List.filter_cons_of_neg (by simpa using h)]
  rfl

theorem codesOf_cons_natCast (c : ℕ) (l : List ℤ) : codesOf ((c : ℤ) :: l) = c :: codesOf l := by
  rw [codesOf, List.filter_cons_of_pos (by simp), List.map_cons, Int.toNat_natCast]
  rfl

theorem codesOf_int32s (cs : List ℕ) : codesOf (int32s cs) = cs := by
  induction cs with
  | nil => rfl
  | cons c cs ih => rw [int32s_cons, codesOf_cons_natCast, ih]

def composedCells (t : Utf8procData) (l : List ℤ) : List ℤ := int32s (composition t (codesOf l))

section Compose

variable {t : Utf8procData} {tail gap rest : List ℤ} {z : Kept ℕ} {s : ComposeState}

/-- The next code point is taken from the cells behind the buffer that is done. -/
theorem compacted_take {c : ℕ} (hs : Compacted t ((c : ℤ) :: rest) z gap [] s)
    (hc : c < 0x110000) : Compacted t rest z gap [c] s := by
  refine ⟨?_, hs.wpos, hs.rpos, hs.starter, hs.cached, hs.maxClass, hs.codes, by simpa using hc⟩
  rw [hs.buffer]
  simp

theorem composeBody_mark {v : ℤ} (hv : v < 0)
    (hs : Compacted t (v :: (rest ++ tail)) z gap [] s) {length : ℕ} (hlength : s.rpos < length) :
    composeBody t length s = .ok (.next { s with rpos := s.rpos + 1 }) ∧
      Compacted t (rest ++ tail) z (gap ++ [v]) [] { s with rpos := s.rpos + 1 } := by
  have hrpos := hs.rpos
  have hload : load s.buffer s.rpos = .ok v := by
    have h := load_append_left (int32s z.codes ++ gap) (rest ++ tail) v
    rw [List.length_append, int32s_length, ← hrpos] at h
    rw [hs.buffer, ← h]
    simp
  constructor
  · rw [composeBody, if_pos (by omega), hload, ok_bind, if_pos hv]
  · refine ⟨?_, hs.wpos, ?_, hs.starter, hs.cached, hs.maxClass, hs.codes, hs.unread⟩
    · rw [hs.buffer]
      simp
    · simp only [List.length_append, List.length_singleton]
      omega

theorem composeBody_cells {z' : Kept ℕ}
    (hz' : (codesOf rest).foldl (Kept.push (combiningClass t) (composite t)) z = z')
    (hcells : ∀ v ∈ rest, IsCell v) (hs : Compacted t (rest ++ tail) z gap [] s) :
    ∃ gap', gap'.length + z'.codes.length = s.rpos + rest.length ∧
      run (composeBody t (s.rpos + rest.length : ℕ)) (rest.length + 1) s =
        .ok ((z'.codes.length : ℤ), int32s z'.codes ++ gap' ++ tail) := by
  induction rest generalizing z gap s with
  | nil =>
    obtain rfl : z = z' := hz'
    refine ⟨gap, ?_, ?_⟩
    · rw [hs.rpos, List.length_nil]
      omega
    · apply run_done
      rw [composeBody, if_neg (by simp), hs.wpos, hs.buffer]
      simp
  | cons v rest ih =>
    obtain ⟨hv, hrest⟩ := List.forall_mem_cons.mp hcells
    obtain ⟨u, gap', hu, z'', hI, hz'', hrpos⟩ : ∃ u gap',
        composeBody t (s.rpos + (v :: rest).length : ℕ) s = .ok (.next u) ∧
        ∃ z'', Compacted t (rest ++ tail) z'' gap' [] u ∧
          (codesOf rest).foldl (Kept.push (combiningClass t) (composite t)) z'' = z' ∧
          u.rpos = s.rpos + 1 := by
      by_cases hneg : v < 0
      · obtain ⟨hbody, hI⟩ := composeBody_mark hneg hs
          (show s.rpos < s.rpos + (v :: rest).length by simp)
        rw [codesOf_cons_neg hneg] at hz'
        exact ⟨_, _, hbody, z, hI, hz', rfl⟩
      · obtain ⟨c, rfl⟩ : ∃ c : ℕ, v = c := ⟨v.toNat, by omega⟩
        unfold IsCell at hv
        rw [codesOf_cons_natCast, List.foldl_cons] at hz'
        obtain ⟨u, gap', hbody, hI, hrpos⟩ := composeBody_next
          (compacted_take hs (by omega)) (s.rpos + ((c : ℤ) :: rest).length) (by simp)
        exact ⟨u, gap', hbody, _, hI, hz', hrpos⟩
    obtain ⟨gap'', hlen, hr⟩ := ih hz'' hrest hI
    have htotal : u.rpos + rest.length = s.rpos + (v :: rest).length := by
      rw [hrpos, List.length_cons]
      omega
    rw [htotal] at hlen hr
    exact ⟨gap'', hlen, (run_next hu _).trans hr⟩

end Compose

/-- The loop ends with the composition of the code points, marks left out. -/
theorem compose_cells (t : Utf8procData) (tail : List ℤ) {l : List ℤ} (hl : ∀ v ∈ l, IsCell v) :
    ∃ gap, gap.length + (composedCells t l).length = l.length ∧
      run (composeBody t l.length) (l.length + 1)
        { rpos := 0, wpos := 0, buffer := l ++ tail, starter := none,
          starterProperty := none, maxCombiningClass := -1 } =
        .ok ((composedCells t l).length, composedCells t l ++ gap ++ tail) := by
  let entry : ComposeState :=
    { rpos := 0, wpos := 0, buffer := l ++ tail, starter := none, starterProperty := none,
      maxCombiningClass := -1 }
  have hentry : Compacted t (l ++ tail) Kept.empty [] [] entry :=
    ⟨by simp [Kept.codes, Kept.empty, entry], rfl, rfl, rfl, by simp [Kept.empty], rfl,
      by simp [Kept.codes, Kept.empty], by simp⟩
  have h := composeBody_cells rfl hl hentry
  simpa [entry, composedCells, composition, compose] using h

/-- What `utf8proc_normalize_utf32` computes. -/
def normalizedCells (t : Utf8procData) (options : Utf8procOption) (l : List ℤ) : List ℤ :=
  let l := if Newlines options then newlines options l else l
  if hasOption options utf8procCompose then composedCells t l else l

theorem nlfReplacement_isCell (options : Utf8procOption) : IsCell (nlfReplacement options) := by
  unfold nlfReplacement IsCell
  split_ifs <;> omega

theorem joinCrlf_subset (l : List ℤ) : joinCrlf l ⊆ l := by
  induction l using joinCrlf.induct with
  | case1 => simp [joinCrlf]
  | case2 uc => simp [joinCrlf]
  | case3 uc next rest h ih =>
    rw [joinCrlf, if_pos h]
    exact List.cons_subset_cons _ fun v hv => List.mem_cons_of_mem _ (ih hv)
  | case4 uc next rest h ih =>
    rw [joinCrlf, if_neg h]
    exact List.cons_subset_cons _ ih

theorem newlines_isCell (options : Utf8procOption) {l : List ℤ} (hl : ∀ v ∈ l, IsCell v) :
    ∀ v ∈ newlines options l, IsCell v := by
  intro v hv
  obtain ⟨u, hu, hv⟩ := List.mem_flatMap.mp hv
  unfold newlineCell at hv
  split_ifs at hv
  · rw [List.mem_singleton.mp hv]
    exact nlfReplacement_isCell options
  · rw [List.mem_singleton.mp hv]
    unfold IsCell
    omega
  · cases hv
  · rw [List.mem_singleton.mp hv]
    exact hl u (joinCrlf_subset l hu)

theorem composedCells_isCell {t : Utf8procData} {l : List ℤ} (hl : ∀ v ∈ l, IsCell v) :
    ∀ v ∈ composedCells t l, IsCell v := by
  have hcodes : ∀ c ∈ codesOf l, c < 0x110000 := by
    intro c hc
    obtain ⟨v, hv, rfl⟩ := List.mem_map.mp hc
    have := hl v (List.mem_of_mem_filter hv)
    unfold IsCell at this
    omega
  intro v hv
  obtain ⟨c, hc, rfl⟩ := List.mem_map.mp hv
  have := composition_lt hcodes c hc
  unfold IsCell
  omega

theorem normalizedCells_isCell (t : Utf8procData) (options : Utf8procOption) {l : List ℤ}
    (hl : ∀ v ∈ l, IsCell v) : ∀ v ∈ normalizedCells t options l, IsCell v := by
  have hnewlines : ∀ v ∈ (if Newlines options then newlines options l else l), IsCell v := by
    split_ifs
    · exact newlines_isCell options hl
    · exact hl
  unfold normalizedCells
  simp only
  by_cases hcompose : hasOption options utf8procCompose
  · rw [if_pos hcompose]
    exact composedCells_isCell hnewlines
  · rw [if_neg hcompose]
    exact hnewlines

/-- The second stage, on the cells that the first has left. -/
theorem composeStage (t : Utf8procData) (options : Utf8procOption) (tail : List ℤ) {l : List ℤ}
    (hl : ∀ v ∈ l, IsCell v) :
    ∃ gap, gap.length +
        (if hasOption options utf8procCompose then composedCells t l else l).length = l.length ∧
      (if hasOption options utf8procCompose then
        run (composeBody t l.length) ((l.length : ℤ).toNat + 1)
          { rpos := 0, wpos := 0, buffer := l ++ tail, starter := none, starterProperty := none,
            maxCombiningClass := -1 }
      else .ok ((l.length : ℤ), l ++ tail)) =
        .ok (((if hasOption options utf8procCompose then composedCells t l else l).length : ℤ),
          (if hasOption options utf8procCompose then composedCells t l else l) ++ gap ++ tail) := by
  by_cases hcompose : hasOption options utf8procCompose
  · simp only [if_pos hcompose]
    exact compose_cells t tail hl
  · simp only [if_neg hcompose]
    exact ⟨[], by simp, by simp⟩

theorem utf8procNormalizeUtf32_cells (t : Utf8procData) (options : Utf8procOption)
    (tail : List ℤ) {l : List ℤ} (hl : ∀ v ∈ l, IsCell v) :
    ∃ gap, gap.length + (normalizedCells t options l).length = l.length ∧
      utf8procNormalizeUtf32 t (l ++ tail) l.length options =
        .ok ((normalizedCells t options l).length, normalizedCells t options l ++ gap ++ tail) := by
  rw [utf8procNormalizeUtf32, normalizedCells]
  by_cases h : Newlines options
  · have h' : hasOption options (utf8procNlf2ls ||| utf8procNlf2ps ||| utf8procStripcc) := h
    obtain ⟨gap, hgap, hnewlines⟩ := newlines_run options l tail
    obtain ⟨gap', hgap', hcompose⟩ :=
      composeStage t options (gap ++ tail) (newlines_isCell options hl)
    have hrun : run (nlfBody l.length options) ((l.length : ℤ).toNat + 1)
        { rpos := 0, wpos := 0, buffer := l ++ tail } =
          .ok ((newlines options l).length, newlines options l ++ (gap ++ tail)) := by
      rw [← List.append_assoc]
      exact hnewlines
    rw [if_pos h', hrun, ok_bind, if_pos h]
    refine ⟨gap' ++ gap, ?_, ?_⟩
    · rw [List.length_append]
      omega
    · simp only [hcompose, List.append_assoc]
  · have h' : ¬ hasOption options (utf8procNlf2ls ||| utf8procNlf2ps ||| utf8procStripcc) := h
    rw [if_neg h', ok_bind, if_neg h]
    exact composeStage t options tail hl

/-- The bytes of a cell. -/
def encodeCell (options : Utf8procOption) (v : ℤ) : List UInt8 :=
  if hasOption options utf8procCharbound then charboundEncodeChar v else utf8procEncodeChar v

def encodeCells (options : Utf8procOption) (l : List ℤ) : List UInt8 :=
  l.flatMap (encodeCell options)

theorem encodeCell_length_le (options : Utf8procOption) (v : ℤ) :
    (encodeCell options v).length ≤ 4 := by
  have hplain : (utf8procEncodeChar v).length ≤ 4 := by
    rw [utf8procEncodeChar]
    simp only
    split_ifs <;> simp
  unfold encodeCell charboundEncodeChar
  split_ifs
  · simp
  · exact hplain
  · exact hplain

theorem encodeCells_take_length_le (options : Utf8procOption) (l : List ℤ) (n : ℕ) :
    (encodeCells options (l.take n)).length ≤ 4 * n := by
  induction l generalizing n with
  | nil => simp [encodeCells]
  | cons v l ih =>
    cases n with
    | zero => simp [encodeCells]
    | succ n =>
      have hv := encodeCell_length_le options v
      have hl := ih n
      simp only [encodeCells, List.take_succ_cons, List.flatMap_cons, List.length_append] at hl ⊢
      omega

theorem encodeCells_length_le (options : Utf8procOption) (l : List ℤ) :
    (encodeCells options l).length ≤ 4 * l.length := by
  have h := encodeCells_take_length_le options l l.length
  rwa [List.take_length] at h

theorem encodeCell_natCast (options : Utf8procOption) {c : ℕ} (hc : c < 0x110000) :
    encodeCell options c = encode c := by
  have hne : (c : ℤ) ≠ -1 := by omega
  rw [encodeCell, charboundEncodeChar, if_neg hne, ite_self, utf8procEncodeChar_eq hc]

/-- Code points without marks are encoded as such, whatever the options. -/
theorem encodeCells_int32s (options : Utf8procOption) {cs : List ℕ}
    (hcs : ∀ c ∈ cs, c < 0x110000) : encodeCells options (int32s cs) = encodeAll cs := by
  induction cs with
  | nil => rfl
  | cons c cs ih =>
    obtain ⟨hc, hcs⟩ := List.forall_mem_cons.mp hcs
    have hrest := ih hcs
    rw [encodeCells] at hrest
    rw [int32s_cons, encodeCells, List.flatMap_cons, encodeCell_natCast options hc, hrest,
      encodeAll_cons]

section Reencode

variable {bigEndian : Bool} {storage : List UInt8} {l : List ℤ} {options : Utf8procOption}
  {s : ReencodeState}

/-- The storage holds the cells, and at least one byte more. -/
structure HoldsCells (bigEndian : Bool) (storage : List UInt8) (l : List ℤ) : Prop where
  room : 4 * l.length + 1 ≤ storage.length
  cells : ∀ i (h : i < l.length), loadCell bigEndian storage i = .ok l[i]

/-- The cells before the cursor have been encoded over the beginning of the storage. -/
structure CellsEncoded (options : Utf8procOption) (storage : List UInt8) (l : List ℤ)
    (s : ReencodeState) : Prop where
  rpos : s.rpos ≤ l.length
  wpos : s.wpos = (encodeCells options (l.take s.rpos)).length
  storage : s.storage = overwrite storage 0 (encodeCells options (l.take s.rpos))

/-- The bytes written never reach a cell that is still to be read. -/
theorem reencodeBody_cell (hold : HoldsCells bigEndian storage l)
    (hs : CellsEncoded options storage l s) (hlt : s.rpos < l.length) :
    ∃ u, reencodeBody bigEndian l.length options s = .ok (.next u) ∧
      CellsEncoded options storage l u ∧ u.rpos = s.rpos + 1 := by
  have hle := encodeCells_take_length_le options l s.rpos
  have hlen := encodeCell_length_le options l[s.rpos]
  have hroom := hold.room
  have hload : loadCell bigEndian s.storage s.rpos = .ok l[s.rpos] := by
    rw [hs.storage, loadCell_overwrite bigEndian (by omega), hold.cells _ hlt]
  have htake : encodeCells options (l.take (s.rpos + 1)) =
      encodeCells options (l.take s.rpos) ++ encodeCell options l[s.rpos] := by
    rw [List.take_succ_eq_append_getElem hlt, encodeCells, List.flatMap_append,
      List.flatMap_singleton]
    rfl
  have hstorage : s.storage.length = storage.length := by
    rw [hs.storage, overwrite_length (by omega)]
  have hstore : storeAll s.storage s.wpos (encodeCell options l[s.rpos]) =
      .ok (overwrite storage 0 (encodeCells options (l.take (s.rpos + 1)))) := by
    rw [storeAll, if_pos (by rw [hstorage, hs.wpos]; omega), hs.storage, hs.wpos, htake]
    have hfit : 0 + (encodeCells options (l.take s.rpos)).length ≤ storage.length := by omega
    have h := overwrite_overwrite hfit (encodeCell options l[s.rpos])
    rw [Nat.zero_add] at h
    rw [h]
  have hencode : (if hasOption options utf8procCharbound then charboundEncodeChar l[s.rpos]
      else utf8procEncodeChar l[s.rpos]) = encodeCell options l[s.rpos] := rfl
  rw [reencodeBody, if_pos (by omega), hload, ok_bind]
  simp only [hencode, hstore, ok_bind]
  refine ⟨_, rfl, ⟨hlt, ?_, rfl⟩, rfl⟩
  rw [htake, List.length_append, hs.wpos]

theorem reencode_cells (options : Utf8procOption) (hold : HoldsCells bigEndian storage l) :
    run (reencodeBody bigEndian l.length options) (l.length + 1)
        { rpos := 0, wpos := 0, storage := storage } =
      .ok ((encodeCells options l).length, overwrite storage 0 (encodeCells options l)) := by
  have hprogress : Progress (reencodeBody bigEndian l.length options)
      (CellsEncoded options storage l) (fun s => l.length - s.rpos)
      (· = ((encodeCells options l).length, overwrite storage 0 (encodeCells options l))) := by
    intro s hs
    have hle := hs.rpos
    by_cases hend : s.rpos = l.length
    · have hwpos := hs.wpos
      have hstorage := hs.storage
      rw [hend, List.take_length] at hwpos hstorage
      refine Or.inr ⟨_, ?_, rfl⟩
      rw [reencodeBody, if_neg (by omega), hwpos, hstorage]
    · obtain ⟨u, hu, hI, hrpos⟩ := reencodeBody_cell hold hs (by omega)
      refine Or.inl ⟨u, hu, hI, ?_⟩
      change l.length - u.rpos < l.length - s.rpos
      omega
  refine run_eq hprogress ⟨Nat.zero_le _, rfl, ?_⟩ (Nat.lt_succ_of_le (Nat.sub_le _ _))
  simp [encodeCells, overwrite_nil]

end Reencode

theorem holdsCells_storageOf (bigEndian : Bool) {l : List ℤ} (hl : ∀ v ∈ l, IsCell v)
    (gap : List ℤ) {spare : List UInt8} (hspare : 0 < spare.length) :
    HoldsCells bigEndian (storageOf bigEndian (l ++ gap) ++ spare) l := by
  have hsplit : storageOf bigEndian (l ++ gap) ++ spare =
      storageOf bigEndian l ++ (storageOf bigEndian gap ++ spare) := by
    rw [storageOf, List.flatMap_append, List.append_assoc]
    rfl
  rw [hsplit]
  constructor
  · rw [List.length_append, List.length_append, storageOf_length]
    omega
  · intro i hi
    refine loadCell_storageOf bigEndian ?_ (List.getElem?_eq_getElem hi) _
    intro v hv
    have := hl v hv
    unfold IsCell at this
    constructor <;> omega

/-- The bytes of the normalized cells, a terminator, and the rest of the storage. -/
theorem utf8procReencode_cells (rt : Runtime) (options : Utf8procOption) {l : List ℤ}
    (hl : ∀ v ∈ l, IsCell v) (tail : List ℤ) {spare : List UInt8} (hspare : 0 < spare.length) :
    ∃ junk, (encodeCells options (normalizedCells rt.data options l)).length + 1 + junk.length =
        4 * (l ++ tail).length + spare.length ∧
      utf8procReencode rt (l ++ tail) spare l.length options =
        .ok ((encodeCells options (normalizedCells rt.data options l)).length,
          encodeCells options (normalizedCells rt.data options l) ++ 0 :: junk) := by
  obtain ⟨gap, hgap, hnormalize⟩ := utf8procNormalizeUtf32_cells rt.data options tail hl
  have hcells := normalizedCells_isCell rt.data options hl
  generalize normalizedCells rt.data options l = m at *
  have hold := holdsCells_storageOf rt.platform.bigEndian hcells (gap ++ tail) hspare
  rw [← List.append_assoc] at hold
  have hrun := reencode_cells options hold
  generalize hstorage :
    storageOf rt.platform.bigEndian (m ++ gap ++ tail) ++ spare = storage at *
  have hlen : storage.length = 4 * (l ++ tail).length + spare.length := by
    rw [← hstorage, List.length_append, storageOf_length, List.length_append, List.length_append,
      List.length_append, ← hgap]
    omega
  have hroom := hold.room
  have hle := encodeCells_length_le options m
  -- the terminator takes the place of one more byte of the old storage
  obtain ⟨b, junk, hb⟩ : ∃ b junk, storage.drop (encodeCells options m).length = b :: junk := by
    refine List.exists_cons_of_ne_nil fun h => ?_
    have := List.drop_eq_nil_iff.mp h
    omega
  have hstore := store_append (encodeCells options m) junk b 0
  have hjunk := congrArg List.length hb
  rw [List.length_drop, List.length_cons] at hjunk
  refine ⟨junk, by omega, ?_⟩
  rw [utf8procReencode, hnormalize, ok_bind]
  simp only [hstorage, Int.toNat_natCast]
  rw [if_neg (by omega), hrun, ok_bind]
  simp only [overwrite_zero, hb, hstore, ok_bind]

end LeoUTF8.OptionEncoding
