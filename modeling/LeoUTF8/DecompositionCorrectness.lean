import LeoUTF8.CodecCorrectness
import LeoUTF8.CodePointMapping

set_option autoImplicit false

/-! # The decomposition functions against the mapping of code points -/
namespace LeoUTF8.DecompositionCorrectness
open BoundedLoop CellStorage ScalarEncoding EngineTables EngineCodec EngineDecompose
open RecursiveExpansion RunSorting CodecCorrectness CodePointMapping

/-- Code points as the code stores them. -/
def int32s (cs : List ℕ) : List ℤ := cs.map Nat.cast

@[simp] theorem int32s_nil : int32s [] = [] := rfl

@[simp] theorem int32s_cons (c : ℕ) (cs : List ℕ) : int32s (c :: cs) = (c : ℤ) :: int32s cs := rfl

@[simp] theorem int32s_append (cs ds : List ℕ) : int32s (cs ++ ds) = int32s cs ++ int32s ds :=
  List.map_append

@[simp] theorem int32s_length (cs : List ℕ) : (int32s cs).length = cs.length := List.length_map _

/-- Nothing fits, or the destination has room for `cap` code points. -/
def Room (dst : Option ℕ) (cap : ℕ) (buffer : List ℤ) : Prop :=
  cap = 0 ∨ ∃ p, dst = some p ∧ p + cap ≤ buffer.length

/-- The state after `out` has been written as far as it fits. -/
def written (dst : Option ℕ) (cap : ℕ) (out : List ℤ) (s : DecomposeState) : DecomposeState :=
  { s with buffer := overwrite s.buffer (dst.getD 0) (out.take cap) }

/-- The result of writing `out` and returning its length; without `out` there is no result. -/
def writeResult (dst : Option ℕ) (cap : ℕ) (s : DecomposeState) :
    Option (List ℕ) → Exec (ℤ × DecomposeState)
  | some out => .ok (out.length, written dst cap (int32s out) s)
  | none => .error .bound

/-- A function that writes `out` as far as it fits. -/
def Writes (f : Option ℕ → ℤ → DecomposeState → Exec (ℤ × DecomposeState))
    (out : Option (List ℕ)) : Prop :=
  ∀ dst (cap : ℕ) s, Room dst cap s.buffer → f dst cap s = writeResult dst cap s out

@[simp] theorem written_nil (dst : Option ℕ) (cap : ℕ) (s : DecomposeState) :
    written dst cap [] s = s := by
  rw [written, List.take_nil, overwrite_nil]

theorem room_written {dst : Option ℕ} {cap : ℕ} {s : DecomposeState} (room : Room dst cap s.buffer)
    (out : List ℤ) : Room dst cap (written dst cap out s).buffer := by
  rcases room with h | ⟨p, hp, hcap⟩
  · exact Or.inl h
  · refine Or.inr ⟨p, hp, ?_⟩
    have htake : (out.take cap).length ≤ cap := List.length_take_le cap out
    change p + cap ≤ (overwrite s.buffer (dst.getD 0) (out.take cap)).length
    rw [hp, Option.getD_some, overwrite_length (by omega)]
    exact hcap

theorem room_advance {dst : Option ℕ} {cap : ℕ} {buffer : List ℤ} (room : Room dst cap buffer)
    (n : ℕ) : Room (dst.map (· + n)) (cap - n) buffer := by
  rcases room with h | ⟨p, rfl, hcap⟩
  · exact Or.inl (by omega)
  · by_cases hn : cap ≤ n
    · exact Or.inl (by omega)
    · exact Or.inr ⟨p + n, rfl, by omega⟩

theorem written_written {dst : Option ℕ} {cap : ℕ} {s : DecomposeState}
    (room : Room dst cap s.buffer) (xs ys : List ℤ) :
    written (dst.map (· + xs.length)) (cap - xs.length) ys (written dst cap xs s) =
      written dst cap (xs ++ ys) s := by
  rcases room with h | ⟨p, rfl, hcap⟩
  · simp [written, h, overwrite_nil]
  · have h := overwrite_take_append xs ys (Or.inr hcap)
    simp only [written, Option.map_some, Option.getD_some, h]

theorem storeWithin_written {dst : Option ℕ} {cap : ℕ} {s : DecomposeState}
    (room : Room dst cap s.buffer) (xs : List ℤ) (v : ℤ) :
    storeWithin cap dst xs.length v (written dst cap xs s) =
      .ok (written dst cap (xs ++ [v]) s) := by
  rw [← written_written room xs [v]]
  have room' := room_written room xs
  generalize written dst cap xs s = u at room'
  rw [storeWithin]
  by_cases h : cap ≤ xs.length
  · rw [if_neg (by omega), Nat.sub_eq_zero_of_le h]
    simp [written, overwrite_nil]
  · obtain ⟨p, rfl, hcap⟩ := room'.resolve_left (by omega)
    have hset :
        store u.buffer (p + xs.length) v = .ok (overwrite u.buffer (p + xs.length) [v]) := by
      rw [store, if_pos (by omega), set_eq_overwrite (by omega)]
    have htake : [v].take (cap - xs.length) = [v] :=
      List.take_of_length_le (by simp only [List.length_singleton]; omega)
    rw [if_pos (by omega), storeAt, hset, written, htake]
    rfl

theorem storeWithin_writes (v : ℤ) {dst : Option ℕ} {cap : ℕ} {s : DecomposeState}
    (room : Room dst cap s.buffer) :
    storeWithin cap dst 0 v s = .ok (written dst cap [v] s) := by
  have h := storeWithin_written room [] v
  rwa [written_nil] at h

theorem writeHangul_writes {c : ℕ} (hc : IsHangulSyllable c) :
    Writes (writeHangul ((c : ℤ) - hangulSBase)) (some (hangulJamo c)) := by
  obtain ⟨hlow, hhigh⟩ := hc
  intro dst cap s room
  obtain ⟨n, rfl⟩ := Nat.exists_eq_add_of_le hlow
  have hs : ((0xAC00 + n : ℕ) : ℤ) - hangulSBase = n := by
    rw [hangulSBase]
    push_cast
    ring
  have hl : hangulLBase + (n : ℤ) / hangulNCount = ((0x1100 + n / 588 : ℕ) : ℤ) := by
    simp only [hangulLBase, hangulNCount]
    omega
  have hv : hangulVBase + (n : ℤ) % hangulNCount / hangulTCount =
      ((0x1161 + n % 588 / 28 : ℕ) : ℤ) := by
    simp only [hangulVBase, hangulNCount, hangulTCount]
    omega
  have ht : hangulTBase + (n : ℤ) % hangulTCount = ((0x11A7 + n % 28 : ℕ) : ℤ) := by
    simp only [hangulTBase, hangulTCount]
    omega
  have h1 := storeWithin_written room [((0x1100 + n / 588 : ℕ) : ℤ)]
    ((0x1161 + n % 588 / 28 : ℕ) : ℤ)
  have h2 := storeWithin_written room
    [((0x1100 + n / 588 : ℕ) : ℤ), ((0x1161 + n % 588 / 28 : ℕ) : ℤ)] ((0x11A7 + n % 28 : ℕ) : ℤ)
  rw [writeHangul, hs, hl, hv, storeWithin_writes _ room]
  simp only [ok_bind, List.length_singleton, ht] at h1 ⊢
  rw [h1]
  simp only [ok_bind, hangulJamo, Nat.add_sub_cancel_left]
  by_cases h0 : n % 28 = 0
  · have h0' : (n : ℤ) % hangulTCount = 0 := by
      simp only [hangulTCount]
      omega
    rw [if_pos h0', if_pos h0]
    rfl
  · have h0' : (n : ℤ) % hangulTCount ≠ 0 := by
      simp only [hangulTCount]
      omega
    simp only [List.length_cons, List.length_nil, Nat.zero_add, List.cons_append,
      List.nil_append] at h2 ⊢
    rw [if_neg h0', if_neg h0, h2]
    rfl

theorem seqindexWriteLoop_written {t : Utf8procData} {decomposeChar : DecomposeChar}
    {f : ℕ → Option (List ℕ)} {n first : ℕ}
    (callee : ∀ c ∈ sequenceEntries t n first, Writes (decomposeChar c) (f c))
    {dst : Option ℕ} {cap : ℕ} {s : DecomposeState} (room : Room dst cap s.buffer)
    (done : List ℕ) :
    seqindexWriteLoop t decomposeChar dst cap n first done.length
        (written dst cap (int32s done) s) =
      writeResult dst cap s ((collect f (sequenceEntries t n first)).map (done ++ ·)) := by
  induction n generalizing first done with
  | zero => simp [seqindexWriteLoop, sequenceEntries, collect, writeResult]
  | succ n ih =>
    have hcap : (if (cap : ℤ) > done.length then (cap : ℤ) - done.length else 0) =
        ((cap - (int32s done).length : ℕ) : ℤ) := by
      rw [int32s_length]
      split_ifs <;> omega
    have hroom := room_advance (room_written room (int32s done)) (int32s done).length
    have hcall := callee _ List.mem_cons_self _ _ _ hroom
    have hrest (done : List ℕ) := ih (fun c hc => callee c (List.mem_cons_of_mem _ hc)) done
    rw [seqindexWriteLoop]
    simp only [Int.toNat_natCast, hcap]
    rw [← int32s_length done, hcall]
    cases hf : f (seqindexDecodeEntry t first).1 with
    | none =>
      simp only [sequenceEntries, collect, hf]
      rfl
    | some out =>
      have hlen : ((int32s done).length : ℤ) + out.length = ((done ++ out).length : ℤ) := by
        rw [List.length_append, int32s_length]
        push_cast
        ring
      simp only [writeResult, written_written room, ← int32s_append, ok_bind, hlen]
      rw [if_neg (by omega), hrest]
      simp only [sequenceEntries, collect, hf, Option.bind_some, Option.map_map]
      congr 1
      congr 1
      funext l
      simp

theorem seqindexWriteCharDecomposed_writes {t : Utf8procData} {decomposeChar : DecomposeChar}
    {f : ℕ → Option (List ℕ)} {seqindex : UInt16}
    (callee : ∀ c ∈ sequenceOf t seqindex, Writes (decomposeChar c) (f c)) :
    Writes (seqindexWriteCharDecomposed t decomposeChar seqindex)
      (collect f (sequenceOf t seqindex)) := by
  intro dst cap s room
  have h := seqindexWriteLoop_written callee room []
  have hid : ([] ++ · : List ℕ → List ℕ) = id := funext List.nil_append
  rw [int32s_nil, written_nil, hid, Option.map_id, id_eq] at h
  exact h

theorem lumpReplacement_none (category : Category) (uc : ℤ) {options : Utf8procOption}
    (h : hasOption options utf8procLump = false) : lumpReplacement category uc options = none := by
  rw [lumpReplacement, h]
  rfl

theorem utf8procDecomposeChar_writes (t : Utf8procData) (T : Transform) (depth : ℕ) {c : ℕ}
    (hc : c < 0x110000) :
    Writes (utf8procDecomposeChar t depth T.options c)
      (expandWithin (entry t T) (terminal T) depth c) := by
  induction depth generalizing c with
  | zero =>
    intro dst cap s room
    rfl
  | succ depth ih =>
    intro dst cap s room
    have inactive := T.hasOption_inactive
    simp only [List.forall_mem_cons] at inactive
    obtain ⟨_, compat, ignore, rejectna, charbound, lump, stripmark, stripna, _⟩ := inactive
    rw [utf8procDecomposeChar, if_neg (by omega), unsafeGetProperty_natCast t hc]
    simp only [ok_bind, compat, ignore, rejectna, charbound, lumpReplacement_none _ _ lump,
      stripmark, stripna, T.hasOption_canonical, T.hasOption_casefold, Bool.false_eq_true,
      false_and, or_false, if_false]
    have hsyllable : (c : ℤ) - hangulSBase ≥ 0 ∧ (c : ℤ) - hangulSBase < hangulSCount ↔
        IsHangulSyllable c := by
      unfold IsHangulSyllable hangulSBase hangulSCount
      omega
    simp only [hsyllable]
    -- an entry is expanded by the calls one level further down
    have hseq (seqindex : UInt16) (he : entry t T c = some (sequenceOf t seqindex)) :
        seqindexWriteCharDecomposed t (utf8procDecomposeChar t depth T.options) seqindex dst cap s =
          writeResult dst cap s (expandWithin (entry t T) (terminal T) (depth + 1) c) := by
      rw [expandWithin_of_some _ _ he]
      exact seqindexWriteCharDecomposed_writes
        (fun b hb => ih (sequenceOf_isScalar t seqindex b hb).lt) dst cap s room
    have hself (he : entry t T c = none) (hself : terminal T c = [c]) :
        (do
          let s ← storeWithin cap dst 0 c s
          .ok (1, s) : Exec (ℤ × DecomposeState)) =
          writeResult dst cap s (expandWithin (entry t T) (terminal T) (depth + 1) c) := by
      rw [expandWithin_of_none _ _ he, hself, storeWithin_writes _ room]
      rfl
    cases hcan : T.canonical with
    | false =>
      simp only [Bool.not_false, Bool.false_eq_true, true_and, false_and, if_false]
      by_cases hfold : (t.property c).casefoldSeqindex ≠ uint16Max
      · rw [if_pos hfold]
        exact hseq _ (by simp [entry, hcan, foldEntry, hfold])
      · rw [if_neg hfold]
        exact hself (by simp [entry, hcan, foldEntry, hfold]) (by simp [terminal, hcan])
    | true =>
      simp only [Bool.not_true, Bool.false_eq_true, true_and, false_and, if_false]
      by_cases hs : IsHangulSyllable c
      · rw [if_pos hs, expandWithin_of_none _ _ (by simp [entry, hcan, hs]), terminal,
          if_pos ⟨hcan, hs⟩]
        exact writeHangul_writes hs dst cap s room
      by_cases hd : (t.property c).decompSeqindex ≠ uint16Max ∧ (t.property c).decompType = 0
      · rw [if_neg hs, if_pos hd]
        exact hseq _ (by simp [entry, hcan, hs, decompositionEntry, hd])
      · rw [if_neg hs, if_neg hd]
        exact hself (by simp only [entry, hcan, hs, decompositionEntry, hd, if_true, if_false])
          (by simp [terminal, hs])

end LeoUTF8.DecompositionCorrectness
