import LeoUTF8.ValidatorLanguage

set_option autoImplicit false

/-! # The counting loop follows the validation loop -/
namespace LeoUTF8.CodepointCounting
open BoundedLoop ScalarEncoding EngineTables EngineCodec CodecCorrectness CoreFunctions
open ValidatorLanguage

def scanPart (s : CountPosition) : ScanPosition := { p := s.p, remaining := s.remaining }

def countStep (localCount : ℕ) :
    Step ScanPosition LeoUTF8Status → Step CountPosition (LeoUTF8Status × Option ℕ)
  | .next u => .next { p := u.p, remaining := u.remaining, localCount := localCount + 1 }
  | .done status => .done (status, if status = .ok then some localCount else none)

theorem countBody_eq (mem : List UInt8) (s : CountPosition) :
    countBody mem s = (validateBody mem (scanPart s)).map (countStep s.localCount) := by
  obtain ⟨p, remaining, localCount⟩ := s
  change _ = (validateBody mem { p := p, remaining := remaining }).map (countStep localCount)
  rw [countBody, validateBody]
  simp only
  by_cases hpos : remaining > 0
  · rw [if_pos hpos, if_pos hpos]
    cases utf8procIterate mem p remaining with
    | error e => rfl
    | ok r =>
      rw [ok_bind, ok_bind]
      by_cases hneg : r.1 < 0
      · rw [if_pos hneg, if_pos hneg, leoUTF8StatusFromUtf8proc, if_neg (by omega)]
        simp only [Except.map, countStep]
        split_ifs <;> simp_all
      · rw [if_neg hneg, if_neg hneg]
        split_ifs <;> rfl
  · rw [if_neg hpos, if_neg hpos]
    rfl

/-- What the counting loop returns for the bytes still to be scanned. -/
def countResult (l : List UInt8) (localCount : ℕ) : LeoUTF8Status × Option ℕ :=
  (validity l, if (decode l).2 = [] then some (localCount + (decode l).1.length) else none)

theorem countResult_nil (localCount : ℕ) : countResult [] localCount = (.ok, some localCount) := by
  rw [countResult, validity, decode_nil]
  rfl

theorem countResult_of_some {l : List UInt8} {c n : ℕ} (h : decodeHead l = some (c, n))
    (localCount : ℕ) : countResult l localCount = countResult (l.drop n) (localCount + 1) := by
  rw [countResult, validity_of_some h, decode_of_some h, countResult, List.length_cons,
    Nat.add_assoc, Nat.add_comm 1]

theorem countBody_progress {mem : List UInt8} {length : ℕ} (hlen : length ≤ mem.length)
    (result : LeoUTF8Status × Option ℕ) :
    Progress (countBody mem)
      (fun s => ScanInvariant length (scanPart s) ∧
        countResult ((mem.take length).drop s.p) s.localCount = result)
      (fun s => length - s.p) (· = result) := by
  rintro s ⟨hs, hresult⟩
  have htake := List.length_take_of_le hlen
  have hp : s.p ≤ length := hs.1
  rw [countBody_eq]
  by_cases hend : s.p = length
  · right
    refine ⟨(.ok, some s.localCount), ?_, ?_⟩
    · rw [validateBody_end mem hs hend]
      rfl
    · rw [← hresult, List.drop_of_length_le (by omega), countResult_nil]
  have hlt : s.p < length := lt_of_le_of_ne hp hend
  cases hd : decodeHead ((mem.take length).drop s.p) with
  | none =>
    right
    have hne : (mem.take length).drop s.p ≠ [] := by
      intro h
      have := List.drop_eq_nil_iff.mp h
      omega
    refine ⟨(.invalid, none), ?_, ?_⟩
    · rw [validateBody_malformed hlen hs hlt hd]
      rfl
    · rw [← hresult, countResult, validity_of_none hne hd, decode_of_none hd, if_neg hne]
  | some r =>
    obtain ⟨c, n⟩ := r
    left
    refine ⟨{ p := s.p + n, remaining := (length : ℤ) - (s.p + n : ℕ),
              localCount := s.localCount + 1 },
      ?_, ⟨scanInvariant_next hlen hs hd, ?_⟩, ?_⟩
    · rw [validateBody_next hlen hs hlt hd]
      rfl
    · change countResult ((mem.take length).drop (s.p + n)) (s.localCount + 1) = result
      rw [← List.drop_drop, ← countResult_of_some hd, hresult]
    · have hn := (decodeHead_bounds hd).1
      change length - (s.p + n) < length - s.p
      omega

/-- `*count` becomes the number of scalar values, and is kept when the input is malformed. -/
theorem leoUTF8CodepointCountBytes_eq {pf : Platform} {mem : List UInt8} {length : ℕ}
    (hlen : length ≤ mem.length) (hmax : length ≤ pf.longMax) (old : ℕ) :
    leoUTF8CodepointCountBytes pf (some mem) length (some old) =
      .ok (validity (mem.take length),
        some (if (decode (mem.take length)).2 = [] then (decode (mem.take length)).1.length
          else old)) := by
  have hrun : run (countBody mem) (length + 1) { p := 0, remaining := length, localCount := 0 } =
      .ok (countResult (mem.take length) 0) :=
    run_eq (countBody_progress hlen _) ⟨entry_scanInvariant length, rfl⟩
      (show length - 0 < length + 1 by omega)
  rw [leoUTF8CodepointCountBytes]
  simp only [leoUTF8ToUtf8procLength_ok hmax, hrun, ok_bind, countResult, Nat.zero_add]
  split_ifs <;> rfl

theorem leoUTF8CodepointCountBytes_long {pf : Platform} (mem : List UInt8) {length : ℕ}
    (hmax : pf.longMax < length) (old : ℕ) :
    leoUTF8CodepointCountBytes pf (some mem) length (some old) = .ok (.error, some old) := by
  rw [leoUTF8CodepointCountBytes, leoUTF8ToUtf8procLength, if_pos hmax]

theorem continuation_iff (b : UInt8) : b &&& 0xC0 = 0x80 ↔ IsTail b := by
  rw [← utfCont_iff, utfCont, beq_iff_eq]

theorem countP_continuation {cs : List ℕ} (hcs : ∀ c ∈ cs, IsScalar c) :
    (encodeAll cs).countP (fun b => b &&& 0xC0 ≠ 0x80) = cs.length := by
  rw [← countP_encodeAll fun c hc => (hcs c hc).lt]
  apply List.countP_congr
  intro b _
  rw [decide_eq_true_iff, decide_eq_true_iff, ne_eq, continuation_iff]

/-- The function counts `n` code points in the buffer, whatever `*count` was before. -/
def Counts (pf : Platform) (l : List UInt8) (n : ℕ) : Prop :=
  ∀ old, leoUTF8CodepointCountBytes pf (some l) l.length (some old) = .ok (.ok, some n)

theorem counts_iff {pf : Platform} {l : List UInt8} {n : ℕ} :
    Counts pf l n ↔
      l.length ≤ pf.longMax ∧ ∃ cs, (∀ c ∈ cs, IsScalar c) ∧ l = encodeAll cs ∧ n = cs.length := by
  have htake : l.take l.length = l := List.take_length
  constructor
  · intro h
    by_cases hmax : l.length ≤ pf.longMax
    · have hcount := h 0
      rw [leoUTF8CodepointCountBytes_eq le_rfl hmax, htake, Except.ok.injEq, Prod.mk.injEq,
        validity_eq_ok, Option.some.injEq] at hcount
      obtain ⟨⟨cs, hcs, rfl⟩, hn⟩ := hcount
      rw [decode_encodeAll hcs, if_pos rfl] at hn
      exact ⟨hmax, cs, hcs, rfl, hn.symm⟩
    · have hlong := leoUTF8CodepointCountBytes_long l (by omega : pf.longMax < l.length) 0
      rw [h 0] at hlong
      cases hlong
  · rintro ⟨hmax, cs, hcs, rfl, rfl⟩ old
    rw [leoUTF8CodepointCountBytes_eq le_rfl hmax, htake, validity, decode_encodeAll hcs,
      if_pos rfl, if_pos rfl]

theorem counts_append {pf : Platform} {a b : List UInt8} {m n : ℕ} (ha : Counts pf a m)
    (hb : Counts pf b n) (hmax : (a ++ b).length ≤ pf.longMax) : Counts pf (a ++ b) (m + n) := by
  obtain ⟨_, cs, hcs, rfl, rfl⟩ := counts_iff.mp ha
  obtain ⟨_, ds, hds, rfl, rfl⟩ := counts_iff.mp hb
  apply counts_iff.mpr
  refine ⟨hmax, cs ++ ds, ?_, (encodeAll_append cs ds).symm, (List.length_append).symm⟩
  intro c hc
  rcases List.mem_append.mp hc with hc | hc
  · exact hcs c hc
  · exact hds c hc

/-- The status is that of the validator. If it is `ok`, the number of the scalar values that the
input encodes is stored, which is the number of bytes that continue no sequence; otherwise
`*count` is kept. The counts of two buffers add up to that of their concatenation. -/
theorem leoUTF8CodepointCountBytes_counts (pf : Platform) (mem : List UInt8) (length old : ℕ)
    (hlen : length ≤ mem.length) :
    (∃ status count,
      leoUTF8CodepointCountBytes pf (some mem) length (some old) = .ok (status, some count) ∧
      leoUTF8ValidateBytes pf (some mem) length = .ok status ∧
      (status = .ok →
        count = (mem.take length).countP (fun b => b &&& 0xC0 ≠ 0x80) ∧
        ∃ cs, (∀ c ∈ cs, IsScalar c) ∧ mem.take length = encodeAll cs ∧ count = cs.length ∧
          ∀ ds, (∀ d ∈ ds, IsScalar d) → mem.take length = encodeAll ds → ds = cs) ∧
      (status ≠ .ok → count = old)) ∧
    ∀ (a b : List UInt8) (m n : ℕ), Counts pf a m → Counts pf b n →
      ((a ++ b).length ≤ pf.longMax → Counts pf (a ++ b) (m + n)) ∧
      ∀ k, Counts pf (a ++ b) k → k = m + n := by
  constructor
  · by_cases hmax : length ≤ pf.longMax
    · refine ⟨_, _, leoUTF8CodepointCountBytes_eq hlen hmax old,
        leoUTF8ValidateBytes_eq hlen hmax, ?_, ?_⟩
      · intro hstatus
        obtain ⟨cs, hcs, htake⟩ := validity_eq_ok.mp hstatus
        rw [htake, decode_encodeAll hcs, if_pos rfl]
        refine ⟨(countP_continuation hcs).symm, cs, hcs, rfl, rfl, fun ds hds h => ?_⟩
        exact encodeAll_injective (fun d hd => (hds d hd).lt) (fun c hc => (hcs c hc).lt) h.symm
      · intro hstatus
        rw [if_neg (mt (fun h => if_pos h) hstatus)]
    · have hlong : pf.longMax < length := by omega
      exact ⟨.error, old, leoUTF8CodepointCountBytes_long mem hlong old,
        leoUTF8ValidateBytes_long mem hlong, by simp, fun _ => rfl⟩
  · intro a b m n ha hb
    refine ⟨counts_append ha hb, fun k hk => ?_⟩
    have hsum := counts_append ha hb (counts_iff.mp hk).1 0
    rw [hk 0] at hsum
    simpa using hsum

theorem leoUTF8CodepointCountBytes_counts_euro :
    ∃ count, leoUTF8CodepointCountBytes .leopardPPC (some [0xE2, 0x82, 0xAC, 0x61]) 4 (some 9) =
      .ok (.ok, some count) ∧ count = 2 := by
  obtain ⟨⟨status, count, hcount, hvalid, hok, _⟩, _⟩ :=
    leoUTF8CodepointCountBytes_counts .leopardPPC [0xE2, 0x82, 0xAC, 0x61] 4 9 (by decide)
  obtain rfl : status = .ok := (Except.ok.inj hvalid).symm
  exact ⟨count, hcount, (hok rfl).1⟩

end LeoUTF8.CodepointCounting
