import LeoUTF8.CodecCorrectness
import LeoUTF8.CoreFunctions

set_option autoImplicit false

/-! # The language that LeoUTF8ValidateBytes accepts -/
namespace LeoUTF8.ValidatorLanguage
open BoundedLoop CellStorage ScalarEncoding EngineTables EngineCodec CodecCorrectness CoreFunctions

theorem leoUTF8ToUtf8procLength_ok {pf : Platform} {length : ℕ} (h : length ≤ pf.longMax) :
    leoUTF8ToUtf8procLength pf length (some 0) = (.ok, some (length : ℤ)) := by
  rw [leoUTF8ToUtf8procLength, if_neg (by omega)]

/-- The variables of a scan over the first `length` bytes. -/
def ScanInvariant (length : ℕ) (s : ScanPosition) : Prop :=
  s.p ≤ length ∧ s.remaining = (length : ℤ) - s.p

theorem entry_scanInvariant (length : ℕ) :
    ScanInvariant length { p := 0, remaining := length } := ⟨Nat.zero_le _, by simp⟩

theorem validateBody_end (mem : List UInt8) {length : ℕ} {s : ScanPosition}
    (hs : ScanInvariant length s) (hend : s.p = length) :
    validateBody mem s = .ok (.done .ok) := by
  have hr := hs.2
  rw [validateBody, if_neg (by omega)]

theorem iterate_of_scanInvariant {mem : List UInt8} {length : ℕ} (hlen : length ≤ mem.length)
    {s : ScanPosition} (hs : ScanInvariant length s) (hlt : s.p < length) :
    utf8procIterate mem s.p s.remaining =
      .ok (iterateResult (decodeHead ((mem.take length).drop s.p))) := by
  rw [hs.2, utf8procIterate_remaining hlen hlt]

theorem validateBody_malformed {mem : List UInt8} {length : ℕ} (hlen : length ≤ mem.length)
    {s : ScanPosition} (hs : ScanInvariant length s) (hlt : s.p < length)
    (hd : decodeHead ((mem.take length).drop s.p) = none) :
    validateBody mem s = .ok (.done .invalid) := by
  have hr := hs.2
  rw [validateBody, if_pos (by omega), iterate_of_scanInvariant hlen hs hlt, hd]
  rfl

theorem validateBody_next {mem : List UInt8} {length : ℕ} (hlen : length ≤ mem.length)
    {s : ScanPosition} (hs : ScanInvariant length s) (hlt : s.p < length) {c n : ℕ}
    (hd : decodeHead ((mem.take length).drop s.p) = some (c, n)) :
    validateBody mem s =
      .ok (.next { p := s.p + n, remaining := (length : ℤ) - (s.p + n : ℕ) }) := by
  have hr := hs.2
  have hn := (decodeHead_bounds hd).1
  rw [validateBody, if_pos (by omega), iterate_of_scanInvariant hlen hs hlt, hd]
  simp only [iterateResult, ok_bind, Int.toNat_natCast]
  rw [if_neg (by omega), if_neg (by omega), hr]
  congr 3
  push_cast
  ring

theorem scanInvariant_next {mem : List UInt8} {length : ℕ} (hlen : length ≤ mem.length)
    {s : ScanPosition} (hs : ScanInvariant length s) {c n : ℕ}
    (hd : decodeHead ((mem.take length).drop s.p) = some (c, n)) :
    ScanInvariant length { p := s.p + n, remaining := (length : ℤ) - (s.p + n : ℕ) } := by
  have hn := (decodeHead_bounds hd).2
  rw [List.length_drop, List.length_take_of_le hlen] at hn
  have hp := hs.1
  exact ⟨show s.p + n ≤ length by omega, rfl⟩

/-- The status for a byte string: whether all of it decodes. -/
def validity (l : List UInt8) : LeoUTF8Status := if (decode l).2 = [] then .ok else .invalid

theorem validity_of_none {l : List UInt8} (hl : l ≠ []) (h : decodeHead l = none) :
    validity l = .invalid := by
  rw [validity, decode_of_none h, if_neg hl]

theorem validity_of_some {l : List UInt8} {c n : ℕ} (h : decodeHead l = some (c, n)) :
    validity l = validity (l.drop n) := by
  rw [validity, decode_of_some h, validity]

/-- The loop decides the validity of what is left to scan. -/
theorem validateBody_progress {mem : List UInt8} {length : ℕ} (hlen : length ≤ mem.length)
    (status : LeoUTF8Status) :
    Progress (validateBody mem)
      (fun s => ScanInvariant length s ∧ validity ((mem.take length).drop s.p) = status)
      (fun s => length - s.p) (· = status) := by
  rintro s ⟨hs, hv⟩
  have htake := List.length_take_of_le hlen
  by_cases hend : s.p = length
  · right
    refine ⟨.ok, validateBody_end mem hs hend, ?_⟩
    rw [← hv, List.drop_of_length_le (by omega), validity, decode_of_none rfl, if_pos rfl]
  have hlt : s.p < length := lt_of_le_of_ne hs.1 hend
  have hne : (mem.take length).drop s.p ≠ [] := by
    intro h
    have := List.drop_eq_nil_iff.mp h
    omega
  cases hd : decodeHead ((mem.take length).drop s.p) with
  | none =>
    right
    exact ⟨.invalid, validateBody_malformed hlen hs hlt hd, by rw [← hv, validity_of_none hne hd]⟩
  | some r =>
    obtain ⟨c, n⟩ := r
    left
    refine ⟨_, validateBody_next hlen hs hlt hd, ⟨scanInvariant_next hlen hs hd, ?_⟩, ?_⟩
    · change validity ((mem.take length).drop (s.p + n)) = status
      rw [← List.drop_drop, ← validity_of_some hd, hv]
    · have hn := (decodeHead_bounds hd).1
      change length - (s.p + n) < length - s.p
      omega

theorem leoUTF8ValidateBytes_eq {pf : Platform} {mem : List UInt8} {length : ℕ}
    (hlen : length ≤ mem.length) (hmax : length ≤ pf.longMax) :
    leoUTF8ValidateBytes pf (some mem) length = .ok (validity (mem.take length)) := by
  rw [leoUTF8ValidateBytes, leoUTF8ToUtf8procLength_ok hmax]
  exact run_eq (validateBody_progress hlen _) ⟨entry_scanInvariant length, rfl⟩
    (show length - 0 < length + 1 by omega)

/-- A length that the engine cannot take is an error. -/
theorem leoUTF8ValidateBytes_long {pf : Platform} (mem : List UInt8) {length : ℕ}
    (hmax : pf.longMax < length) : leoUTF8ValidateBytes pf (some mem) length = .ok .error := by
  rw [leoUTF8ValidateBytes, leoUTF8ToUtf8procLength, if_pos hmax]

theorem leoUTF8ValidateBytes_returns (pf : Platform) {mem : List UInt8} {length : ℕ}
    (hlen : length ≤ mem.length) :
    ∃ status, leoUTF8ValidateBytes pf (some mem) length = .ok status := by
  by_cases hmax : length ≤ pf.longMax
  · exact ⟨_, leoUTF8ValidateBytes_eq hlen hmax⟩
  · exact ⟨_, leoUTF8ValidateBytes_long mem (by omega)⟩

theorem validity_eq_ok {l : List UInt8} : validity l = .ok ↔ WellFormed l := by
  rw [validity, wellFormed_iff_decode]
  split_ifs with h <;> simp [h]

theorem validity_eq_invalid {l : List UInt8} : validity l = .invalid ↔ ¬ WellFormed l := by
  rw [validity, wellFormed_iff_decode]
  split_ifs with h <;> simp [h]

theorem reaches_scanInvariant {mem : List UInt8} {length : ℕ} (hlen : length ≤ mem.length)
    {n : ℕ} {s : ScanPosition}
    (h : Reaches (validateBody mem) { p := 0, remaining := length } n s) :
    ScanInvariant length s ∧ n ≤ s.p := by
  apply h.invariant (fun n s => ScanInvariant length s ∧ n ≤ s.p)
    ⟨entry_scanInvariant length, Nat.zero_le _⟩
  rintro n u v ⟨hu, hn⟩ hv
  by_cases hend : u.p = length
  · rw [validateBody_end mem hu hend] at hv
    cases hv
  have hlt : u.p < length := lt_of_le_of_ne hu.1 hend
  cases hd : decodeHead ((mem.take length).drop u.p) with
  | none =>
    rw [validateBody_malformed hlen hu hlt hd] at hv
    cases hv
  | some r =>
    obtain ⟨c, m⟩ := r
    rw [validateBody_next hlen hu hlt hd] at hv
    cases hv
    have hm := (decodeHead_bounds hd).1
    exact ⟨scanInvariant_next hlen hu hd, show n + 1 ≤ u.p + m by omega⟩

/-- The validator accepts the concatenations of the sequences of Table 3-7 and calls every
other buffer invalid. Its loop makes at most `length` iterations, and no call of the decoder
in it returns zero. -/
theorem leoUTF8ValidateBytes_accepts (pf : Platform) (mem : List UInt8) (length : ℕ)
    (hlen : length ≤ mem.length) (hmax : length ≤ pf.longMax) :
    (leoUTF8ValidateBytes pf (some mem) length = .ok .ok ↔
      ∃ cs, (∀ c ∈ cs, IsScalar c) ∧ mem.take length = encodeAll cs) ∧
    (leoUTF8ValidateBytes pf (some mem) length = .ok .ok ↔
      ∃ ss : List (List UInt8), (∀ s ∈ ss, IsSequence s) ∧ mem.take length = ss.flatten) ∧
    (leoUTF8ValidateBytes pf (some mem) length ≠ .ok .ok →
      leoUTF8ValidateBytes pf (some mem) length = .ok .invalid) ∧
    ∀ n s, Reaches (validateBody mem) { p := 0, remaining := length } n s →
      n ≤ length ∧ (s.remaining > 0 → ∃ step uc,
        utf8procIterate mem s.p s.remaining = .ok (step, uc) ∧ step ≠ 0) := by
  rw [leoUTF8ValidateBytes_eq hlen hmax]
  have hok : (.ok (validity (mem.take length)) : Exec LeoUTF8Status) = .ok .ok ↔
      WellFormed (mem.take length) := by
    rw [← validity_eq_ok, Except.ok.injEq]
  refine ⟨hok, hok.trans wellFormed_iff_sequences, ?_, ?_⟩
  · intro h
    rw [validity_eq_invalid.mpr (mt hok.mpr h)]
  · intro n s h
    obtain ⟨hs, hn⟩ := reaches_scanInvariant hlen h
    refine ⟨hn.trans hs.1, fun hpos => ?_⟩
    have hr := hs.2
    refine ⟨_, _, iterate_of_scanInvariant hlen hs (by omega), ?_⟩
    cases hd : decodeHead ((mem.take length).drop s.p) with
    | none => decide
    | some r =>
      have hm := (decodeHead_bounds (c := r.1) (n := r.2) hd).1
      change (r.2 : ℤ) ≠ 0
      omega

theorem leoUTF8ValidateBytes_accepts_euro :
    leoUTF8ValidateBytes .leopardPPC (some [0xE2, 0x82, 0xAC, 0x00]) 4 = .ok .ok :=
  (leoUTF8ValidateBytes_accepts .leopardPPC [0xE2, 0x82, 0xAC, 0x00] 4 (by decide)
    (by decide)).1.mpr ⟨[0x20AC, 0], by decide, by decide⟩

end LeoUTF8.ValidatorLanguage
