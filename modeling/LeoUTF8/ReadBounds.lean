import LeoUTF8.CodepointCounting
import LeoUTF8.MapCorrectness

set_option autoImplicit false

/-!
# The functions read nothing past the given length

Every call of the decoder is told how many bytes remain of the given length, and reads
inside them. What lies behind the given length has no influence on a result.
-/
namespace LeoUTF8.ReadBounds
open BoundedLoop HeapBlocks ScalarEncoding EngineTables EngineCodec CodecCorrectness
open EngineGraphemes EngineDecompose EngineMap CoreFunctions CodePointMapping ValidatorLanguage
open CodepointCounting MapCorrectness

/-- A call of the decoder at `p`. An object that ends after the first `length` bytes is one of
the `mem'`, and there a read behind them is a fault. -/
structure CallWithin (mem : List UInt8) (length p : ℕ) (remaining : ℤ) : Prop where
  total : (p : ℤ) + remaining = length
  positive : 0 < remaining
  inside : ∃ step uc, step ≤ remaining ∧ ∀ mem' : List UInt8,
    mem'.take length = mem.take length → utf8procIterate mem' p remaining = .ok (step, uc)

theorem iterateResult_le (w : List UInt8) : (iterateResult (decodeHead w)).1 ≤ w.length := by
  cases hd : decodeHead w with
  | none =>
    change utf8procErrorInvalidutf8 ≤ _
    unfold utf8procErrorInvalidutf8
    omega
  | some r =>
    have hn := (decodeHead_bounds (c := r.1) (n := r.2) hd).2
    change (r.2 : ℤ) ≤ _
    omega

theorem length_le_of_take {mem mem' : List UInt8} {length : ℕ} (hlen : length ≤ mem.length)
    (htake : mem'.take length = mem.take length) : length ≤ mem'.length := by
  have h := congrArg List.length htake
  rw [List.length_take, List.length_take] at h
  omega

theorem callWithin {mem : List UInt8} {length p : ℕ} (hlen : length ≤ mem.length)
    (hp : p < length) : CallWithin mem length p ((length : ℤ) - p) := by
  have hstep := iterateResult_le ((mem.take length).drop p)
  rw [List.length_drop, List.length_take_of_le hlen] at hstep
  constructor
  · omega
  · omega
  · refine ⟨(iterateResult (decodeHead ((mem.take length).drop p))).1,
      (iterateResult (decodeHead ((mem.take length).drop p))).2, by omega, ?_⟩
    intro mem' htake
    rw [utf8procIterate_remaining (length_le_of_take hlen htake) hp, htake]

section Scans

variable {mem : List UInt8} {length : ℕ} (hlen : length ≤ mem.length)

/-- The states of the counting loop are those of the validation loop, with a count. -/
theorem reaches_scanPart {n : ℕ} {s : CountPosition}
    (h : Reaches (countBody mem) { p := 0, remaining := length, localCount := 0 } n s) :
    Reaches (validateBody mem) { p := 0, remaining := length } n (scanPart s) := by
  induction h with
  | entry => exact .entry
  | step _ hv ih =>
    rename_i n u v _
    rw [countBody_eq] at hv
    cases hbody : validateBody mem (scanPart u) with
    | error e =>
      rw [hbody] at hv
      cases hv
    | ok next =>
      rw [hbody] at hv
      cases next with
      | done status => cases hv
      | next w =>
        cases hv
        exact .step ih hbody

include hlen

theorem scan_within {n : ℕ} {s : ScanPosition}
    (h : Reaches (validateBody mem) { p := 0, remaining := length } n s) :
    (s.p : ℤ) + s.remaining = length ∧
      (s.remaining > 0 → CallWithin mem length s.p s.remaining) := by
  obtain ⟨⟨hp, hr⟩, _⟩ := reaches_scanInvariant hlen h
  refine ⟨by omega, fun hpos => ?_⟩
  rw [hr]
  exact callWithin hlen (by omega)

end Scans

section Passes

variable {pf : Platform} {t : Utf8procData} {T : Transform} {mem mem' : List UInt8} {length : ℕ}
  {base : Option ℕ} {bufsize : ℤ} (hlen : length ≤ mem.length)
include hlen

theorem iterate_scan {s : ScanState} {p : ℕ} (hs : s.rpos = p) (hp : p < length) :
    utf8procIterate mem s.rpos.toNat ((length : ℤ) - s.rpos) =
      .ok (iterateResult (decodeHead ((mem.take length).drop p))) := by
  rw [hs, Int.toNat_natCast, utf8procIterate_remaining hlen hp]

/-- The input loop moves on by what the decoder has consumed, inside the given length. -/
theorem scanBody_moves {s u : ScanState} {p : ℕ} (hs : s.rpos = p)
    (h : scanBody pf t mem length base bufsize T.options none s = .ok (.next u)) :
    ∃ q : ℕ, u.rpos = q ∧ p < q ∧ q ≤ length := by
  have hnull := T.hasOption_inactive utf8procNullterm (by simp)
  rw [scanBody, hnull] at h
  simp only [Bool.false_eq_true, if_false] at h
  by_cases hend : s.rpos ≥ length
  · rw [if_pos hend] at h
    cases h
  rw [if_neg hend, iterate_scan hlen hs (by omega), ok_bind] at h
  cases hd : decodeHead ((mem.take length).drop p) with
  | none =>
    rw [hd] at h
    cases h
  | some r =>
    have hbounds := decodeHead_bounds (c := r.1) (n := r.2) hd
    rw [List.length_drop, List.length_take_of_le hlen] at hbounds
    have hresult : iterateResult (some r) = ((r.2 : ℤ), (r.1 : ℤ)) := rfl
    rw [hd, hresult] at h
    dsimp only at h
    rw [if_neg (show ¬ ((r.1 : ℤ) < 0) by omega)] at h
    obtain ⟨⟨result, decomposed⟩, _, hnext⟩ := bind_eq_ok h
    simp only at hnext
    split_ifs at hnext <;> cases hnext
    exact ⟨p + r.2, by rw [hs]; push_cast; rfl, by omega, by omega⟩

theorem scanBody_congr (htake : mem'.take length = mem.take length) {s : ScanState} {p : ℕ}
    (hs : s.rpos = p) :
    scanBody pf t mem' length base bufsize T.options none s =
      scanBody pf t mem length base bufsize T.options none s := by
  have hnull := T.hasOption_inactive utf8procNullterm (by simp)
  rw [scanBody, scanBody, hnull]
  simp only [Bool.false_eq_true, if_false]
  by_cases hend : s.rpos ≥ length
  · rw [if_pos hend, if_pos hend]
  · rw [if_neg hend, if_neg hend, iterate_scan hlen hs (by omega),
      iterate_scan (length_le_of_take hlen htake) hs (by omega), htake]

theorem pass_within {cells : List ℤ} {n : ℕ} {s : ScanState}
    (h : Reaches (scanBody pf t mem length base bufsize T.options none)
      { rpos := 0, wpos := 0
        decomposed := { buffer := cells, lastBoundclass := boundclassStart } } n s) :
    ∃ p : ℕ, s.rpos = (p : ℤ) ∧ p ≤ length ∧
      (s.rpos < length → CallWithin mem length p ((length : ℤ) - s.rpos)) := by
  have hposition : ∃ p : ℕ, s.rpos = (p : ℤ) ∧ p ≤ length := by
    apply h.invariant (fun _ (s : ScanState) => ∃ p : ℕ, s.rpos = (p : ℤ) ∧ p ≤ length)
      ⟨0, rfl, Nat.zero_le _⟩
    rintro n u v ⟨p, hp, _⟩ hv
    obtain ⟨q, hq, _, hle⟩ := scanBody_moves hlen hp hv
    exact ⟨q, hq, hle⟩
  obtain ⟨p, hp, hle⟩ := hposition
  refine ⟨p, hp, hle, fun hlt => ?_⟩
  rw [hp]
  exact callWithin hlen (by omega)

theorem scan_congr (htake : mem'.take length = mem.take length) (wpos : ℤ) (d : DecomposeState) :
    run (scanBody pf t mem' length base bufsize T.options none) (mem'.length + 1)
        { rpos := 0, wpos := wpos, decomposed := d } =
      run (scanBody pf t mem length base bufsize T.options none) (mem.length + 1)
        { rpos := 0, wpos := wpos, decomposed := d } := by
  have hlen' := length_le_of_take hlen htake
  have hagree (u : ScanState) (hu : ∃ p : ℕ, u.rpos = (p : ℤ) ∧ p ≤ length) :
      scanBody pf t mem' length base bufsize T.options none u =
        scanBody pf t mem length base bufsize T.options none u := by
    obtain ⟨p, hp, _⟩ := hu
    exact scanBody_congr hlen htake hp
  have hstep (u v : ScanState) (hu : ∃ p : ℕ, u.rpos = (p : ℤ) ∧ p ≤ length)
      (hv : scanBody pf t mem length base bufsize T.options none u = .ok (.next v)) :
      (∃ p : ℕ, v.rpos = (p : ℤ) ∧ p ≤ length) ∧
        length - v.rpos.toNat < length - u.rpos.toNat := by
    obtain ⟨p, hp, _⟩ := hu
    obtain ⟨q, hq, hlt, hle⟩ := scanBody_moves hlen hp hv
    refine ⟨⟨q, hq, hle⟩, ?_⟩
    rw [hp, hq, Int.toNat_natCast, Int.toNat_natCast]
    omega
  apply run_congr hagree hstep ⟨0, rfl, Nat.zero_le _⟩
  · dsimp only
    omega
  · dsimp only
    omega

/-- A pass depends on the first `length` bytes only, whatever the tables hold. -/
theorem utf8procDecomposeCustom_congr (htake : mem'.take length = mem.take length)
    (buffer : Option (List ℤ)) (bufsize : ℤ) :
    utf8procDecomposeCustom pf t mem' length buffer bufsize T.options none =
      utf8procDecomposeCustom pf t mem length buffer bufsize T.options none := by
  unfold utf8procDecomposeCustom
  simp only [scan_congr hlen htake]

end Passes

theorem bytesFunction_congr {rt : Runtime} {mem mem' : List UInt8} {length : ℕ}
    (hlen : length ≤ mem.length) (htake : mem'.take length = mem.take length) (T : Transform)
    (heap : Heap) (o : Outputs) :
    bytesFunction T rt heap (some mem') length o = bytesFunction T rt heap (some mem) length o := by
  have hmap : utf8procMap rt heap mem' length T.options =
      utf8procMap rt heap mem length T.options := by
    rw [utf8procMap, utf8procMap, utf8procMapCustom, utf8procMapCustom]
    simp only [utf8procDecomposeCustom_congr hlen htake]
  rw [bytesFunction_eq, bytesFunction_eq, leoUTF8MapBytes, leoUTF8MapBytes]
  by_cases hout : o.out = none
  · rw [if_pos hout, if_pos hout]
  · rw [if_neg hout, if_neg hout, leoUTF8ToUtf8procLength]
    by_cases hmax : length > rt.platform.longMax
    · rw [if_pos hmax]
    · rw [if_neg hmax]
      simp only [hmap]

/-- In every state of the three loops the position and what remains make up the given length, and
the decoder is called inside it, told a positive length. So two memories that agree on the first
`length` bytes give the same results. -/
theorem reads_within_length (rt : Runtime) (mem : List UInt8) (length : ℕ)
    (hlen : length ≤ mem.length) (hmax : length ≤ rt.platform.longMax) :
    (∀ n s, Reaches (validateBody mem) { p := 0, remaining := length } n s →
      (s.p : ℤ) + s.remaining = length ∧
      (s.remaining > 0 → CallWithin mem length s.p s.remaining)) ∧
    (∀ n s, Reaches (countBody mem) { p := 0, remaining := length, localCount := 0 } n s →
      (s.p : ℤ) + s.remaining = length ∧
      (s.remaining > 0 → CallWithin mem length s.p s.remaining)) ∧
    (∀ (T : Transform) (buffer : Option (List ℤ)) (bufsize : ℤ) n s,
      Reaches (scanBody rt.platform rt.data mem length (buffer.map fun _ => 0) bufsize T.options
          none)
        { rpos := 0, wpos := 0
          decomposed := { buffer := buffer.getD [], lastBoundclass := boundclassStart } } n s →
      ∃ p : ℕ, s.rpos = (p : ℤ) ∧ p ≤ length ∧
        (s.rpos < length → CallWithin mem length p ((length : ℤ) - s.rpos))) ∧
    ∀ mem' : List UInt8, mem'.take length = mem.take length →
      leoUTF8ValidateBytes rt.platform (some mem') length =
        leoUTF8ValidateBytes rt.platform (some mem) length ∧
      (∀ count, leoUTF8CodepointCountBytes rt.platform (some mem') length count =
        leoUTF8CodepointCountBytes rt.platform (some mem) length count) ∧
      ∀ (T : Transform) (heap : Heap) (o : Outputs),
        bytesFunction T rt heap (some mem') length o =
          bytesFunction T rt heap (some mem) length o := by
  refine ⟨fun n s h => scan_within hlen h, fun n s h => scan_within hlen (reaches_scanPart h),
    fun T buffer bufsize n s h => pass_within hlen h, fun mem' htake => ⟨?_, ?_, ?_⟩⟩
  · rw [leoUTF8ValidateBytes_eq hlen hmax,
      leoUTF8ValidateBytes_eq (length_le_of_take hlen htake) hmax, htake]
  · intro count
    cases count with
    | none => rfl
    | some old =>
      rw [leoUTF8CodepointCountBytes_eq hlen hmax,
        leoUTF8CodepointCountBytes_eq (length_le_of_take hlen htake) hmax, htake]
  · exact fun T heap o => bytesFunction_congr hlen htake T heap o

/-- Whether the byte behind the given length would complete the sequence makes no difference. -/
theorem reads_within_length_truncated :
    leoUTF8ValidateBytes .leopardPPC (some [0x61, 0xC3, 0xA9]) 2 =
      leoUTF8ValidateBytes .leopardPPC (some [0x61, 0xC3]) 2 :=
  ((reads_within_length smallRuntime [0x61, 0xC3] 2 (by decide) (by decide)).2.2.2
    [0x61, 0xC3, 0xA9] rfl).1

end LeoUTF8.ReadBounds
