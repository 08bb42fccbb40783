import LeoUTF8.EngineInterface
import LeoUTF8.TerminatedText

set_option autoImplicit false

/-!
# Decoding what is encoded

The test for code points, the encoder and the decoder agree: the decoder finds a code point where
its encoding stands, and nothing where no encoding stands.
-/
namespace LeoUTF8.CodecRoundTrips
open BoundedLoop CellStorage ScalarEncoding EngineTables EngineCodec EngineInterface
open CodecCorrectness TerminatedText

/-- The test is meant for 32-bit integers. -/
def IsInt32 (c : ℤ) : Prop := -2 ^ 31 ≤ c ∧ c < 2 ^ 31

theorem utf8procCodepointValid_iff {c : ℤ} (hc : IsInt32 c) :
    utf8procCodepointValid c = true ↔ ∃ n : ℕ, c = n ∧ IsScalar n := by
  unfold IsInt32 at hc
  rw [utf8procCodepointValid, decide_eq_true_iff]
  constructor
  · intro h
    refine ⟨c.toNat, ?_, ?_⟩
    · omega
    · unfold IsScalar
      omega
  · rintro ⟨n, rfl, hn⟩
    unfold IsScalar at hn
    omega

theorem isInt32_of_isScalar {n : ℕ} (h : IsScalar n) : IsInt32 n := by
  have := h.lt
  unfold IsInt32
  omega

/-- What the decoder returns for the bytes that it is allowed to read. -/
theorem iterateResult_iff (w : List UInt8) {c : ℤ} (hc : IsInt32 c) {step : ℤ} (hstep : 0 < step) :
    iterateResult (decodeHead w) = (step, c) ↔
      utf8procCodepointValid c = true ∧ step = (utf8procEncodeChar c).length ∧
        utf8procEncodeChar c <+: w := by
  constructor
  · intro h
    cases hhead : decodeHead w with
    | none =>
      rw [hhead] at h
      obtain ⟨rfl, _⟩ := Prod.mk.inj h
      exact absurd hstep (by decide)
    | some head =>
      obtain ⟨d, n⟩ := head
      rw [hhead] at h
      obtain ⟨rfl, rfl⟩ := Prod.mk.inj h
      obtain ⟨hscalar, rfl, hprefix⟩ := encode_of_decodeHead hhead
      rw [utf8procEncodeChar_eq hscalar.lt]
      exact ⟨(utf8procCodepointValid_iff hc).mpr ⟨d, rfl, hscalar⟩, rfl, hprefix⟩
  · rintro ⟨hvalid, rfl, hprefix⟩
    obtain ⟨n, rfl, hscalar⟩ := (utf8procCodepointValid_iff hc).mp hvalid
    rw [utf8procEncodeChar_eq hscalar.lt] at hprefix ⊢
    obtain ⟨rest, rfl⟩ := hprefix
    rw [decodeHead_encode_append hscalar]
    rfl

theorem iterateResult_none (w : List UInt8) :
    iterateResult (decodeHead w) = (utf8procErrorInvalidutf8, -1) ↔
      ∀ c, IsInt32 c → utf8procCodepointValid c = true → ¬ utf8procEncodeChar c <+: w := by
  constructor
  · intro h c hc hvalid hprefix
    have hpos : 0 < ((utf8procEncodeChar c).length : ℤ) := by
      obtain ⟨n, rfl, hscalar⟩ := (utf8procCodepointValid_iff hc).mp hvalid
      rw [utf8procEncodeChar_eq hscalar.lt]
      exact_mod_cast encode_length_pos n
    have hfound := (iterateResult_iff w hc hpos).mpr ⟨hvalid, rfl, hprefix⟩
    rw [h] at hfound
    obtain ⟨hstep, _⟩ := Prod.mk.inj hfound
    rw [← hstep] at hpos
    exact absurd hpos (by decide)
  · intro h
    cases hhead : decodeHead w with
    | none => rfl
    | some head =>
      obtain ⟨d, n⟩ := head
      obtain ⟨hscalar, _, hprefix⟩ := encode_of_decodeHead hhead
      have hint := isInt32_of_isScalar hscalar
      apply absurd _ (h d hint ((utf8procCodepointValid_iff hint).mpr ⟨d, rfl, hscalar⟩))
      rwa [utf8procEncodeChar_eq hscalar.lt]

/-- For a text with a length, and for one that a NUL ends, the decoder never faults. It returns a
code point and the length of its encoding exactly where the encoding of a valid code point stands,
and the error and no code point exactly where none does. -/
theorem iterate_inverts_encode {mem : List UInt8} {str : ℕ} {strlen : ℤ} {w : List UInt8}
    (h : (0 < strlen ∧ str + strlen ≤ mem.length ∧ w = (mem.drop str).take strlen.toNat) ∨
      (strlen = -1 ∧ ∃ text rest, mem.drop str = text ++ 0 :: rest ∧ w = text ++ [0])) :
    ∃ step c, utf8procIterate mem str strlen = .ok (step, c) ∧
      (∀ d k, IsInt32 d → 0 < k → ((step, c) = (k, d) ↔
        utf8procCodepointValid d = true ∧ k = (utf8procEncodeChar d).length ∧
          utf8procEncodeChar d <+: w)) ∧
      ((step, c) = (utf8procErrorInvalidutf8, -1) ↔
        ∀ d, IsInt32 d → utf8procCodepointValid d = true → ¬ utf8procEncodeChar d <+: w) := by
  have hiterate : utf8procIterate mem str strlen = .ok (iterateResult (decodeHead w)) := by
    rcases h with ⟨hpos, hlength, rfl⟩ | ⟨rfl, text, rest, hmem, rfl⟩
    · obtain ⟨r, rfl⟩ := Int.eq_ofNat_of_zero_le hpos.le
      rw [Int.toNat_natCast]
      exact utf8procIterate_eq (by omega) (by omega)
    · exact utf8procIterate_terminated hmem
  refine ⟨_, _, hiterate, ?_, iterateResult_none w⟩
  intro d k hd hk
  exact iterateResult_iff w hd hk

/-- An encoding with a byte too few in front of a NUL. -/
theorem iterate_inverts_encode_cut :
    utf8procIterate [0xE2, 0x82, 0x00, 0xAC] 0 (-1) = .ok (utf8procErrorInvalidutf8, -1) ∧
      ∀ d, IsInt32 d → utf8procCodepointValid d = true →
        ¬ utf8procEncodeChar d <+: [0xE2, 0x82, 0x00] := by
  obtain ⟨step, c, hcall, _, hnone⟩ := @iterate_inverts_encode [0xE2, 0x82, 0x00, 0xAC] 0 (-1)
    [0xE2, 0x82, 0x00] (Or.inr ⟨rfl, [0xE2, 0x82], [0xAC], rfl, rfl⟩)
  have herror : utf8procIterate [0xE2, 0x82, 0x00, 0xAC] 0 (-1) =
      .ok (utf8procErrorInvalidutf8, -1) := by
    decide +kernel
  rw [herror] at hcall
  exact ⟨herror, hnone.mp (Except.ok.inj hcall).symm⟩

end LeoUTF8.CodecRoundTrips
