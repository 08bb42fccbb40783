import LeoUTF8.EngineCodec

set_option autoImplicit false

/-! # The codec of utf8proc against the encoding of scalar values -/
namespace LeoUTF8.CodecCorrectness
open BoundedLoop CellStorage ScalarEncoding EngineTables EngineCodec

theorem and_low (n k : ℕ) : n &&& (2 ^ k - 1) = n % 2 ^ k := Nat.and_two_pow_sub_one_eq_mod n k

theorem shiftLeft_six_or {x y : ℕ} (hy : y < 64) : x <<< 6 ||| y = x * 64 + y := by
  rw [← Nat.shiftLeft_add_eq_or_of_lt hy, Nat.shiftLeft_eq]

theorem shiftLeft_twelve_or {x y z : ℕ} (hy : y < 64) (hz : z < 64) :
    x <<< 12 ||| y <<< 6 ||| z = x * 4096 + y * 64 + z := by
  have h : x <<< 12 = x <<< 6 <<< 6 := Nat.shiftLeft_add x 6 6
  rw [h, ← Nat.shiftLeft_or_distrib, shiftLeft_six_or hy, shiftLeft_six_or hz]
  ring

theorem shiftLeft_eighteen_or {x y z w : ℕ} (hy : y < 64) (hz : z < 64) (hw : w < 64) :
    x <<< 18 ||| y <<< 12 ||| z <<< 6 ||| w = x * 262144 + y * 4096 + z * 64 + w := by
  have h : x <<< 18 = x <<< 12 <<< 6 := Nat.shiftLeft_add x 12 6
  have h' : y <<< 12 = y <<< 6 <<< 6 := Nat.shiftLeft_add y 6 6
  rw [h, h', ← Nat.shiftLeft_or_distrib, ← Nat.shiftLeft_or_distrib, shiftLeft_twelve_or hy hz,
    shiftLeft_six_or hw]
  ring

theorem utfCont_iff (b : UInt8) : utfCont b = true ↔ IsTail b := by
  have hall : ∀ n < 256, n &&& 0xc0 = 0x80 ↔ 0x80 ≤ n ∧ n ≤ 0xBF := by decide +kernel
  rw [utfCont, beq_iff_eq, ← UInt8.toNat_inj, UInt8.toNat_and]
  exact hall b.toNat b.toNat_lt

/-- The return value and `*dst` for what stands at the head of a byte string. -/
def iterateResult : Option (ℕ × ℕ) → ℤ × ℤ
  | some (c, n) => (n, c)
  | none => (utf8procErrorInvalidutf8, -1)

/-- The two tests on the lead byte that end the decoding before a second byte is read. -/
theorem lead_out_of_range {a : UInt8} (h : 0x80 ≤ a.toNat) :
    ((a.toNat : ℤ) - 0xc2) % 2 ^ 32 > 0xf4 - 0xc2 ↔ a.toNat < 0xc2 ∨ 0xf4 < a.toNat := by
  have ha := a.toNat_lt
  omega

theorem decodeHead_of_out_of_range {a : UInt8} (h : 0x80 ≤ a.toNat)
    (hout : a.toNat < 0xc2 ∨ 0xf4 < a.toNat) (l : List UInt8) : decodeHead (a :: l) = none := by
  cases hd : decodeHead (a :: l) with
  | none => rfl
  | some p =>
    obtain ⟨c, n⟩ := p
    obtain ⟨hc, _, hp⟩ := encode_of_decodeHead hd
    have hlt := hc.lt
    have hhead : (encode c).head? = some a := by
      cases he : encode c with
      | nil => exact absurd (congrArg List.length he) (encode_length_pos c).ne'
      | cons b m =>
        rw [he] at hp
        simp [(List.cons_prefix_cons.mp hp).1]
    unfold encode at hhead
    split_ifs at hhead <;>
    · obtain rfl := Option.some.inj hhead
      rw [toNat_ofNat (by omega)] at h hout
      omega

theorem value_two {a b : UInt8} (ha : 0xC2 ≤ a.toNat) (ha' : a.toNat < 0xE0) (hb : IsTail b) :
    (a.toNat &&& 0x1f) <<< 6 ||| (b.toNat &&& 0x3f) =
      (a.toNat - 0xC0) * 64 + (b.toNat - 0x80) := by
  unfold IsTail at hb
  have hx : a.toNat &&& 0x1f = a.toNat - 0xC0 := (and_low _ 5).trans (by omega)
  have hy : b.toNat &&& 0x3f = b.toNat - 0x80 := (and_low _ 6).trans (by omega)
  rw [hx, hy, shiftLeft_six_or (by omega)]

theorem value_three {a b c : UInt8} (ha : 0xE0 ≤ a.toNat) (ha' : a.toNat < 0xF0) (hb : IsTail b)
    (hc : IsTail c) :
    (a.toNat &&& 0xf) <<< 12 ||| (b.toNat &&& 0x3f) <<< 6 ||| (c.toNat &&& 0x3f) =
      (a.toNat - 0xE0) * 4096 + (b.toNat - 0x80) * 64 + (c.toNat - 0x80) := by
  unfold IsTail at hb hc
  have hx : a.toNat &&& 0xf = a.toNat - 0xE0 := (and_low _ 4).trans (by omega)
  have hy : b.toNat &&& 0x3f = b.toNat - 0x80 := (and_low _ 6).trans (by omega)
  have hz : c.toNat &&& 0x3f = c.toNat - 0x80 := (and_low _ 6).trans (by omega)
  rw [hx, hy, hz, shiftLeft_twelve_or (by omega) (by omega)]

theorem value_four {a b c d : UInt8} (ha : 0xF0 ≤ a.toNat) (ha' : a.toNat ≤ 0xF4) (hb : IsTail b)
    (hc : IsTail c) (hd : IsTail d) :
    (a.toNat &&& 7) <<< 18 ||| (b.toNat &&& 0x3f) <<< 12 ||| (c.toNat &&& 0x3f) <<< 6 |||
        (d.toNat &&& 0x3f) =
      (a.toNat - 0xF0) * 262144 + (b.toNat - 0x80) * 4096 + (c.toNat - 0x80) * 64 +
        (d.toNat - 0x80) := by
  unfold IsTail at hb hc hd
  have hx : a.toNat &&& 7 = a.toNat - 0xF0 := (and_low _ 3).trans (by omega)
  have hy : b.toNat &&& 0x3f = b.toNat - 0x80 := (and_low _ 6).trans (by omega)
  have hz : c.toNat &&& 0x3f = c.toNat - 0x80 := (and_low _ 6).trans (by omega)
  have hw : d.toNat &&& 0x3f = d.toNat - 0x80 := (and_low _ 6).trans (by omega)
  rw [hx, hy, hz, hw, shiftLeft_eighteen_or (by omega) (by omega) (by omega)]

/-- The code tests for a surrogate before the value is put together, and for an overlong form
after it. -/
theorem accept_three {a b c : UInt8} (ha : 0xE0 ≤ a.toNat) (ha' : a.toNat < 0xF0)
    (hb : IsTail b) (hc : IsTail c) :
    (0x800 ≤ (a.toNat - 0xE0) * 4096 + (b.toNat - 0x80) * 64 + (c.toNat - 0x80) ∧
        IsScalar ((a.toNat - 0xE0) * 4096 + (b.toNat - 0x80) * 64 + (c.toNat - 0x80))) ↔
      ¬ (a.toNat = 0xed ∧ b.toNat > 0x9f) ∧
        ¬ (a.toNat - 0xE0) * 4096 + (b.toNat - 0x80) * 64 + (c.toNat - 0x80) < 0x800 := by
  unfold IsTail at hb hc
  unfold IsScalar
  omega

theorem accept_four {a b c d : UInt8} (ha : 0xF0 ≤ a.toNat) (ha' : a.toNat ≤ 0xF4)
    (hb : IsTail b) (hc : IsTail c) (hd : IsTail d) :
    (0x10000 ≤ (a.toNat - 0xF0) * 262144 + (b.toNat - 0x80) * 4096 + (c.toNat - 0x80) * 64 +
          (d.toNat - 0x80) ∧
        IsScalar ((a.toNat - 0xF0) * 262144 + (b.toNat - 0x80) * 4096 + (c.toNat - 0x80) * 64 +
          (d.toNat - 0x80))) ↔
      ¬ (a.toNat = 0xf0 ∧ b.toNat < 0x90) ∧ ¬ (a.toNat = 0xf4 ∧ b.toNat > 0x8f) := by
  unfold IsTail at hb hc hd
  unfold IsScalar
  omega

theorem reject_two {P Q R : Prop} [Decidable P] [Decidable Q] [Decidable R] {c n : ℕ}
    (h : R ↔ ¬ P ∧ ¬ Q) :
    (if P then .ok (utf8procErrorInvalidutf8, -1)
      else if Q then .ok (utf8procErrorInvalidutf8, -1) else .ok (n, c) : Exec (ℤ × ℤ)) =
      .ok (iterateResult (if R then some (c, n) else none)) := by
  by_cases hP : P
  · rw [if_pos hP, if_neg fun hR => (h.mp hR).1 hP]
    rfl
  by_cases hQ : Q
  · rw [if_neg hP, if_pos hQ, if_neg fun hR => (h.mp hR).2 hQ]
    rfl
  · rw [if_neg hP, if_neg hQ, if_pos (h.mpr ⟨hP, hQ⟩)]
    rfl

/-- Inside its object the decoder computes the scalar value at the head of the window it may
read, or reports a malformed sequence. -/
theorem utf8procIterate_window {mem : List UInt8} {str : ℕ} {w : List UInt8}
    (hw : ∀ i (h : i < w.length), mem[str + i]? = some w[i]) (hpos : w ≠ []) :
    utf8procIterate mem str w.length = .ok (iterateResult (decodeHead w)) := by
  obtain ⟨a, l, rfl⟩ := List.exists_cons_of_ne_nil hpos
  have ha := a.toNat_lt
  have hload0 : load mem str = .ok a := load_eq_ok (hw 0 (by simp))
  have hload (i : ℕ) (h : i < l.length) : load mem (str + 1 + i) = .ok l[i] := by
    rw [Nat.add_assoc, Nat.add_comm 1 i]
    exact load_eq_ok (hw (i + 1) (by simpa using h))
  rw [utf8procIterate, if_neg (by simp; omega), hload0]
  have hstop : ((str : ℤ) + if ((a :: l).length : ℤ) < 0 then 4 else ((a :: l).length : ℤ)) =
      str + 1 + l.length := by
    rw [if_neg (by omega), List.length_cons]
    push_cast
    ring
  simp only [ok_bind, hstop]
  by_cases h80 : a.toNat < 0x80
  · simp [decodeHead, h80, iterateResult]
  rw [if_neg h80]
  by_cases hout : a.toNat < 0xc2 ∨ 0xf4 < a.toNat
  · rw [if_pos ((lead_out_of_range (by omega)).mpr hout),
      decodeHead_of_out_of_range (by omega) hout]
    rfl
  unfold decodeHead
  simp only
  rw [if_neg (mt (lead_out_of_range (by omega)).mp hout), if_neg h80,
    if_neg (show ¬ a.toNat < 0xC2 by omega)]
  by_cases he0 : a.toNat < 0xe0
  · rw [if_pos he0, if_pos he0]
    cases l with
    | nil => simp [iterateResult]
    | cons b r =>
      have hload1 : load mem (str + 1) = .ok b := hload 0 (by simp)
      rw [if_neg (by simp only [List.length_cons]; push_cast; omega), hload1]
      simp only [ok_bind]
      by_cases hb : IsTail b
      · rw [(utfCont_iff b).mpr hb, if_pos hb, value_two (by omega) he0 hb]
        rfl
      · rw [Bool.eq_false_iff.mpr (mt (utfCont_iff b).mp hb), if_neg hb]
        rfl
  rw [if_neg he0, if_neg he0]
  by_cases hf0 : a.toNat < 0xf0
  · rw [if_pos hf0, if_pos hf0]
    cases l with
    | nil => simp [iterateResult]
    | cons b r =>
    cases r with
    | nil => simp [iterateResult]
    | cons c r =>
      have hload1 : load mem (str + 1) = .ok b := hload 0 (by simp)
      have hload2 : load mem (str + 1 + 1) = .ok c := hload 1 (by simp)
      rw [if_neg (by simp only [List.length_cons]; push_cast; omega), hload1]
      simp only [ok_bind, hload2]
      by_cases hb : IsTail b
      · by_cases hc : IsTail c
        · rw [(utfCont_iff b).mpr hb, (utfCont_iff c).mpr hc, value_three (by omega) hf0 hb hc]
          simp only [hb, hc, true_and, Bool.not_true, Bool.false_eq_true, if_false]
          exact reject_two (accept_three (by omega) hf0 hb hc)
        · rw [Bool.eq_false_iff.mpr (mt (utfCont_iff c).mp hc), (utfCont_iff b).mpr hb]
          simp [hc, iterateResult]
      · rw [Bool.eq_false_iff.mpr (mt (utfCont_iff b).mp hb)]
        simp [hb, iterateResult]
  rw [if_neg hf0, if_neg hf0]
  cases l with
  | nil => simp [iterateResult]
  | cons b r =>
  cases r with
  | nil => simp [iterateResult]
  | cons c r =>
  cases r with
  | nil => simp [iterateResult]
  | cons d r =>
    have hload1 : load mem (str + 1) = .ok b := hload 0 (by simp)
    have hload2 : load mem (str + 1 + 1) = .ok c := hload 1 (by simp)
    have hload3 : load mem (str + 1 + 2) = .ok d := hload 2 (by simp)
    rw [if_neg (by simp only [List.length_cons]; push_cast; omega), hload1]
    simp only [ok_bind, hload2, hload3]
    by_cases hb : IsTail b
    · by_cases hc : IsTail c
      · by_cases hd : IsTail d
        · rw [(utfCont_iff b).mpr hb, (utfCont_iff c).mpr hc, (utfCont_iff d).mpr hd,
            value_four (by omega) (by omega) hb hc hd]
          simp only [hb, hc, hd, true_and, Bool.not_true, Bool.false_eq_true, if_false]
          exact reject_two (accept_four (by omega) (by omega) hb hc hd)
        · rw [Bool.eq_false_iff.mpr (mt (utfCont_iff d).mp hd), (utfCont_iff b).mpr hb,
            (utfCont_iff c).mpr hc]
          simp [hd, iterateResult]
      · rw [Bool.eq_false_iff.mpr (mt (utfCont_iff c).mp hc), (utfCont_iff b).mpr hb]
        simp [hc, iterateResult]
    · rw [Bool.eq_false_iff.mpr (mt (utfCont_iff b).mp hb)]
      simp [hb, iterateResult]

theorem utf8procIterate_eq {mem : List UInt8} {str r : ℕ} (hr : 0 < r)
    (hlen : str + r ≤ mem.length) :
    utf8procIterate mem str r = .ok (iterateResult (decodeHead ((mem.drop str).take r))) := by
  have hlength : ((mem.drop str).take r).length = r := by
    rw [List.length_take, List.length_drop]
    omega
  have hw (i : ℕ) (hi : i < ((mem.drop str).take r).length) :
      mem[str + i]? = some ((mem.drop str).take r)[i] := by
    rw [List.getElem_take, List.getElem_drop]
    exact List.getElem?_eq_getElem _
  have hne : (mem.drop str).take r ≠ [] := by
    intro h
    rw [h] at hlength
    exact hr.ne hlength
  have h := utf8procIterate_window hw hne
  rwa [hlength] at h

theorem utf8procIterate_remaining {mem : List UInt8} {length p : ℕ} (hlen : length ≤ mem.length)
    (hp : p < length) :
    utf8procIterate mem p ((length : ℤ) - p) =
      .ok (iterateResult (decodeHead ((mem.take length).drop p))) := by
  have hsub : ((length : ℤ) - p) = ((length - p : ℕ) : ℤ) := by omega
  rw [hsub, utf8procIterate_eq (by omega) (by omega), List.drop_take]

/-- The encoder on code points; below U+110000 it computes the encoding of scalar values. -/
theorem utf8procEncodeChar_eq {c : ℕ} (hc : c < 0x110000) : utf8procEncodeChar c = encode c := by
  have hlow (n : ℕ) : n &&& 0x3F = n % 64 := and_low n 6
  rw [utf8procEncodeChar, if_neg (by omega), Int.toNat_natCast]
  simp only [hlow, Nat.shiftRight_eq_div_pow, Nat.reducePow]
  unfold encode
  split_ifs <;> first | rfl | omega

end LeoUTF8.CodecCorrectness
