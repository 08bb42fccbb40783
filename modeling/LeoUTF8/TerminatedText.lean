import LeoUTF8.CodecCorrectness

set_option autoImplicit false

/-!
# Decoding up to a NUL

Without a length the decoder assumes four readable bytes. It stops at a NUL, which ends every
sequence, so it reads nothing behind one.
-/
namespace LeoUTF8.TerminatedText
open BoundedLoop CellStorage ScalarEncoding EngineTables EngineCodec CodecCorrectness

theorem not_isTail_zero : ¬ IsTail 0 := by decide

/-- A NUL completes no sequence. -/
theorem decodeHead_append_zero {w : List UInt8} (hw : w ≠ []) :
    decodeHead (w ++ [0]) = decodeHead w := by
  have hzero := not_isTail_zero
  match w, hw with
  | [a], _ => simp [decodeHead, hzero]
  | [a, b], _ => simp [decodeHead, hzero]
  | [a, b, c], _ => simp [decodeHead, hzero]
  | a :: b :: c :: d :: w, _ => simp [decodeHead]

theorem decodeHead_take_four (w : List UInt8) : decodeHead (w.take 4) = decodeHead w := by
  match w with
  | [] | [_] | [_, _] | [_, _, _] => rfl
  | a :: b :: c :: d :: w => simp [decodeHead]

theorem decodeHead_ne_zero {w : List UInt8} (hw : 0 ∉ w) {c n : ℕ}
    (h : decodeHead w = some (c, n)) : c ≠ 0 := by
  rintro rfl
  obtain ⟨_, _, hp⟩ := encode_of_decodeHead h
  exact hw (hp.subset (by decide))

section Short

variable {mem : List UInt8} {str : ℕ} {a b : UInt8} (first : load mem str = .ok a)
include first

/-- A lead byte before a NUL is rejected whatever length is promised. -/
theorem utf8procIterate_lead (second : load mem (str + 1) = .ok 0) {strlen : ℤ}
    (h : strlen ≠ 0) : utf8procIterate mem str strlen =
      .ok (if a.toNat < 0x80 then (1, (a.toNat : ℤ)) else (utf8procErrorInvalidutf8, -1)) := by
  have hzero : utfCont 0 = false := by decide
  rw [utf8procIterate, if_neg h, first, ok_bind]
  simp only [second, ok_bind, hzero, Bool.not_false, if_true, ite_self]
  split_ifs <;> rfl

theorem utf8procIterate_pair (second : load mem (str + 1) = .ok b)
    (third : load mem (str + 1 + 1) = .ok 0) {strlen : ℤ} (h : strlen < 0 ∨ 2 ≤ strlen) :
    utf8procIterate mem str strlen =
      if a.toNat < 0x80 then .ok (1, (a.toNat : ℤ))
      else if ((a.toNat : ℤ) - 0xc2) % 2 ^ 32 > 0xf4 - 0xc2 then .ok (utf8procErrorInvalidutf8, -1)
      else if a.toNat < 0xe0 ∧ utfCont b then
        .ok (2, ((a.toNat &&& 0x1f) <<< 6 ||| (b.toNat &&& 0x3f) : ℕ))
      else .ok (utf8procErrorInvalidutf8, -1) := by
  have hzero : utfCont 0 = false := by decide
  have hstop : ¬ (((str + 1 : ℕ) : ℤ) ≥ (str : ℤ) + if strlen < 0 then 4 else strlen) := by
    split_ifs <;> omega
  rw [utf8procIterate, if_neg (by omega), first, ok_bind]
  simp only [second, third, ok_bind, hzero, hstop, Bool.not_false, if_true, if_false, ite_self]
  cases utfCont b <;> simp

end Short

/-- Where the text ends before the four bytes do, its NUL is read instead of what follows. -/
theorem utf8procIterate_terminated {mem w rest : List UInt8} {str : ℕ}
    (hmem : mem.drop str = w ++ 0 :: rest) :
    utf8procIterate mem str (-1) = .ok (iterateResult (decodeHead (w ++ [0]))) := by
  have hget (i : ℕ) (h : i < (w ++ [0]).length) : mem[str + i]? = some (w ++ [0])[i] := by
    have hsplit : w ++ 0 :: rest = (w ++ [0]) ++ rest := by simp
    rw [← List.getElem?_drop, hmem, hsplit, List.getElem?_append_left h]
    exact List.getElem?_eq_getElem h
  match w with
  | [] =>
    have hload : load mem str = .ok 0 := load_eq_ok (hget 0 (by simp))
    rw [utf8procIterate, hload]
    rfl
  | [a] =>
    have hfirst : load mem str = .ok a := load_eq_ok (hget 0 (by simp))
    have hsecond : load mem (str + 1) = .ok 0 := load_eq_ok (hget 1 (by simp))
    rw [← utf8procIterate_window hget (by simp), utf8procIterate_lead hfirst hsecond (by decide),
      utf8procIterate_lead hfirst hsecond (by simp)]
  | [a, b] =>
    have hfirst : load mem str = .ok a := load_eq_ok (hget 0 (by simp))
    have hsecond : load mem (str + 1) = .ok b := load_eq_ok (hget 1 (by simp))
    have hthird : load mem (str + 1 + 1) = .ok 0 := load_eq_ok (hget 2 (by simp))
    rw [← utf8procIterate_window hget (by simp),
      utf8procIterate_pair hfirst hsecond hthird (Or.inl (by decide)),
      utf8procIterate_pair hfirst hsecond hthird (Or.inr (by simp))]
  | a :: b :: c :: w =>
    have hlength : ((a :: b :: c :: w ++ [0]).take 4).length = 4 := by simp
    have h := utf8procIterate_window (w := (a :: b :: c :: w ++ [0]).take 4) (by
      intro i hi
      rw [List.getElem_take]
      exact hget i (by rw [List.length_take] at hi; omega)) (by simp)
    rw [hlength, decodeHead_take_four] at h
    exact h

end LeoUTF8.TerminatedText
