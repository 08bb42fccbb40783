import Mathlib.Tactic

set_option autoImplicit false

/-!
# Hexadecimal text

A text of digits and blanks denotes the bytes of its pairs of digits. The blanks may stand
anywhere, also between the two digits of a byte.
-/
namespace LeoUTF8.HexText

/-- The value of a digit in ASCII, of either case. -/
def digit (ch : UInt8) : Option ℕ :=
  if 0x30 ≤ ch ∧ ch ≤ 0x39 then some (ch.toNat - 0x30)
  else if 0x61 ≤ ch ∧ ch ≤ 0x66 then some (ch.toNat - 0x61 + 10)
  else if 0x41 ≤ ch ∧ ch ≤ 0x46 then some (ch.toNat - 0x41 + 10)
  else none

def digits (text : List UInt8) : List ℕ := text.filterMap digit

/-- The bytes of the pairs of digits. A last digit without a second one denotes nothing. -/
def bytesOf : List ℕ → List UInt8
  | [] => []
  | [_] => []
  | high :: low :: ds => UInt8.ofNat (16 * high + low) :: bytesOf ds

/-- Digits in pairs, and blanks. -/
structure IsHex (blanks : List UInt8) (text : List UInt8) : Prop where
  alphabet : ∀ ch ∈ text, digit ch ≠ none ∨ ch ∈ blanks
  paired : (digits text).length % 2 = 0

def denoted (text : List UInt8) : List UInt8 := bytesOf (digits text)

theorem digit_lt {ch : UInt8} {d : ℕ} (h : digit ch = some d) : d < 16 := by
  simp only [digit, UInt8.le_iff_toNat_le] at h
  split_ifs at h with h0 ha hA <;> cases h
  · have := h0.2
    simp only [UInt8.reduceToNat] at this
    omega
  · have := ha.2
    simp only [UInt8.reduceToNat] at this
    omega
  · have := hA.2
    simp only [UInt8.reduceToNat] at this
    omega

theorem digits_lt {text : List UInt8} {d : ℕ} (h : d ∈ digits text) : d < 16 := by
  obtain ⟨ch, _, hch⟩ := List.mem_filterMap.mp h
  exact digit_lt hch

@[simp] theorem digits_nil : digits [] = [] := rfl

theorem digits_append (s t : List UInt8) : digits (s ++ t) = digits s ++ digits t :=
  List.filterMap_append

theorem digits_cons_of_some {ch : UInt8} {d : ℕ} (h : digit ch = some d) (text : List UInt8) :
    digits (ch :: text) = d :: digits text := List.filterMap_cons_some h

theorem digits_cons_of_none {ch : UInt8} (h : digit ch = none) (text : List UInt8) :
    digits (ch :: text) = digits text := List.filterMap_cons_none h

theorem digits_replicate {ch : UInt8} {d : ℕ} (h : digit ch = some d) (n : ℕ) :
    digits (List.replicate n ch) = List.replicate n d := by
  rw [digits, List.filterMap_replicate_of_some h]

theorem bytesOf_length (ds : List ℕ) : (bytesOf ds).length = ds.length / 2 := by
  induction ds using bytesOf.induct with
  | case1 => rfl
  | case2 d => simp [bytesOf]
  | case3 high low ds ih =>
    rw [bytesOf, List.length_cons, ih, List.length_cons, List.length_cons]
    omega

theorem ofNat_pair_injective {high low high' low' : ℕ} (hh : high < 16) (hl : low < 16)
    (hh' : high' < 16) (hl' : low' < 16)
    (h : UInt8.ofNat (16 * high + low) = UInt8.ofNat (16 * high' + low')) :
    high = high' ∧ low = low' := by
  have hnat := congrArg UInt8.toNat h
  rw [UInt8.toNat_ofNat_of_lt' (show 16 * high + low < 256 by omega),
    UInt8.toNat_ofNat_of_lt' (show 16 * high' + low' < 256 by omega)] at hnat
  omega

/-- Digits in pairs are determined by the bytes that they denote. -/
theorem bytesOf_injective {ds es : List ℕ} (hds : ∀ d ∈ ds, d < 16) (hes : ∀ e ∈ es, e < 16)
    (hd : ds.length % 2 = 0) (he : es.length % 2 = 0) (h : bytesOf ds = bytesOf es) : ds = es := by
  induction ds using bytesOf.induct generalizing es with
  | case1 =>
    have hlen := congrArg List.length h
    rw [bytesOf_length, bytesOf_length, List.length_nil] at hlen
    exact (List.length_eq_zero_iff.mp (by omega)).symm
  | case2 d => simp at hd
  | case3 high low ds ih =>
    induction es using bytesOf.induct with
    | case1 => simp [bytesOf] at h
    | case2 e => simp at he
    | case3 high' low' es _ =>
      simp only [List.forall_mem_cons] at hds hes
      simp only [List.length_cons] at hd he
      rw [bytesOf, bytesOf, List.cons.injEq] at h
      obtain ⟨rfl, rfl⟩ := ofNat_pair_injective hds.1 hds.2.1 hes.1 hes.2.1 h.1
      rw [ih hds.2.2 hes.2.2 (by omega) (by omega) h.2]

theorem IsHex.take {blanks text : List UInt8} (h : IsHex blanks text) {n : ℕ}
    (hpaired : (digits (text.take n)).length % 2 = 0) : IsHex blanks (text.take n) :=
  ⟨fun ch hch => h.alphabet ch (List.mem_of_mem_take hch), hpaired⟩

theorem IsHex.append_blank {blanks text : List UInt8} {ch : UInt8} (hblank : ch ∈ blanks)
    (hdigit : digit ch = none) : IsHex blanks (text ++ [ch]) ↔ IsHex blanks text := by
  have hdigits : digits (text ++ [ch]) = digits text := by
    rw [digits_append, digits_cons_of_none hdigit, digits_nil, List.append_nil]
  constructor
  · intro h
    exact ⟨fun c hc => h.alphabet c (List.mem_append_left _ hc), hdigits ▸ h.paired⟩
  · intro h
    refine ⟨fun c hc => ?_, hdigits.symm ▸ h.paired⟩
    rcases List.mem_append.mp hc with hc | hc
    · exact h.alphabet c hc
    · rw [List.mem_singleton.mp hc]
      exact Or.inr hblank

end LeoUTF8.HexText
