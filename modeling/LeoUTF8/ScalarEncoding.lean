import Mathlib.Tactic

set_option autoImplicit false

/-!
# UTF-8 as a language

Unicode scalar values, their shortest encodings, the byte sequences of the
Unicode Standard's Table 3-7, and decoding. Bytes are `UInt8` and code points are
natural numbers.
-/
namespace LeoUTF8.ScalarEncoding

/-- A code point that is not a surrogate. -/
def IsScalar (c : ℕ) : Prop := c < 0xD800 ∨ (0xDFFF < c ∧ c < 0x110000)

instance (c : ℕ) : Decidable (IsScalar c) := inferInstanceAs (Decidable (_ ∨ _))

theorem IsScalar.lt {c : ℕ} (h : IsScalar c) : c < 0x110000 := by
  unfold IsScalar at h
  omega

def encode (c : ℕ) : List UInt8 :=
  if c < 0x80 then [.ofNat c]
  else if c < 0x800 then [.ofNat (0xC0 + c / 64), .ofNat (0x80 + c % 64)]
  else if c < 0x10000 then
    [.ofNat (0xE0 + c / 4096), .ofNat (0x80 + c / 64 % 64), .ofNat (0x80 + c % 64)]
  else
    [.ofNat (0xF0 + c / 262144), .ofNat (0x80 + c / 4096 % 64),
      .ofNat (0x80 + c / 64 % 64), .ofNat (0x80 + c % 64)]

def encodeAll (cs : List ℕ) : List UInt8 := cs.flatMap encode

@[simp] theorem encodeAll_nil : encodeAll [] = [] := rfl

@[simp] theorem encodeAll_cons (c : ℕ) (cs : List ℕ) :
    encodeAll (c :: cs) = encode c ++ encodeAll cs := List.flatMap_cons

@[simp] theorem encodeAll_append (cs ds : List ℕ) :
    encodeAll (cs ++ ds) = encodeAll cs ++ encodeAll ds := List.flatMap_append

theorem encode_length_pos (c : ℕ) : 0 < (encode c).length := by
  unfold encode
  split_ifs <;> simp

theorem encode_length_le (c : ℕ) : (encode c).length ≤ 4 := by
  unfold encode
  split_ifs <;> simp

theorem encodeAll_length_le (cs : List ℕ) : (encodeAll cs).length ≤ 4 * cs.length := by
  induction cs with
  | nil => simp
  | cons c cs ih =>
    have h := encode_length_le c
    simp only [encodeAll_cons, List.length_append, List.length_cons]
    omega

/-- The encoder of the standard library is the same function on scalar values. -/
theorem encode_eq_utf8EncodeChar (c : Char) : encode c.toNat = String.utf8EncodeChar c := by
  have hc : c.toNat < 0x110000 := by
    have h := c.valid
    simp only [UInt32.isValidChar, Nat.isValidChar] at h
    change c.val.toNat < _
    omega
  change encode c.toNat = if c.toNat ≤ 0x7f then [.ofNat c.toNat]
    else if c.toNat ≤ 0x7ff then
      [.ofNat (c.toNat / 64 % 0x20 + 0xc0), .ofNat (c.toNat % 0x40 + 0x80)]
    else if c.toNat ≤ 0xffff then
      [.ofNat (c.toNat / 4096 % 0x10 + 0xe0), .ofNat (c.toNat / 64 % 0x40 + 0x80),
        .ofNat (c.toNat % 0x40 + 0x80)]
    else
      [.ofNat (c.toNat / 262144 % 0x08 + 0xf0), .ofNat (c.toNat / 4096 % 0x40 + 0x80),
        .ofNat (c.toNat / 64 % 0x40 + 0x80), .ofNat (c.toNat % 0x40 + 0x80)]
  generalize c.toNat = v at hc
  unfold encode
  by_cases h1 : v < 0x80
  · rw [if_pos h1, if_pos (by omega)]
  rw [if_neg h1, if_neg (by omega : ¬ v ≤ 0x7f)]
  by_cases h2 : v < 0x800
  · rw [if_pos h2, if_pos (by omega), show v / 64 % 0x20 + 0xc0 = 0xC0 + v / 64 by omega,
      Nat.add_comm (v % 64)]
  rw [if_neg h2, if_neg (by omega : ¬ v ≤ 0x7ff)]
  by_cases h3 : v < 0x10000
  · rw [if_pos h3, if_pos (by omega), show v / 4096 % 0x10 + 0xe0 = 0xE0 + v / 4096 by omega,
      Nat.add_comm (v % 64), Nat.add_comm (v / 64 % 64)]
  · rw [if_neg h3, if_neg (by omega : ¬ v ≤ 0xffff),
      show v / 262144 % 0x08 + 0xf0 = 0xF0 + v / 262144 by omega, Nat.add_comm (v % 64),
      Nat.add_comm (v / 64 % 64), Nat.add_comm (v / 4096 % 64)]

def IsTail (b : UInt8) : Prop := 0x80 ≤ b.toNat ∧ b.toNat ≤ 0xBF

instance (b : UInt8) : Decidable (IsTail b) := inferInstanceAs (Decidable (_ ∧ _))

/-- The rows of Table 3-7, well-formed UTF-8 byte sequences. -/
inductive IsSequence : List UInt8 → Prop where
  | ascii {a : UInt8} : a.toNat ≤ 0x7F → IsSequence [a]
  | c2df {a b : UInt8} : 0xC2 ≤ a.toNat → a.toNat ≤ 0xDF → IsTail b → IsSequence [a, b]
  | e0 {a b c : UInt8} : a.toNat = 0xE0 → 0xA0 ≤ b.toNat → b.toNat ≤ 0xBF → IsTail c →
      IsSequence [a, b, c]
  | e1ec {a b c : UInt8} : 0xE1 ≤ a.toNat → a.toNat ≤ 0xEC → IsTail b → IsTail c →
      IsSequence [a, b, c]
  | ed {a b c : UInt8} : a.toNat = 0xED → 0x80 ≤ b.toNat → b.toNat ≤ 0x9F → IsTail c →
      IsSequence [a, b, c]
  | eeef {a b c : UInt8} : 0xEE ≤ a.toNat → a.toNat ≤ 0xEF → IsTail b → IsTail c →
      IsSequence [a, b, c]
  | f0 {a b c d : UInt8} : a.toNat = 0xF0 → 0x90 ≤ b.toNat → b.toNat ≤ 0xBF → IsTail c →
      IsTail d → IsSequence [a, b, c, d]
  | f1f3 {a b c d : UInt8} : 0xF1 ≤ a.toNat → a.toNat ≤ 0xF3 → IsTail b → IsTail c →
      IsTail d → IsSequence [a, b, c, d]
  | f4 {a b c d : UInt8} : a.toNat = 0xF4 → 0x80 ≤ b.toNat → b.toNat ≤ 0x8F → IsTail c →
      IsTail d → IsSequence [a, b, c, d]

theorem ofNat_eq {x : ℕ} {a : UInt8} (h : x = a.toNat) : UInt8.ofNat x = a := by
  subst h
  exact UInt8.ofNat_toNat

theorem toNat_ofNat {x : ℕ} (h : x < 256) : (UInt8.ofNat x).toNat = x := by
  rw [UInt8.toNat_ofNat']
  exact Nat.mod_eq_of_lt h

/-- The scalar value at the head of a byte string and the length of its encoding. -/
def decodeHead : List UInt8 → Option (ℕ × ℕ)
  | [] => none
  | a :: l =>
    if a.toNat < 0x80 then some (a.toNat, 1)
    else if a.toNat < 0xC2 then none
    else if a.toNat < 0xE0 then
      match l with
      | b :: _ => if IsTail b then some ((a.toNat - 0xC0) * 64 + (b.toNat - 0x80), 2) else none
      | _ => none
    else if a.toNat < 0xF0 then
      match l with
      | b :: c :: _ =>
        let v := (a.toNat - 0xE0) * 4096 + (b.toNat - 0x80) * 64 + (c.toNat - 0x80)
        if IsTail b ∧ IsTail c ∧ 0x800 ≤ v ∧ IsScalar v then some (v, 3) else none
      | _ => none
    else
      match l with
      | b :: c :: d :: _ =>
        let v := (a.toNat - 0xF0) * 262144 + (b.toNat - 0x80) * 4096 +
          (c.toNat - 0x80) * 64 + (d.toNat - 0x80)
        if IsTail b ∧ IsTail c ∧ IsTail d ∧ 0x10000 ≤ v ∧ IsScalar v then some (v, 4) else none
      | _ => none

theorem decodeHead_encode_append {c : ℕ} (hc : IsScalar c) (l : List UInt8) :
    decodeHead (encode c ++ l) = some (c, (encode c).length) := by
  have hlt := hc.lt
  unfold encode
  split_ifs with h1 h2 h3
  · simp only [List.singleton_append, decodeHead, toNat_ofNat (show c < 256 by omega), h1,
      if_true, List.length_singleton]
  · have ha := toNat_ofNat (show 0xC0 + c / 64 < 256 by omega)
    have hb := toNat_ofNat (show 0x80 + c % 64 < 256 by omega)
    have hv : (0xC0 + c / 64 - 0xC0) * 64 + (0x80 + c % 64 - 0x80) = c := by omega
    simp only [List.cons_append, List.nil_append, decodeHead, ha, hb, hv, IsTail]
    rw [if_neg (by omega), if_neg (by omega), if_pos (by omega), if_pos ⟨by omega, by omega⟩]
    rfl
  · have ha := toNat_ofNat (show 0xE0 + c / 4096 < 256 by omega)
    have hb := toNat_ofNat (show 0x80 + c / 64 % 64 < 256 by omega)
    have hd := toNat_ofNat (show 0x80 + c % 64 < 256 by omega)
    have hv : (0xE0 + c / 4096 - 0xE0) * 4096 + (0x80 + c / 64 % 64 - 0x80) * 64 +
        (0x80 + c % 64 - 0x80) = c := by omega
    simp only [List.cons_append, List.nil_append, decodeHead, ha, hb, hd, hv, IsTail]
    rw [if_neg (by omega), if_neg (by omega), if_neg (by omega), if_pos (by omega),
      if_pos ⟨by omega, by omega, by omega, hc⟩]
    rfl
  · have ha := toNat_ofNat (show 0xF0 + c / 262144 < 256 by omega)
    have hb := toNat_ofNat (show 0x80 + c / 4096 % 64 < 256 by omega)
    have hd := toNat_ofNat (show 0x80 + c / 64 % 64 < 256 by omega)
    have he := toNat_ofNat (show 0x80 + c % 64 < 256 by omega)
    have hv : (0xF0 + c / 262144 - 0xF0) * 262144 + (0x80 + c / 4096 % 64 - 0x80) * 4096 +
        (0x80 + c / 64 % 64 - 0x80) * 64 + (0x80 + c % 64 - 0x80) = c := by omega
    simp only [List.cons_append, List.nil_append, decodeHead, ha, hb, hd, he, hv, IsTail]
    rw [if_neg (by omega), if_neg (by omega), if_neg (by omega), if_neg (by omega),
      if_pos ⟨by omega, by omega, by omega, by omega, hc⟩]
    rfl

theorem encode_of_decodeHead {l : List UInt8} {c n : ℕ} (h : decodeHead l = some (c, n)) :
    IsScalar c ∧ n = (encode c).length ∧ encode c <+: l := by
  cases l with
  | nil => simp [decodeHead] at h
  | cons a l =>
    have ha := a.toNat_lt
    simp only [decodeHead] at h
    split_ifs at h with h1 h2 h3 h4
    · obtain ⟨rfl, rfl⟩ := by simpa using h
      refine ⟨Or.inl (by omega), ?_, ?_⟩ <;> simp [encode, h1]
    · split at h
      · rename_i b r
        split_ifs at h with ht
        obtain ⟨rfl, rfl⟩ := by simpa using h
        unfold IsTail at ht
        have hc : encode ((a.toNat - 0xC0) * 64 + (b.toNat - 0x80)) = [a, b] := by
          rw [encode, if_neg (by omega), if_pos (by omega)]
          rw [ofNat_eq (show _ = a.toNat by omega), ofNat_eq (show _ = b.toNat by omega)]
        exact ⟨Or.inl (by omega), by simp [hc], by simp [hc]⟩
      · simp at h
    · split at h
      · rename_i b d r
        split_ifs at h with ht
        obtain ⟨hb, hd, hv, hs⟩ := ht
        obtain ⟨rfl, rfl⟩ := by simpa using h
        unfold IsTail at hb hd
        have hc : encode ((a.toNat - 0xE0) * 4096 + (b.toNat - 0x80) * 64 + (d.toNat - 0x80)) =
            [a, b, d] := by
          rw [encode, if_neg (by omega), if_neg (by omega), if_pos (by omega)]
          rw [ofNat_eq (show _ = a.toNat by omega), ofNat_eq (show _ = b.toNat by omega),
            ofNat_eq (show _ = d.toNat by omega)]
        exact ⟨hs, by simp [hc], by simp [hc]⟩
      · simp at h
    · split at h
      · rename_i b d e r
        split_ifs at h with ht
        obtain ⟨hb, hd, he, hv, hs⟩ := ht
        obtain ⟨rfl, rfl⟩ := by simpa using h
        unfold IsTail at hb hd he
        have hc : encode ((a.toNat - 0xF0) * 262144 + (b.toNat - 0x80) * 4096 +
            (d.toNat - 0x80) * 64 + (e.toNat - 0x80)) = [a, b, d, e] := by
          rw [encode, if_neg (by omega), if_neg (by omega), if_neg (by omega)]
          rw [ofNat_eq (show _ = a.toNat by omega), ofNat_eq (show _ = b.toNat by omega),
            ofNat_eq (show _ = d.toNat by omega), ofNat_eq (show _ = e.toNat by omega)]
        exact ⟨hs, by simp [hc], by simp [hc]⟩
      · simp at h

theorem IsSequence.decodes {l : List UInt8} (h : IsSequence l) :
    ∃ c, decodeHead l = some (c, l.length) := by
  cases h with
  | ascii ha =>
    exact ⟨_, by
      simp only [decodeHead]
      rw [if_pos (by omega)]
      rfl⟩
  | c2df ha ha' hb =>
    exact ⟨_, by
      simp only [decodeHead]
      rw [if_neg (by omega), if_neg (by omega), if_pos (by omega), if_pos hb]
      rfl⟩
  | e0 ha hb hb' hc =>
    unfold IsTail at hc
    exact ⟨_, by
      simp only [decodeHead]
      rw [if_neg (by omega), if_neg (by omega), if_neg (by omega), if_pos (by omega),
        if_pos ⟨⟨by omega, hb'⟩, hc, by omega, by unfold IsScalar; omega⟩]
      rfl⟩
  | e1ec ha ha' hb hc | eeef ha ha' hb hc =>
    unfold IsTail at hb hc
    exact ⟨_, by
      simp only [decodeHead]
      rw [if_neg (by omega), if_neg (by omega), if_neg (by omega), if_pos (by omega),
        if_pos ⟨hb, hc, by omega, by unfold IsScalar; omega⟩]
      rfl⟩
  | ed ha hb hb' hc =>
    unfold IsTail at hc
    exact ⟨_, by
      simp only [decodeHead]
      rw [if_neg (by omega), if_neg (by omega), if_neg (by omega), if_pos (by omega),
        if_pos ⟨⟨hb, by omega⟩, hc, by omega, by unfold IsScalar; omega⟩]
      rfl⟩
  | f0 ha hb hb' hc hd =>
    unfold IsTail at hc hd
    exact ⟨_, by
      simp only [decodeHead]
      rw [if_neg (by omega), if_neg (by omega), if_neg (by omega), if_neg (by omega),
        if_pos ⟨⟨by omega, hb'⟩, hc, hd, by omega, by unfold IsScalar; omega⟩]
      rfl⟩
  | f1f3 ha ha' hb hc hd =>
    unfold IsTail at hb hc hd
    exact ⟨_, by
      simp only [decodeHead]
      rw [if_neg (by omega), if_neg (by omega), if_neg (by omega), if_neg (by omega),
        if_pos ⟨hb, hc, hd, by omega, by unfold IsScalar; omega⟩]
      rfl⟩
  | f4 ha hb hb' hc hd =>
    unfold IsTail at hc hd
    exact ⟨_, by
      simp only [decodeHead]
      rw [if_neg (by omega), if_neg (by omega), if_neg (by omega), if_neg (by omega),
        if_pos ⟨⟨hb, by omega⟩, hc, hd, by omega, by unfold IsScalar; omega⟩]
      rfl⟩

theorem isSequence_encode {c : ℕ} (hc : IsScalar c) : IsSequence (encode c) := by
  have hlt := hc.lt
  unfold IsScalar at hc
  unfold encode
  split_ifs with h1 h2 h3
  · exact .ascii (by rw [toNat_ofNat (by omega)]; omega)
  · have ha := toNat_ofNat (show 0xC0 + c / 64 < 256 by omega)
    have hb := toNat_ofNat (show 0x80 + c % 64 < 256 by omega)
    exact .c2df (by omega) (by omega) ⟨by omega, by omega⟩
  · have ha := toNat_ofNat (show 0xE0 + c / 4096 < 256 by omega)
    have hb := toNat_ofNat (show 0x80 + c / 64 % 64 < 256 by omega)
    have hd := toNat_ofNat (show 0x80 + c % 64 < 256 by omega)
    by_cases h4 : c < 0x1000
    · exact .e0 (by omega) (by omega) (by omega) ⟨by omega, by omega⟩
    by_cases h5 : c < 0xD000
    · exact .e1ec (by omega) (by omega) ⟨by omega, by omega⟩ ⟨by omega, by omega⟩
    by_cases h6 : c < 0xE000
    · exact .ed (by omega) (by omega) (by omega) ⟨by omega, by omega⟩
    · exact .eeef (by omega) (by omega) ⟨by omega, by omega⟩ ⟨by omega, by omega⟩
  · have ha := toNat_ofNat (show 0xF0 + c / 262144 < 256 by omega)
    have hb := toNat_ofNat (show 0x80 + c / 4096 % 64 < 256 by omega)
    have hd := toNat_ofNat (show 0x80 + c / 64 % 64 < 256 by omega)
    have he := toNat_ofNat (show 0x80 + c % 64 < 256 by omega)
    by_cases h4 : c < 0x40000
    · exact .f0 (by omega) (by omega) (by omega) ⟨by omega, by omega⟩ ⟨by omega, by omega⟩
    by_cases h5 : c < 0x100000
    · exact .f1f3 (by omega) (by omega) ⟨by omega, by omega⟩ ⟨by omega, by omega⟩
        ⟨by omega, by omega⟩
    · exact .f4 (by omega) (by omega) (by omega) ⟨by omega, by omega⟩ ⟨by omega, by omega⟩

/-- Table 3-7 lists exactly the encodings of the scalar values. -/
theorem isSequence_iff {l : List UInt8} : IsSequence l ↔ ∃ c, IsScalar c ∧ l = encode c := by
  constructor
  · intro h
    obtain ⟨c, hd⟩ := h.decodes
    obtain ⟨hc, hn, hp⟩ := encode_of_decodeHead hd
    exact ⟨c, hc, (hp.eq_of_length hn.symm).symm⟩
  · rintro ⟨c, hc, rfl⟩
    exact isSequence_encode hc

/-- A concatenation of well-formed encodings. -/
def WellFormed (l : List UInt8) : Prop := ∃ cs, (∀ c ∈ cs, IsScalar c) ∧ l = encodeAll cs

theorem wellFormed_iff_sequences {l : List UInt8} :
    WellFormed l ↔ ∃ ss : List (List UInt8), (∀ s ∈ ss, IsSequence s) ∧ l = ss.flatten := by
  constructor
  · rintro ⟨cs, hcs, rfl⟩
    refine ⟨cs.map encode, ?_, ?_⟩
    · intro s hs
      obtain ⟨c, hc, rfl⟩ := List.mem_map.mp hs
      exact isSequence_encode (hcs c hc)
    · exact List.flatMap_def
  · rintro ⟨ss, hss, rfl⟩
    induction ss with
    | nil => exact ⟨[], by simp, rfl⟩
    | cons s ss ih =>
      obtain ⟨cs, hcs, h⟩ := ih (fun t ht => hss t (List.mem_cons_of_mem s ht))
      obtain ⟨c, hc, rfl⟩ := isSequence_iff.mp (hss s List.mem_cons_self)
      refine ⟨c :: cs, ?_, by rw [List.flatten_cons, h, encodeAll_cons]⟩
      simpa [hc] using hcs

/-- The scalar values of the longest well-formed prefix, and what follows that prefix. -/
def decode (l : List UInt8) : List ℕ × List UInt8 :=
  match _h : decodeHead l with
  | none => ([], l)
  | some (c, n) =>
    let rest := decode (l.drop n)
    (c :: rest.1, rest.2)
termination_by l.length
decreasing_by
  obtain ⟨_, hn, hp⟩ := encode_of_decodeHead _h
  have hlen := hp.length_le
  have hpos := encode_length_pos c
  rw [List.length_drop]
  omega

theorem decode_of_none {l : List UInt8} (h : decodeHead l = none) : decode l = ([], l) := by
  rw [decode]
  split
  · rfl
  · rename_i hs
    rw [h] at hs
    cases hs

@[simp] theorem decode_nil : decode [] = ([], []) := decode_of_none (l := []) rfl

theorem decode_encode_append {c : ℕ} (hc : IsScalar c) (l : List UInt8) :
    decode (encode c ++ l) = (c :: (decode l).1, (decode l).2) := by
  have h := decodeHead_encode_append hc l
  rw [decode]
  split
  · rename_i hs
    rw [h] at hs
    cases hs
  · rename_i d n hs
    rw [h] at hs
    obtain ⟨rfl, rfl⟩ := by simpa using hs
    rw [List.drop_left]

theorem decodeHead_bounds {l : List UInt8} {c n : ℕ} (h : decodeHead l = some (c, n)) :
    0 < n ∧ n ≤ l.length := by
  obtain ⟨_, rfl, hp⟩ := encode_of_decodeHead h
  exact ⟨encode_length_pos c, hp.length_le⟩

theorem decode_of_some {l : List UInt8} {c n : ℕ} (h : decodeHead l = some (c, n)) :
    decode l = (c :: (decode (l.drop n)).1, (decode (l.drop n)).2) := by
  obtain ⟨hc, rfl, r, rfl⟩ := encode_of_decodeHead h
  rw [decode_encode_append hc, List.drop_left]

theorem decode_encodeAll_append {cs : List ℕ} (hcs : ∀ c ∈ cs, IsScalar c) (l : List UInt8) :
    decode (encodeAll cs ++ l) = (cs ++ (decode l).1, (decode l).2) := by
  induction cs with
  | nil => rfl
  | cons c cs ih =>
    rw [encodeAll_cons, List.append_assoc, decode_encode_append (hcs c List.mem_cons_self),
      ih (fun d hd => hcs d (List.mem_cons_of_mem c hd))]
    rfl

theorem decode_encodeAll {cs : List ℕ} (hcs : ∀ c ∈ cs, IsScalar c) :
    decode (encodeAll cs) = (cs, []) := by
  have h := decode_encodeAll_append hcs []
  rwa [List.append_nil, decode_nil, List.append_nil] at h

theorem decode_spec (l : List UInt8) :
    (∀ c ∈ (decode l).1, IsScalar c) ∧ l = encodeAll (decode l).1 ++ (decode l).2 ∧
      decodeHead (decode l).2 = none := by
  induction hn : l.length using Nat.strong_induction_on generalizing l with
  | _ n ih =>
    cases h : decodeHead l with
    | none =>
      rw [decode_of_none h]
      exact ⟨by simp, rfl, h⟩
    | some p =>
      obtain ⟨c, m⟩ := p
      obtain ⟨hc, _, r, rfl⟩ := encode_of_decodeHead h
      have hpos := encode_length_pos c
      obtain ⟨hs, heq, hr⟩ := ih r.length (by rw [← hn, List.length_append]; omega) r rfl
      rw [decode_encode_append hc]
      refine ⟨?_, ?_, hr⟩
      · simpa [hc] using hs
      · change encode c ++ r = encodeAll (c :: (decode r).1) ++ (decode r).2
        rw [encodeAll_cons, List.append_assoc, ← heq]

theorem wellFormed_iff_decode {l : List UInt8} : WellFormed l ↔ (decode l).2 = [] := by
  obtain ⟨hs, heq, _⟩ := decode_spec l
  constructor
  · rintro ⟨cs, hcs, rfl⟩
    rw [decode_encodeAll hcs]
  · intro h
    rw [h, List.append_nil] at heq
    exact ⟨_, hs, heq⟩

theorem ofNat_inj {x y : ℕ} (hx : x < 256) (hy : y < 256) : UInt8.ofNat x = .ofNat y ↔ x = y := by
  constructor
  · intro h
    have hxy := congrArg UInt8.toNat h
    rwa [toNat_ofNat hx, toNat_ofNat hy] at hxy
  · intro h
    rw [h]

/-- The first byte tells the length, and the bytes tell the code point, surrogates included. -/
theorem encode_append_inj {c d : ℕ} (hc : c < 0x110000) (hd : d < 0x110000) {l m : List UInt8}
    (h : encode c ++ l = encode d ++ m) : c = d ∧ l = m := by
  unfold encode at h
  split_ifs at h <;>
    simp (disch := omega) only [List.cons_append, List.nil_append, List.cons.injEq, ofNat_inj] at h
  all_goals first
    | exact absurd h.1 (by omega)
    | exact ⟨by omega, h.2⟩
    | exact ⟨by omega, h.2.2⟩
    | exact ⟨by omega, h.2.2.2⟩
    | exact ⟨by omega, h.2.2.2.2⟩

theorem encodeAll_injective {cs ds : List ℕ} (hcs : ∀ c ∈ cs, c < 0x110000)
    (hds : ∀ d ∈ ds, d < 0x110000) (h : encodeAll cs = encodeAll ds) : cs = ds := by
  have hne (c : ℕ) (l : List ℕ) : encodeAll (c :: l) ≠ [] := by
    rw [encodeAll_cons]
    exact List.append_ne_nil_of_left_ne_nil (List.length_pos_iff.mp (encode_length_pos c)) _
  induction cs generalizing ds with
  | nil =>
    cases ds with
    | nil => rfl
    | cons d ds => exact absurd h.symm (hne d ds)
  | cons c cs ih =>
    cases ds with
    | nil => exact absurd h (hne c cs)
    | cons d ds =>
      rw [encodeAll_cons, encodeAll_cons] at h
      obtain ⟨rfl, htail⟩ :=
        encode_append_inj (hcs c List.mem_cons_self) (hds d List.mem_cons_self) h
      rw [ih (fun x hx => hcs x (List.mem_cons_of_mem c hx))
        (fun x hx => hds x (List.mem_cons_of_mem c hx)) htail]

/-- A code point sequence can be cut where an encoding ends. -/
theorem encodeAll_split {es cs : List ℕ} {l : List UInt8} (hes : ∀ e ∈ es, IsScalar e)
    (hcs : ∀ c ∈ cs, IsScalar c) (h : encodeAll es = encodeAll cs ++ l) :
    ∃ ds, (∀ d ∈ ds, IsScalar d) ∧ es = cs ++ ds ∧ l = encodeAll ds := by
  obtain ⟨hscalar, hl, _⟩ := decode_spec l
  have hdecode := decode_encodeAll_append hcs l
  rw [← h, decode_encodeAll hes] at hdecode
  obtain ⟨hes, hrest⟩ : es = cs ++ (decode l).1 ∧ [] = (decode l).2 := by simpa using hdecode
  rw [← hrest, List.append_nil] at hl
  exact ⟨(decode l).1, hscalar, hes, hl⟩

theorem WellFormed.append {l m : List UInt8} (hl : WellFormed l) (hm : WellFormed m) :
    WellFormed (l ++ m) := by
  obtain ⟨cs, hcs, rfl⟩ := hl
  obtain ⟨ds, hds, rfl⟩ := hm
  refine ⟨cs ++ ds, ?_, (encodeAll_append cs ds).symm⟩
  intro c hc
  rcases List.mem_append.mp hc with hc | hc
  · exact hcs c hc
  · exact hds c hc

theorem zero_mem_encode {c : ℕ} (hc : c < 0x110000) : 0 ∈ encode c ↔ c = 0 := by
  have hbyte {x : ℕ} (hx : x < 256) : (0 : UInt8) = .ofNat x ↔ x = 0 := by
    constructor
    · intro h
      have := congrArg UInt8.toNat h
      rw [toNat_ofNat hx] at this
      exact this.symm
    · rintro rfl
      rfl
  unfold encode
  split_ifs <;> simp only [List.mem_cons, List.not_mem_nil, or_false]
  · rw [hbyte (by omega)]
  · rw [hbyte (by omega), hbyte (by omega)]
    omega
  · rw [hbyte (by omega), hbyte (by omega), hbyte (by omega)]
    omega
  · rw [hbyte (by omega), hbyte (by omega), hbyte (by omega), hbyte (by omega)]
    omega

theorem zero_mem_encodeAll {cs : List ℕ} (hcs : ∀ c ∈ cs, c < 0x110000) :
    0 ∈ encodeAll cs ↔ 0 ∈ cs := by
  unfold encodeAll
  rw [List.mem_flatMap]
  constructor
  · rintro ⟨c, hc, h⟩
    rwa [← (zero_mem_encode (hcs c hc)).mp h]
  · intro h
    exact ⟨0, h, (zero_mem_encode (hcs 0 h)).mpr rfl⟩

/-- An encoding has one byte that is no tail, its first. -/
theorem countP_encode {c : ℕ} (hc : c < 0x110000) : (encode c).countP (¬ IsTail ·) = 1 := by
  have htail {n : ℕ} (hn : n < 64) : IsTail (.ofNat (0x80 + n)) := by
    unfold IsTail
    rw [toNat_ofNat (by omega)]
    omega
  have hlead {n : ℕ} (hn : n < 256) (h : n < 0x80 ∨ 0xBF < n) : ¬ IsTail (.ofNat n) := by
    unfold IsTail
    rw [toNat_ofNat hn]
    omega
  have htails : ∀ n, IsTail (.ofNat (0x80 + n % 64)) := fun n => htail (Nat.mod_lt n (by omega))
  unfold encode
  split_ifs
  · simp [hlead (show c < 256 by omega) (by omega)]
  · simp [-UInt8.ofNat_add, hlead (show 0xC0 + c / 64 < 256 by omega) (by omega), htails]
  · simp [-UInt8.ofNat_add, hlead (show 0xE0 + c / 4096 < 256 by omega) (by omega), htails]
  · simp [-UInt8.ofNat_add, hlead (show 0xF0 + c / 262144 < 256 by omega) (by omega), htails]

theorem countP_encodeAll {cs : List ℕ} (hcs : ∀ c ∈ cs, c < 0x110000) :
    (encodeAll cs).countP (¬ IsTail ·) = cs.length := by
  induction cs with
  | nil => rfl
  | cons c cs ih =>
    rw [encodeAll_cons, List.countP_append, countP_encode (hcs c List.mem_cons_self),
      ih fun d hd => hcs d (List.mem_cons_of_mem c hd), List.length_cons, Nat.add_comm]

end LeoUTF8.ScalarEncoding
