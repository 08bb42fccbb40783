import LeoUTF8.ScalarEncoding

set_option autoImplicit false

/-!
# UTF-16

Scalar values as 16-bit units, the scalar values before the first unpaired surrogate of
any sequence of units, and what it means for a surrogate to be unpaired.
-/
namespace LeoUTF8.Utf16Encoding
open ScalarEncoding

def IsHigh (u : UInt16) : Prop := 0xD800 ≤ u.toNat ∧ u.toNat ≤ 0xDBFF

def IsLow (u : UInt16) : Prop := 0xDC00 ≤ u.toNat ∧ u.toNat ≤ 0xDFFF

instance (u : UInt16) : Decidable (IsHigh u) := inferInstanceAs (Decidable (_ ∧ _))

instance (u : UInt16) : Decidable (IsLow u) := inferInstanceAs (Decidable (_ ∧ _))

def encodeUnits (c : ℕ) : List UInt16 :=
  if c < 0x10000 then [.ofNat c]
  else [.ofNat (0xD800 + (c - 0x10000) / 1024), .ofNat (0xDC00 + (c - 0x10000) % 1024)]

def encodeUnitsAll (cs : List ℕ) : List UInt16 := cs.flatMap encodeUnits

/-- The scalar value of a surrogate pair. -/
def pairValue (u v : UInt16) : ℕ := 0x10000 + (u.toNat - 0xD800) * 1024 + (v.toNat - 0xDC00)

/-- The scalar values before the first unpaired surrogate, and the units from there on. -/
def decodeUnits : List UInt16 → List ℕ × List UInt16
  | [] => ([], [])
  | [u] => if IsHigh u ∨ IsLow u then ([], [u]) else ([u.toNat], [])
  | u :: v :: l =>
    if IsHigh u ∧ IsLow v then (pairValue u v :: (decodeUnits l).1, (decodeUnits l).2)
    else if IsHigh u ∨ IsLow u then ([], u :: v :: l)
    else (u.toNat :: (decodeUnits (v :: l)).1, (decodeUnits (v :: l)).2)

/-- The unit at `i` is a surrogate that is not half of a pair. -/
def UnpairedAt (s : List UInt16) (i : ℕ) : Prop :=
  ∃ u, s[i]? = some u ∧
    ((IsHigh u ∧ ∀ v, s[i + 1]? = some v → ¬ IsLow v) ∨
      (IsLow u ∧ ∀ j v, i = j + 1 → s[j]? = some v → ¬ IsHigh v))

def HasUnpaired (s : List UInt16) : Prop := ∃ i, UnpairedAt s i

@[simp] theorem encodeUnitsAll_nil : encodeUnitsAll [] = [] := rfl

@[simp] theorem encodeUnitsAll_cons (c : ℕ) (cs : List ℕ) :
    encodeUnitsAll (c :: cs) = encodeUnits c ++ encodeUnitsAll cs := List.flatMap_cons

theorem toNat_ofNat {x : ℕ} (h : x < 65536) : (UInt16.ofNat x).toNat = x := by
  rw [UInt16.toNat_ofNat', Nat.mod_eq_of_lt h]

theorem ofNat_eq {x : ℕ} {u : UInt16} (h : x = u.toNat) : UInt16.ofNat x = u := by
  rw [h, UInt16.ofNat_toNat]

theorem encodeUnits_cases {c : ℕ} (hc : IsScalar c) :
    (∃ u, encodeUnits c = [u] ∧ ¬ IsHigh u ∧ ¬ IsLow u ∧ u.toNat = c) ∨
      ∃ u v, encodeUnits c = [u, v] ∧ IsHigh u ∧ IsLow v ∧ pairValue u v = c := by
  unfold IsScalar at hc
  unfold encodeUnits
  by_cases h : c < 0x10000
  · left
    have hu := toNat_ofNat h
    refine ⟨.ofNat c, if_pos h, ?_, ?_, hu⟩
    · unfold IsHigh
      omega
    · unfold IsLow
      omega
  · right
    have hu : (UInt16.ofNat (0xD800 + (c - 0x10000) / 1024)).toNat =
        0xD800 + (c - 0x10000) / 1024 := toNat_ofNat (by omega)
    have hv : (UInt16.ofNat (0xDC00 + (c - 0x10000) % 1024)).toNat =
        0xDC00 + (c - 0x10000) % 1024 := toNat_ofNat (by omega)
    refine ⟨_, _, if_neg h, ?_, ?_, ?_⟩
    · unfold IsHigh
      omega
    · unfold IsLow
      omega
    · unfold pairValue
      omega

theorem encodeUnits_unit {u : UInt16} (hu : ¬ (IsHigh u ∨ IsLow u)) :
    IsScalar u.toNat ∧ encodeUnits u.toNat = [u] := by
  have hlt := u.toNat_lt
  unfold IsHigh IsLow at hu
  refine ⟨by unfold IsScalar; omega, ?_⟩
  rw [encodeUnits, if_pos (by omega), UInt16.ofNat_toNat]

theorem encodeUnits_pair {u v : UInt16} (hu : IsHigh u) (hv : IsLow v) :
    IsScalar (pairValue u v) ∧ encodeUnits (pairValue u v) = [u, v] := by
  unfold IsHigh at hu
  unfold IsLow at hv
  have hvalue : pairValue u v = 0x10000 + (u.toNat - 0xD800) * 1024 + (v.toNat - 0xDC00) := rfl
  refine ⟨by unfold IsScalar; omega, ?_⟩
  rw [encodeUnits, if_neg (by omega), ofNat_eq (u := u) (by omega), ofNat_eq (u := v) (by omega)]

theorem decodeUnits_unit {u : UInt16} (hu : ¬ (IsHigh u ∨ IsLow u)) (l : List UInt16) :
    decodeUnits (u :: l) = (u.toNat :: (decodeUnits l).1, (decodeUnits l).2) := by
  cases l with
  | nil => exact if_neg hu
  | cons v l => rw [decodeUnits, if_neg fun h => hu (Or.inl h.1), if_neg hu]

theorem decodeUnits_pair {u v : UInt16} (hu : IsHigh u) (hv : IsLow v) (l : List UInt16) :
    decodeUnits (u :: v :: l) = (pairValue u v :: (decodeUnits l).1, (decodeUnits l).2) := by
  rw [decodeUnits, if_pos ⟨hu, hv⟩]

theorem decodeUnits_encodeUnits_append {c : ℕ} (hc : IsScalar c) (l : List UInt16) :
    decodeUnits (encodeUnits c ++ l) = (c :: (decodeUnits l).1, (decodeUnits l).2) := by
  obtain ⟨u, hunits, hhigh, hlow, hvalue⟩ | ⟨u, v, hunits, hhigh, hlow, hvalue⟩ :=
    encodeUnits_cases hc
  · rw [hunits, List.singleton_append, decodeUnits_unit (not_or.mpr ⟨hhigh, hlow⟩), hvalue]
  · rw [hunits, ← hvalue]
    exact decodeUnits_pair hhigh hlow l

theorem decodeUnits_encodeUnitsAll {cs : List ℕ} (hcs : ∀ c ∈ cs, IsScalar c) :
    decodeUnits (encodeUnitsAll cs) = (cs, []) := by
  induction cs with
  | nil => rfl
  | cons c cs ih =>
    rw [encodeUnitsAll_cons, decodeUnits_encodeUnits_append (hcs c List.mem_cons_self),
      ih fun d hd => hcs d (List.mem_cons_of_mem c hd)]

/-- The rest begins with a surrogate that the unit after it does not complete. -/
def Stopped (rest : List UInt16) : Prop :=
  ∃ u l, rest = u :: l ∧ (IsLow u ∨ (IsHigh u ∧ ∀ v, l[0]? = some v → ¬ IsLow v))

theorem decodeUnits_spec (s : List UInt16) :
    (∀ c ∈ (decodeUnits s).1, IsScalar c) ∧
      s = encodeUnitsAll (decodeUnits s).1 ++ (decodeUnits s).2 ∧
      ((decodeUnits s).2 = [] ∨ Stopped (decodeUnits s).2) := by
  have hstep (u : UInt16) (l : List UInt16) (hu : ¬ (IsHigh u ∨ IsLow u))
      (ih : (∀ c ∈ (decodeUnits l).1, IsScalar c) ∧
        l = encodeUnitsAll (decodeUnits l).1 ++ (decodeUnits l).2 ∧
        ((decodeUnits l).2 = [] ∨ Stopped (decodeUnits l).2)) :
      (∀ c ∈ (decodeUnits (u :: l)).1, IsScalar c) ∧
        u :: l = encodeUnitsAll (decodeUnits (u :: l)).1 ++ (decodeUnits (u :: l)).2 ∧
        ((decodeUnits (u :: l)).2 = [] ∨ Stopped (decodeUnits (u :: l)).2) := by
    obtain ⟨hscalar, hunits⟩ := encodeUnits_unit hu
    rw [decodeUnits_unit hu]
    refine ⟨?_, ?_, ih.2.2⟩
    · rintro c (_ | ⟨_, hc⟩)
      · exact hscalar
      · exact ih.1 c hc
    · rw [encodeUnitsAll_cons, hunits, List.append_assoc, ← ih.2.1]
      rfl
  induction s using decodeUnits.induct with
  | case1 => exact ⟨by simp [decodeUnits], rfl, Or.inl rfl⟩
  | case2 u hu =>
    rw [decodeUnits, if_pos hu]
    refine ⟨by simp, rfl, Or.inr ⟨u, [], rfl, ?_⟩⟩
    rcases hu with hu | hu
    · exact Or.inr ⟨hu, by simp⟩
    · exact Or.inl hu
  | case3 u hu => exact hstep u [] hu ⟨by simp [decodeUnits], rfl, Or.inl rfl⟩
  | case4 u v l huv ih =>
    obtain ⟨hscalar, hunits⟩ := encodeUnits_pair huv.1 huv.2
    rw [decodeUnits_pair huv.1 huv.2]
    refine ⟨?_, ?_, ih.2.2⟩
    · intro c hc
      rcases List.mem_cons.mp hc with hc | hc
      · rwa [hc]
      · exact ih.1 c hc
    · rw [encodeUnitsAll_cons, hunits, List.append_assoc, ← ih.2.1]
      rfl
  | case5 u v l huv hu =>
    rw [decodeUnits, if_neg huv, if_pos hu]
    refine ⟨by simp, by simp, Or.inr ⟨u, v :: l, rfl, ?_⟩⟩
    rcases hu with hu | hu
    · refine Or.inr ⟨hu, ?_⟩
      intro w hw
      obtain rfl : v = w := by simpa using hw
      exact fun hv => huv ⟨hu, hv⟩
    · exact Or.inl hu
  | case6 u v l _ hu ih => exact hstep u (v :: l) hu ih

/-- In encoded text every surrogate has its other half beside it. -/
theorem encodeUnitsAll_paired {cs : List ℕ} (hcs : ∀ c ∈ cs, IsScalar c) {i : ℕ} {u : UInt16}
    (hu : (encodeUnitsAll cs)[i]? = some u) :
    (IsHigh u → ∃ v, (encodeUnitsAll cs)[i + 1]? = some v ∧ IsLow v) ∧
      (IsLow u → ∃ j v, i = j + 1 ∧ (encodeUnitsAll cs)[j]? = some v ∧ IsHigh v) := by
  induction cs generalizing i with
  | nil => simp at hu
  | cons c cs ih =>
    have hrest := fun d hd => hcs d (List.mem_cons_of_mem c hd)
    obtain ⟨a, hunits, hhigh, hlow, _⟩ | ⟨a, b, hunits, hhigh, hlow, _⟩ :=
      encodeUnits_cases (hcs c List.mem_cons_self)
    · rw [encodeUnitsAll_cons, hunits, List.singleton_append] at hu ⊢
      cases i with
      | zero =>
        obtain rfl : a = u := by simpa using hu
        exact ⟨fun h => absurd h hhigh, fun h => absurd h hlow⟩
      | succ i =>
        obtain ⟨hnext, hprev⟩ := ih hrest (by simpa using hu)
        refine ⟨fun h => by simpa using hnext h, fun h => ?_⟩
        obtain ⟨j, v, rfl, hv, hvhigh⟩ := hprev h
        exact ⟨j + 1, v, rfl, by simpa using hv, hvhigh⟩
    · have hexclusive (w : UInt16) (hw : IsHigh w) (hw' : IsLow w) : False := by
        unfold IsHigh at hw
        unfold IsLow at hw'
        omega
      rw [encodeUnitsAll_cons, hunits, List.cons_append, List.singleton_append] at hu ⊢
      match i with
      | 0 =>
        obtain rfl : a = u := by simpa using hu
        exact ⟨fun _ => ⟨b, rfl, hlow⟩, fun h => (hexclusive a hhigh h).elim⟩
      | 1 =>
        obtain rfl : b = u := by simpa using hu
        exact ⟨fun h => (hexclusive b h hlow).elim, fun _ => ⟨0, a, rfl, rfl, hhigh⟩⟩
      | i + 2 =>
        obtain ⟨hnext, hprev⟩ := ih hrest (by simpa using hu)
        refine ⟨fun h => by simpa using hnext h, fun h => ?_⟩
        obtain ⟨j, v, rfl, hv, hvhigh⟩ := hprev h
        exact ⟨j + 2, v, rfl, by simpa using hv, hvhigh⟩

/-- The conversion reaches the end exactly when no surrogate is unpaired. -/
theorem decodeUnits_rest_eq_nil {s : List UInt16} : (decodeUnits s).2 = [] ↔ ¬ HasUnpaired s := by
  obtain ⟨hscalar, hs, hstop⟩ := decodeUnits_spec s
  constructor
  · rintro hnil ⟨i, u, hu, hunpaired⟩
    rw [hnil, List.append_nil] at hs
    rw [hs] at hu hunpaired
    obtain ⟨hnext, hprev⟩ := encodeUnitsAll_paired hscalar hu
    rcases hunpaired with ⟨hhigh, h⟩ | ⟨hlow, h⟩
    · obtain ⟨v, hv, hvlow⟩ := hnext hhigh
      exact h v hv hvlow
    · obtain ⟨j, v, hj, hv, hvhigh⟩ := hprev hlow
      exact h j v hj hv hvhigh
  · intro hpaired
    apply hstop.resolve_right
    rintro ⟨u, l, hrest, hu⟩
    generalize hcs : (decodeUnits s).1 = cs at hscalar hs
    rw [hrest] at hs
    refine hpaired ⟨(encodeUnitsAll cs).length, u, ?_, ?_⟩
    · rw [hs, List.getElem?_append_right le_rfl, Nat.sub_self]
      rfl
    · rcases hu with hlow | ⟨hhigh, hnext⟩
      · refine Or.inr ⟨hlow, fun j v hj hv hvhigh => ?_⟩
        -- a high surrogate before the rest is followed by its low half
        rw [hs, List.getElem?_append_left (by omega)] at hv
        obtain ⟨w, hw, _⟩ := (encodeUnitsAll_paired hscalar hv).1 hvhigh
        rw [← hj, List.getElem?_eq_none le_rfl] at hw
        cases hw
      · refine Or.inl ⟨hhigh, fun v hv => hnext v ?_⟩
        rwa [hs, List.getElem?_append_right (by omega), Nat.add_sub_cancel_left] at hv

end LeoUTF8.Utf16Encoding
