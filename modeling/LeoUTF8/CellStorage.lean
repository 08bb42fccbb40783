import LeoUTF8.BoundedLoop

set_option autoImplicit false

/-!
# Raw objects

An object in memory is the list of its elements. Reads and writes outside it fault.
A storage of bytes is also seen as an array of signed 32-bit cells in either byte
order.
-/
namespace LeoUTF8.CellStorage
open BoundedLoop

variable {α : Type}

def load (object : List α) (i : ℕ) : Exec α :=
  match object[i]? with
  | some x => .ok x
  | none => .error .read

def store (object : List α) (i : ℕ) (x : α) : Exec (List α) :=
  if i < object.length then .ok (object.set i x) else .error .write

/-- The elements from `p` on are replaced by `xs`. -/
def overwrite (object : List α) (p : ℕ) (xs : List α) : List α :=
  object.take p ++ xs ++ object.drop (p + xs.length)

def storeAll (object : List α) (p : ℕ) (xs : List α) : Exec (List α) :=
  if p + xs.length ≤ object.length then .ok (overwrite object p xs) else .error .write

theorem load_eq_ok {object : List α} {i : ℕ} {x : α} (h : object[i]? = some x) :
    load object i = .ok x := by
  rw [load, h]

theorem load_append_left (l m : List α) (x : α) : load (l ++ x :: m) l.length = .ok x :=
  load_eq_ok (by simp)

theorem store_append (l m : List α) (x y : α) :
    store (l ++ x :: m) l.length y = .ok (l ++ y :: m) := by
  rw [store, if_pos (by simp)]
  simp

theorem overwrite_nil (object : List α) (p : ℕ) : overwrite object p [] = object := by
  simp [overwrite]

theorem overwrite_length {object xs : List α} {p : ℕ} (h : p + xs.length ≤ object.length) :
    (overwrite object p xs).length = object.length := by
  simp only [overwrite, List.length_append, List.length_take, List.length_drop]
  omega

theorem set_eq_overwrite {object : List α} {p : ℕ} (h : p < object.length) (x : α) :
    object.set p x = overwrite object p [x] := by
  rw [List.set_eq_take_append_cons_drop, if_pos h]
  simp [overwrite]

theorem overwrite_overwrite {object : List α} {p : ℕ} {xs : List α}
    (h : p + xs.length ≤ object.length) (ys : List α) :
    overwrite (overwrite object p xs) (p + xs.length) ys = overwrite object p (xs ++ ys) := by
  have hlen : (object.take p ++ xs).length = p + xs.length := by
    rw [List.length_append, List.length_take]
    omega
  have htake : (overwrite object p xs).take (p + xs.length) = object.take p ++ xs := by
    rw [overwrite, ← hlen, List.take_left]
  have hdrop : (overwrite object p xs).drop (p + xs.length + ys.length) =
      object.drop (p + xs.length + ys.length) := by
    rw [← List.drop_drop, overwrite, ← hlen, List.drop_left, hlen, List.drop_drop]
  rw [overwrite, htake, hdrop, overwrite, List.length_append, List.append_assoc,
    List.append_assoc, List.append_assoc, List.append_assoc, Nat.add_assoc]

/-- Two consecutive writes, each cut off at the same capacity. -/
theorem overwrite_take_append {object : List α} {p n : ℕ} (xs ys : List α)
    (h : n = 0 ∨ p + n ≤ object.length) :
    overwrite (overwrite object p (xs.take n)) (p + xs.length) (ys.take (n - xs.length)) =
      overwrite object p ((xs ++ ys).take n) := by
  by_cases hn : n ≤ xs.length
  · rw [Nat.sub_eq_zero_of_le hn, List.take_zero, overwrite_nil, List.take_append_of_le_length hn]
  · have hx : xs.take n = xs := List.take_of_length_le (by omega)
    rw [hx, List.take_append, hx]
    exact overwrite_overwrite (by omega) _

theorem overwrite_zero (object xs : List α) :
    overwrite object 0 xs = xs ++ object.drop xs.length := by
  simp [overwrite]

theorem drop_overwrite_zero {object xs : List α} {n : ℕ} (h : xs.length ≤ n) :
    (overwrite object 0 xs).drop n = object.drop n := by
  obtain ⟨k, rfl⟩ := Nat.exists_eq_add_of_le h
  rw [overwrite_zero, ← List.drop_drop, List.drop_left, List.drop_drop]

def cellBytes (bigEndian : Bool) (v : ℤ) : List UInt8 :=
  let n := (v % 2 ^ 32).toNat
  let bytes : List UInt8 := [.ofNat n, .ofNat (n / 256), .ofNat (n / 65536), .ofNat (n / 16777216)]
  if bigEndian then bytes.reverse else bytes

def cellValue (bigEndian : Bool) (a b c d : UInt8) : ℤ :=
  let n : ℤ :=
    if bigEndian then d.toNat + 256 * c.toNat + 65536 * b.toNat + 16777216 * a.toNat
    else a.toNat + 256 * b.toNat + 65536 * c.toNat + 16777216 * d.toNat
  if n < 2 ^ 31 then n else n - 2 ^ 32

def loadCell (bigEndian : Bool) (storage : List UInt8) (i : ℕ) : Exec ℤ :=
  match storage.drop (4 * i) with
  | a :: b :: c :: d :: _ => .ok (cellValue bigEndian a b c d)
  | _ => .error .read

/-- The storage as an array of cells; fewer than four bytes at its end are left out. -/
def cells (bigEndian : Bool) : List UInt8 → List ℤ
  | a :: b :: c :: d :: l => cellValue bigEndian a b c d :: cells bigEndian l
  | _ => []

def storageOf (bigEndian : Bool) (vs : List ℤ) : List UInt8 := vs.flatMap (cellBytes bigEndian)

theorem cellBytes_length (bigEndian : Bool) (v : ℤ) : (cellBytes bigEndian v).length = 4 := by
  unfold cellBytes
  cases bigEndian <;> rfl

theorem storageOf_length (bigEndian : Bool) (vs : List ℤ) :
    (storageOf bigEndian vs).length = 4 * vs.length := by
  induction vs with
  | nil => rfl
  | cons v vs ih =>
    change (cellBytes bigEndian v ++ storageOf bigEndian vs).length = _
    rw [List.length_append, ih, cellBytes_length, List.length_cons]
    omega

theorem cells_length (bigEndian : Bool) (l : List UInt8) :
    (cells bigEndian l).length = l.length / 4 := by
  induction l using cells.induct with
  | case1 a b c d l ih =>
    rw [cells, List.length_cons, ih]
    simp only [List.length_cons]
    omega
  | case2 l h =>
    match l, h with
    | [], _ | [_], _ | [_, _], _ | [_, _, _], _ => simp [cells]
    | a :: b :: c :: d :: l, h => exact absurd rfl (h a b c d l)

theorem loadCell_cellBytes (bigEndian : Bool) {v : ℤ} (h : -2 ^ 31 ≤ v) (h' : v < 2 ^ 31)
    (l : List UInt8) : loadCell bigEndian (cellBytes bigEndian v ++ l) 0 = .ok v := by
  have hn : (v % 2 ^ 32).toNat < 2 ^ 32 := by omega
  have hv : (if ((v % 2 ^ 32).toNat : ℤ) < 2 ^ 31 then ((v % 2 ^ 32).toNat : ℤ)
      else (v % 2 ^ 32).toNat - 2 ^ 32) = v := by
    split_ifs <;> omega
  unfold loadCell cellBytes
  generalize (v % 2 ^ 32).toNat = n at hn hv
  have hle : ((n % 256 : ℕ) : ℤ) + 256 * (n / 256 % 256 : ℕ) + 65536 * (n / 65536 % 256 : ℕ) +
      16777216 * (n / 16777216 % 256 : ℕ) = n := by omega
  cases bigEndian with
  | false =>
    change Except.ok (cellValue false _ _ _ _) = _
    simp only [cellValue, UInt8.toNat_ofNat', Nat.reducePow, Bool.false_eq_true, if_false, hle, hv]
  | true =>
    change Except.ok (cellValue true _ _ _ _) = _
    simp only [cellValue, UInt8.toNat_ofNat', Nat.reducePow, if_true, hle, hv]

theorem loadCell_eq_of_drop {bigEndian : Bool} {l m : List UInt8} {i j : ℕ}
    (h : l.drop (4 * i) = m.drop (4 * j)) : loadCell bigEndian l i = loadCell bigEndian m j := by
  rw [loadCell, loadCell, h]

/-- Cell `i` survives the overwriting of the bytes before it. -/
theorem loadCell_overwrite (bigEndian : Bool) {storage xs : List UInt8} {i : ℕ}
    (h : xs.length ≤ 4 * i) :
    loadCell bigEndian (overwrite storage 0 xs) i = loadCell bigEndian storage i :=
  loadCell_eq_of_drop (drop_overwrite_zero h)

theorem loadCell_storageOf (bigEndian : Bool) {vs : List ℤ}
    (range : ∀ v ∈ vs, -2 ^ 31 ≤ v ∧ v < 2 ^ 31) {i : ℕ} {v : ℤ} (hv : vs[i]? = some v)
    (l : List UInt8) : loadCell bigEndian (storageOf bigEndian vs ++ l) i = .ok v := by
  induction vs generalizing i with
  | nil => simp at hv
  | cons w vs ih =>
    have hw := range w List.mem_cons_self
    have hsplit : storageOf bigEndian (w :: vs) ++ l =
        cellBytes bigEndian w ++ (storageOf bigEndian vs ++ l) := List.append_assoc _ _ _
    cases i with
    | zero =>
      obtain rfl : w = v := by simpa using hv
      rw [hsplit]
      exact loadCell_cellBytes bigEndian hw.1 hw.2 _
    | succ i =>
      rw [← ih (fun u hu => range u (List.mem_cons_of_mem w hu)) (by simpa using hv)]
      apply loadCell_eq_of_drop
      rw [hsplit, Nat.mul_succ, Nat.add_comm, ← List.drop_drop]
      congr 1
      have hlen := cellBytes_length bigEndian w
      rw [← hlen, List.drop_left]

end LeoUTF8.CellStorage
