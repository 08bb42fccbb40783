import LeoUTF8.BoundedLoop
import LeoUTF8.ScalarEncoding

set_option autoImplicit false

/-!
# The data of utf8proc

Options, error codes, the property record and the generated tables of
`utf8proc_data.c`. The tables are a parameter: every result holds for all tables
that meet the assumptions it names.
-/
namespace LeoUTF8.EngineTables
open BoundedLoop ScalarEncoding

inductive Category where
  | cn | lu | ll | lt | lm | lo | mn | mc | me | nd | nl | no | pc | pd | ps | pe | pi | pf | po
  | sm | sc | sk | so | zs | zl | zp | cc | cf | cs | co
  deriving DecidableEq, Repr

/-- The fields of `utf8proc_property_t` that the mapping functions read. -/
structure Utf8procProperty where
  category : Category
  combiningClass : ℤ
  decompType : ℤ
  decompSeqindex : UInt16
  casefoldSeqindex : UInt16
  combIndex : Fin 1024
  combLength : Fin 32
  combIssecond : Bool
  ignorable : Bool
  boundclass : ℕ
  indicConjunctBreak : ℕ

/-- `UINT16_MAX`, the sequence index of a code point without an entry. -/
def uint16Max : UInt16 := 0xFFFF

/-- The generated arrays. Every entry of the composition array is a code point. -/
structure Utf8procData where
  sequences : ℕ → UInt16
  stage1table : ℕ → ℕ
  stage2table : ℕ → ℕ
  properties : ℕ → Utf8procProperty
  combinationsSecond : ℕ → ℤ
  combinationsCombined : ℕ → Fin 0x110000

def Utf8procData.property (t : Utf8procData) (c : ℕ) : Utf8procProperty :=
  t.properties (t.stage2table (t.stage1table (c >>> 8) + (c &&& 0xFF)))

/-- The source asserts the range; outside it the first stage is read past its end. -/
def unsafeGetProperty (t : Utf8procData) (uc : ℤ) : Exec Utf8procProperty :=
  if 0 ≤ uc ∧ uc < 0x110000 then .ok (t.property uc.toNat) else .error .read

theorem unsafeGetProperty_natCast (t : Utf8procData) {c : ℕ} (h : c < 0x110000) :
    unsafeGetProperty t c = .ok (t.property c) := by
  rw [unsafeGetProperty, if_pos (by omega), Int.toNat_natCast]

abbrev Utf8procOption := UInt32

def utf8procNullterm : Utf8procOption := (1 : UInt32) <<< 0
def utf8procStable : Utf8procOption := (1 : UInt32) <<< 1
def utf8procCompat : Utf8procOption := (1 : UInt32) <<< 2
def utf8procCompose : Utf8procOption := (1 : UInt32) <<< 3
def utf8procDecompose : Utf8procOption := (1 : UInt32) <<< 4
def utf8procIgnore : Utf8procOption := (1 : UInt32) <<< 5
def utf8procRejectna : Utf8procOption := (1 : UInt32) <<< 6
def utf8procNlf2ls : Utf8procOption := (1 : UInt32) <<< 7
def utf8procNlf2ps : Utf8procOption := (1 : UInt32) <<< 8
def utf8procStripcc : Utf8procOption := (1 : UInt32) <<< 9
def utf8procCasefold : Utf8procOption := (1 : UInt32) <<< 10
def utf8procCharbound : Utf8procOption := (1 : UInt32) <<< 11
def utf8procLump : Utf8procOption := (1 : UInt32) <<< 12
def utf8procStripmark : Utf8procOption := (1 : UInt32) <<< 13
def utf8procStripna : Utf8procOption := (1 : UInt32) <<< 14

def hasOption (options flags : Utf8procOption) : Bool := options &&& flags != 0

def utf8procErrorNomem : ℤ := -1
def utf8procErrorOverflow : ℤ := -2
def utf8procErrorInvalidutf8 : ℤ := -3
def utf8procErrorNotassigned : ℤ := -4
def utf8procErrorInvalidopts : ℤ := -5

/-- The word size and byte order of the target: `size_t`, `ssize_t` and `long` have `bits` bits. -/
structure Platform where
  bits : ℕ
  bits_ge : 32 ≤ bits
  bigEndian : Bool

/-- The target of the build, 32-bit PowerPC. -/
def Platform.leopardPPC : Platform where
  bits := 32
  bits_ge := le_refl 32
  bigEndian := true

def Platform.sizeMax (pf : Platform) : ℕ := 2 ^ pf.bits - 1

def Platform.ssizeMax (pf : Platform) : ℕ := pf.sizeMax / 2

def Platform.longMax (pf : Platform) : ℕ := 2 ^ (pf.bits - 1) - 1

/-- `SSIZE_MAX/sizeof(utf8proc_int32_t)/2`, the limit on the number of code points. -/
def Platform.codepointMax (pf : Platform) : ℕ := pf.ssizeMax / 4 / 2

theorem Platform.four_mul_codepointMax_lt (pf : Platform) :
    4 * pf.codepointMax + 1 < 2 ^ pf.bits := by
  have h : 2 ^ 32 ≤ 2 ^ pf.bits := Nat.pow_le_pow_right (by omega) pf.bits_ge
  unfold codepointMax ssizeMax sizeMax
  omega

theorem Platform.longMax_eq (pf : Platform) : pf.longMax = pf.ssizeMax := by
  have h := pf.bits_ge
  obtain ⟨n, hn⟩ : ∃ n, pf.bits = n + 1 := ⟨pf.bits - 1, by omega⟩
  have hp : 2 ^ (n + 1) = 2 * 2 ^ n := by ring
  have hpos : 0 < 2 ^ n := Nat.two_pow_pos n
  rw [longMax, ssizeMax, sizeMax, hn, hp, Nat.add_sub_cancel]
  omega

/-- A read position in the sequence array. Returns the code point and the position of its
last unit; the caller advances past it. -/
def seqindexDecodeEntry (t : Utf8procData) (entry : ℕ) : ℕ × ℕ :=
  let entryCp := (t.sequences entry).toNat
  if entryCp &&& 0xF800 = 0xD800 then
    let next := (t.sequences (entry + 1)).toNat
    (((entryCp &&& 0x03FF) <<< 10 ||| (next &&& 0x03FF)) + 0x10000, entry + 1)
  else (entryCp, entry)

def sequenceEntries (t : Utf8procData) : ℕ → ℕ → List ℕ
  | 0, _ => []
  | n + 1, entry =>
    let decoded := seqindexDecodeEntry t entry
    decoded.1 :: sequenceEntries t n (decoded.2 + 1)

/-- `len` and `entry` at the start of the loop of `seqindex_write_char_decomposed`: the
length is in the index, or in the first unit of a long sequence. -/
def seqindexHeader (t : Utf8procData) (seqindex : UInt16) : ℕ × ℕ :=
  let entry := (seqindex &&& 0x3FFF).toNat
  let len := (seqindex >>> 14).toNat
  if len ≥ 3 then ((t.sequences entry).toNat, entry + 1) else (len, entry)

/-- The code points that a sequence index stands for. -/
def sequenceOf (t : Utf8procData) (seqindex : UInt16) : List ℕ :=
  sequenceEntries t ((seqindexHeader t seqindex).1 + 1) (seqindexHeader t seqindex).2

theorem and_surrogateMask {n : ℕ} (h : n < 65536) :
    n &&& 0xF800 = 0xD800 ↔ 0xD800 ≤ n ∧ n ≤ 0xDFFF := by
  have hlow : (n &&& 0xF800) % 2 ^ 11 = 0 := by
    rw [Nat.and_mod_two_pow]
    exact Nat.and_zero _
  have hhigh : (n &&& 0xF800) / 2 ^ 11 = n / 2 ^ 11 := by
    rw [← Nat.shiftRight_eq_div_pow, Nat.shiftRight_and_distrib, Nat.shiftRight_eq_div_pow]
    change n / 2 ^ 11 &&& (2 ^ 5 - 1) = n / 2 ^ 11
    rw [Nat.and_two_pow_sub_one_eq_mod]
    omega
  omega

/-- A decoded entry is a scalar value, whatever the array holds. -/
theorem seqindexDecodeEntry_isScalar (t : Utf8procData) (entry : ℕ) :
    IsScalar (seqindexDecodeEntry t entry).1 := by
  have h := (t.sequences entry).toNat_lt
  unfold seqindexDecodeEntry
  simp only
  split_ifs with hs
  · have hmask (n : ℕ) : n &&& 0x03FF = n % 2 ^ 10 := Nat.and_two_pow_sub_one_eq_mod n 10
    rw [hmask, hmask, ← Nat.shiftLeft_add_eq_or_of_lt (Nat.mod_lt _ (by omega)),
      Nat.shiftLeft_eq]
    unfold IsScalar
    omega
  · rw [and_surrogateMask (by omega)] at hs
    unfold IsScalar
    omega

theorem sequenceEntries_isScalar (t : Utf8procData) (n entry : ℕ) :
    ∀ c ∈ sequenceEntries t n entry, IsScalar c := by
  induction n generalizing entry with
  | zero => simp [sequenceEntries]
  | succ n ih =>
    intro c hc
    rcases List.mem_cons.mp hc with rfl | hc
    · exact seqindexDecodeEntry_isScalar t entry
    · exact ih _ c hc

theorem sequenceOf_isScalar (t : Utf8procData) (seqindex : UInt16) :
    ∀ c ∈ sequenceOf t seqindex, IsScalar c := sequenceEntries_isScalar t _ _

end LeoUTF8.EngineTables
