import LeoUTF8.FrameworkBridges
import LeoUTF8.Utf16Encoding
import LeoUTF8.ValidatorLanguage

set_option autoImplicit false

/-! # Both bridges are lossless in both directions -/
namespace LeoUTF8.BridgeRoundTrips
open BoundedLoop CellStorage ScalarEncoding Utf16Encoding EngineTables CoreFunctions
open ValidatorLanguage FrameworkBridges

/-- The UTF-8 bytes of a string, up to its first unpaired surrogate. -/
def utf8Bytes (fw : Framework) (s : fw.Str) : List UInt8 := encodeAll (decodeUnits (fw.units s)).1

/-- The number of units before the first unpaired surrogate. -/
def convertedUnits (fw : Framework) (s : fw.Str) : ℕ :=
  (encodeUnitsAll (decodeUnits (fw.units s)).1).length

/-- The documented behaviour of the framework functions, for UTF-8. -/
structure Documented (pf : Platform) (fw : Framework) : Prop where
  malloc : ∀ n block, fw.malloc n = some block → block.length = n
  cfString : ∀ mem (length : ℕ) cs s, (∀ c ∈ cs, IsScalar c) → mem.take length = encodeAll cs →
    fw.cfStringCreateWithBytes mem length kCFStringEncodingUTF8 false = some s →
    fw.units s = encodeUnitsAll cs
  getLength : ∀ s, fw.cfStringGetLength s = (fw.units s).length
  /-- Without a buffer the conversion is only measured. -/
  getBytes : ∀ s buffer (maxBufLen : ℤ),
    (∀ block, buffer = some block → (utf8Bytes fw s).length ≤ maxBufLen ∧
      maxBufLen ≤ block.length) →
    fw.cfStringGetBytes s 0 (fw.units s).length kCFStringEncodingUTF8 0 false buffer maxBufLen =
      { converted := convertedUnits fw s
        buffer := buffer.map fun block => overwrite block 0 (utf8Bytes fw s)
        usedBufLen := (utf8Bytes fw s).length }
  cfData : ∀ bytes (length : ℕ) d, length ≤ (bytes.getD []).length →
    fw.cfDataCreate bytes length = some d → d = (bytes.getD []).take length
  nsString : ∀ mem length cs s, (∀ c ∈ cs, IsScalar c) → mem.take length = encodeAll cs →
    fw.nsStringInitWithBytes mem length nsUTF8StringEncoding = some s →
    fw.units s = encodeUnitsAll cs
  canBeConverted : ∀ s,
    fw.canBeConvertedToEncoding s nsUTF8StringEncoding = false ↔ HasUnpaired (fw.units s)
  utf8String : ∀ s text, ¬ HasUnpaired (fw.units s) → fw.utf8String s = some text →
    ∃ rest, text = utf8Bytes fw s ++ 0 :: rest
  lengthOfBytes : ∀ s, ¬ HasUnpaired (fw.units s) →
    fw.lengthOfBytesUsingEncoding s nsUTF8StringEncoding = (utf8Bytes fw s).length
  nsData : ∀ bytes length d, length ≤ bytes.length →
    fw.nsDataInitWithBytes bytes length = some d → d = bytes.take length
  /-- `*usedBufLen` is a `CFIndex`. -/
  size : ∀ s, (utf8Bytes fw s).length ≤ pf.longMax

/-- The constructors have the memory for a string of these bytes. -/
structure CreationSucceeds (fw : Framework) (mem : List UInt8) (length : ℕ) : Prop where
  cfString : fw.cfStringCreateWithBytes mem length kCFStringEncodingUTF8 false ≠ none
  nsString : fw.nsStringInitWithBytes mem length nsUTF8StringEncoding ≠ none

/-- The allocations for the data of a string succeed, each of the measured size. -/
structure CopySucceeds (fw : Framework) (s : fw.Str) : Prop where
  malloc : utf8Bytes fw s ≠ [] → fw.malloc (utf8Bytes fw s).length ≠ none
  cfData : ∀ bytes : Option (List UInt8), bytes.getD [] = utf8Bytes fw s →
    fw.cfDataCreate bytes (utf8Bytes fw s).length ≠ none
  utf8String : fw.utf8String s ≠ none
  nsData : ∀ rest, fw.nsDataInitWithBytes (utf8Bytes fw s ++ 0 :: rest)
    (utf8Bytes fw s).length ≠ none

section Copies

variable {pf : Platform} {fw : Framework} (documented : Documented pf fw) {s : fw.Str}
include documented

theorem convertedUnits_eq_iff :
    (convertedUnits fw s : ℤ) = fw.cfStringGetLength s ↔ ¬ HasUnpaired (fw.units s) := by
  obtain ⟨_, hs, _⟩ := decodeUnits_spec (fw.units s)
  have hlen := congrArg List.length hs
  rw [List.length_append] at hlen
  rw [documented.getLength, ← decodeUnits_rest_eq_nil, ← List.length_eq_zero_iff, convertedUnits]
  omega

theorem measured_eq : fw.cfStringGetBytes s 0 (fw.cfStringGetLength s) kCFStringEncodingUTF8 0 false
    none 0 = { converted := convertedUnits fw s, buffer := none,
               usedBufLen := (utf8Bytes fw s).length } := by
  rw [documented.getLength, documented.getBytes s none 0 (by simp)]
  rfl

theorem leoUTF8CopyUTF8DataFromCFString_unpaired (h : HasUnpaired (fw.units s))
    (old : Option (List UInt8)) :
    leoUTF8CopyUTF8DataFromCFString fw (some s) (some old) = (.error, some none) := by
  have hcount := mt (convertedUnits_eq_iff documented).mp (not_not_intro h)
  rw [leoUTF8CopyUTF8DataFromCFString]
  simp only [measured_eq documented]
  rw [if_pos (Or.inl hcount)]

theorem convertToBuffer_eq (succeed : CopySucceeds fw s) (h : ¬ HasUnpaired (fw.units s)) :
    ∃ buffer, buffer.getD [] = utf8Bytes fw s ∧
      convertToBuffer fw s (fw.cfStringGetLength s) (utf8Bytes fw s).length =
        .ok (buffer, ((utf8Bytes fw s).length : ℤ)) := by
  have hcount := (convertedUnits_eq_iff documented).mpr h
  unfold convertToBuffer
  by_cases hpos : ((utf8Bytes fw s).length : ℤ) > 0
  · have hne : utf8Bytes fw s ≠ [] := List.ne_nil_of_length_pos (by omega)
    obtain ⟨block, hblock⟩ := Option.ne_none_iff_exists'.mp (succeed.malloc hne)
    have hlen := documented.malloc _ _ hblock
    have hfilled := documented.getBytes s (some block) (utf8Bytes fw s).length (by
      intro b hb
      obtain rfl := Option.some.inj hb
      exact ⟨le_refl _, by rw [hlen]⟩)
    rw [← documented.getLength] at hfilled
    have hover : overwrite block 0 (utf8Bytes fw s) = utf8Bytes fw s := by
      rw [overwrite_zero, List.drop_of_length_le hlen.le, List.append_nil]
    refine ⟨some (utf8Bytes fw s), rfl, ?_⟩
    simp only [if_pos hpos, Int.toNat_natCast, hblock, hfilled]
    rw [if_neg (not_not_intro hcount), Option.map_some, hover]
  · refine ⟨none, ?_, if_neg hpos⟩
    have hzero : (utf8Bytes fw s).length = 0 := by omega
    exact (List.length_eq_zero_iff.mp hzero).symm

theorem leoUTF8CopyUTF8DataFromCFString_paired (succeed : CopySucceeds fw s)
    (h : ¬ HasUnpaired (fw.units s)) (old : Option (List UInt8)) :
    leoUTF8CopyUTF8DataFromCFString fw (some s) (some old) =
      (.ok, some (some (utf8Bytes fw s))) := by
  have hcount := (convertedUnits_eq_iff documented).mpr h
  obtain ⟨buffer, hbuffer, hconvert⟩ := convertToBuffer_eq documented succeed h
  have hle : (utf8Bytes fw s).length ≤ (buffer.getD []).length := by rw [hbuffer]
  obtain ⟨d, hd⟩ := Option.ne_none_iff_exists'.mp (succeed.cfData buffer hbuffer)
  have hdata : d = utf8Bytes fw s := by
    rw [documented.cfData buffer _ d hle hd, hbuffer, List.take_length]
  rw [leoUTF8CopyUTF8DataFromCFString]
  simp only [measured_eq documented]
  rw [if_neg (by rw [hcount]; omega), hconvert]
  simp only [hd, hdata]

theorem leoUTF8CopyUTF8DataFromNSString_unpaired (h : HasUnpaired (fw.units s))
    (old : Option (List UInt8)) :
    leoUTF8CopyUTF8DataFromNSString fw (some s) (some old) = (.invalid, some none) := by
  rw [leoUTF8CopyUTF8DataFromNSString, (documented.canBeConverted s).mpr h]
  rfl

theorem leoUTF8CopyUTF8DataFromNSString_paired (succeed : CopySucceeds fw s)
    (h : ¬ HasUnpaired (fw.units s)) (old : Option (List UInt8)) :
    leoUTF8CopyUTF8DataFromNSString fw (some s) (some old) =
      (.ok, some (some (utf8Bytes fw s))) := by
  have hconvertible : fw.canBeConvertedToEncoding s nsUTF8StringEncoding = true := by
    rw [← Bool.not_eq_false, documented.canBeConverted]
    exact h
  obtain ⟨text, htext⟩ := Option.ne_none_iff_exists'.mp succeed.utf8String
  obtain ⟨rest, rfl⟩ := documented.utf8String s text h htext
  have hle : (utf8Bytes fw s).length ≤ (utf8Bytes fw s ++ 0 :: rest).length := by
    rw [List.length_append]
    omega
  obtain ⟨d, hd⟩ := Option.ne_none_iff_exists'.mp (succeed.nsData rest)
  have hdata : d = utf8Bytes fw s := by
    rw [documented.nsData _ _ d hle hd, List.take_left]
  rw [leoUTF8CopyUTF8DataFromNSString, hconvertible]
  simp only [htext, documented.lengthOfBytes s h, hd, hdata]
  rfl

end Copies

/-- What the validator lets pass is text that a `CFIndex` can count. -/
theorem validated {pf : Platform} {mem : List UInt8} {length : ℕ} (hlen : length ≤ mem.length)
    (h : leoUTF8ValidateBytes pf (some mem) length = .ok .ok) :
    length ≤ pf.longMax ∧ ∃ cs, (∀ c ∈ cs, IsScalar c) ∧ mem.take length = encodeAll cs := by
  have hmax : length ≤ pf.longMax := by
    by_contra hlong
    rw [leoUTF8ValidateBytes_long mem (by omega)] at h
    cases h
  rw [leoUTF8ValidateBytes_eq hlen hmax, Except.ok.injEq, validity_eq_ok] at h
  exact ⟨hmax, h⟩

theorem utf8Bytes_of_units {fw : Framework} {s : fw.Str} {cs : List ℕ}
    (hcs : ∀ c ∈ cs, IsScalar c) (h : fw.units s = encodeUnitsAll cs) :
    ¬ HasUnpaired (fw.units s) ∧ utf8Bytes fw s = encodeAll cs := by
  rw [← decodeUnits_rest_eq_nil, utf8Bytes, h, decodeUnits_encodeUnitsAll hcs]
  exact ⟨rfl, rfl⟩

section Creations

variable {pf : Platform} {fw : Framework} (documented : Documented pf fw)
  {mem : List UInt8} {length : ℕ} (succeed : CreationSucceeds fw mem length) {cs : List ℕ}
  (hmax : length ≤ pf.longMax) (hcs : ∀ c ∈ cs, IsScalar c)
  (hmem : mem.take length = encodeAll cs)
  (hvalid : leoUTF8ValidateBytes pf (some mem) length = .ok .ok) (old : Option fw.Str)
include documented succeed hmax hcs hmem hvalid

theorem leoUTF8CreateCFStringFromBytes_valid :
    ∃ s, leoUTF8CreateCFStringFromBytes pf fw (some mem) length (some old) =
      .ok (.ok, some (some s)) ∧ fw.units s = encodeUnitsAll cs := by
  obtain ⟨s, hs⟩ := Option.ne_none_iff_exists'.mp succeed.cfString
  refine ⟨s, ?_, documented.cfString mem length cs s hcs hmem hs⟩
  rw [leoUTF8CreateCFStringFromBytes, hvalid, ok_bind, if_neg (by simp), leoUTF8SizeToCFIndex,
    if_neg (by omega)]
  simp only [hs]

omit hmax in
theorem leoUTF8CreateNSStringFromBytes_valid :
    ∃ s, leoUTF8CreateNSStringFromBytes pf fw (some mem) length (some old) =
      .ok (.ok, some (some s)) ∧ fw.units s = encodeUnitsAll cs := by
  obtain ⟨s, hs⟩ := Option.ne_none_iff_exists'.mp succeed.nsString
  refine ⟨s, ?_, documented.nsString mem length cs s hcs hmem hs⟩
  rw [leoUTF8CreateNSStringFromBytes, hvalid, ok_bind, if_neg (by simp), hs]

end Creations

def CopiesTo (fw : Framework) (s : fw.Str) (d : List UInt8) : Prop :=
  ∀ old, leoUTF8CopyUTF8DataFromCFString fw (some s) (some old) = (.ok, some (some d)) ∧
    leoUTF8CopyUTF8DataFromNSString fw (some s) (some old) = (.ok, some (some d))

def CreatesFrom (pf : Platform) (fw : Framework) (mem : List UInt8) (length : ℕ)
    (P : fw.Str → Prop) : Prop :=
  ∀ old, (∃ s, leoUTF8CreateCFStringFromBytes pf fw (some mem) length (some old) =
      .ok (.ok, some (some s)) ∧ P s) ∧
    ∃ s, leoUTF8CreateNSStringFromBytes pf fw (some mem) length (some old) =
      .ok (.ok, some (some s)) ∧ P s

theorem copiesTo {pf : Platform} {fw : Framework} (documented : Documented pf fw)
    {s : fw.Str} (succeed : CopySucceeds fw s) (h : ¬ HasUnpaired (fw.units s)) :
    CopiesTo fw s (utf8Bytes fw s) :=
  fun old => ⟨leoUTF8CopyUTF8DataFromCFString_paired documented succeed h old,
    leoUTF8CopyUTF8DataFromNSString_paired documented succeed h old⟩

theorem createsFrom {pf : Platform} {fw : Framework} (documented : Documented pf fw)
    {mem : List UInt8} {length : ℕ} (succeed : CreationSucceeds fw mem length) {cs : List ℕ}
    (hmax : length ≤ pf.longMax) (hcs : ∀ c ∈ cs, IsScalar c)
    (hmem : mem.take length = encodeAll cs)
    (hvalid : leoUTF8ValidateBytes pf (some mem) length = .ok .ok) :
    CreatesFrom pf fw mem length fun s => fw.units s = encodeUnitsAll cs :=
  fun old => ⟨leoUTF8CreateCFStringFromBytes_valid documented succeed hmax hcs hmem hvalid old,
    leoUTF8CreateNSStringFromBytes_valid documented succeed hcs hmem hvalid old⟩

theorem CreatesFrom.imp {pf : Platform} {fw : Framework} {mem : List UInt8} {length : ℕ}
    {P Q : fw.Str → Prop} (h : CreatesFrom pf fw mem length P) (himp : ∀ s, P s → Q s) :
    CreatesFrom pf fw mem length Q := by
  intro old
  obtain ⟨⟨s, hs, hP⟩, s', hs', hP'⟩ := h old
  exact ⟨⟨s, hs, himp s hP⟩, s', hs', himp s' hP'⟩

/-- The string functions are inverse to each other: bytes that validate come back from the string
made of them, and a string without unpaired surrogates comes back from its data. -/
theorem bridges_lossless (pf : Platform) (fw : Framework) (documented : Documented pf fw) :
    (∀ (mem : List UInt8) (length : ℕ), length ≤ mem.length →
      leoUTF8ValidateBytes pf (some mem) length = .ok .ok → CreationSucceeds fw mem length →
        CreatesFrom pf fw mem length fun s => ¬ HasUnpaired (fw.units s) ∧
          (CopySucceeds fw s → CopiesTo fw s (mem.take length))) ∧
    ∀ s : fw.Str, (¬ HasUnpaired (fw.units s) → CopySucceeds fw s) →
      (∀ old, (leoUTF8CopyUTF8DataFromCFString fw (some s) (some old)).1 = .ok ↔
        ¬ HasUnpaired (fw.units s)) ∧
      (∀ old, (leoUTF8CopyUTF8DataFromNSString fw (some s) (some old)).1 = .ok ↔
        ¬ HasUnpaired (fw.units s)) ∧
      (¬ HasUnpaired (fw.units s) → ∃ d, CopiesTo fw s d ∧
        leoUTF8ValidateBytes pf (some d) d.length = .ok .ok ∧
        (CreationSucceeds fw d d.length →
          CreatesFrom pf fw d d.length fun s' => fw.units s' = fw.units s)) := by
  refine ⟨?_, fun s succeed => ⟨?_, ?_, ?_⟩⟩
  · intro mem length hlen hvalid hcreate
    obtain ⟨hmax, cs, hcs, hmem⟩ := validated hlen hvalid
    refine (createsFrom documented hcreate hmax hcs hmem hvalid).imp ?_
    intro s hs
    obtain ⟨hpaired, hbytes⟩ := utf8Bytes_of_units hcs hs
    rw [hmem, ← hbytes]
    exact ⟨hpaired, fun hcopy => copiesTo documented hcopy hpaired⟩
  · intro old
    by_cases h : HasUnpaired (fw.units s)
    · rw [leoUTF8CopyUTF8DataFromCFString_unpaired documented h old]
      exact iff_of_false (by simp) (not_not_intro h)
    · rw [leoUTF8CopyUTF8DataFromCFString_paired documented (succeed h) h old]
      exact iff_of_true rfl h
  · intro old
    by_cases h : HasUnpaired (fw.units s)
    · rw [leoUTF8CopyUTF8DataFromNSString_unpaired documented h old]
      exact iff_of_false (by simp) (not_not_intro h)
    · rw [leoUTF8CopyUTF8DataFromNSString_paired documented (succeed h) h old]
      exact iff_of_true rfl h
  · intro h
    obtain ⟨hscalar, hunits, _⟩ := decodeUnits_spec (fw.units s)
    rw [decodeUnits_rest_eq_nil.mpr h, List.append_nil] at hunits
    have hmax := documented.size s
    have hmem : (utf8Bytes fw s).take (utf8Bytes fw s).length =
        encodeAll (decodeUnits (fw.units s)).1 := List.take_length
    have hvalid : leoUTF8ValidateBytes pf (some (utf8Bytes fw s)) (utf8Bytes fw s).length =
        .ok .ok := by
      rw [leoUTF8ValidateBytes_eq le_rfl hmax, hmem, validity_eq_ok.mpr ⟨_, hscalar, rfl⟩]
    refine ⟨utf8Bytes fw s, copiesTo documented (succeed h) h, hvalid, fun hcreate => ?_⟩
    refine (createsFrom documented hcreate hmax hscalar hmem hvalid).imp ?_
    intro s' hs'
    rw [hs', ← hunits]

section Reference

/-- A string of a framework that does what is documented: units whose UTF-8 form has a size. -/
abbrev SizedUnits (pf : Platform) : Type :=
  { u : List UInt16 // (encodeAll (decodeUnits u).1).length ≤ pf.longMax }

def stringOfBytes (pf : Platform) (bytes : List UInt8) : Option (SizedUnits pf) :=
  let units := encodeUnitsAll (decode bytes).1
  if h : (decode bytes).2 = [] ∧ (encodeAll (decodeUnits units).1).length ≤ pf.longMax then
    some ⟨units, h.2⟩
  else none

def referenceFramework (pf : Platform) : Framework where
  Str := SizedUnits pf
  units := fun s => s.val
  malloc := fun n => some (List.replicate n 0)
  cfStringCreateWithBytes := fun bytes numBytes _ _ => stringOfBytes pf (bytes.take numBytes.toNat)
  cfStringGetLength := fun s => s.val.length
  cfStringGetBytes := fun s _ _ _ _ _ buffer _ =>
    { converted := (encodeUnitsAll (decodeUnits s.val).1).length
      buffer := buffer.map fun block => overwrite block 0 (encodeAll (decodeUnits s.val).1)
      usedBufLen := (encodeAll (decodeUnits s.val).1).length }
  cfDataCreate := fun bytes length => some ((bytes.getD []).take length.toNat)
  nsStringInitWithBytes := fun bytes length _ => stringOfBytes pf (bytes.take length)
  canBeConvertedToEncoding := fun s _ => (decodeUnits s.val).2.isEmpty
  utf8String := fun s =>
    if (decodeUnits s.val).2.isEmpty then some (encodeAll (decodeUnits s.val).1 ++ [0]) else none
  lengthOfBytesUsingEncoding := fun s _ => (encodeAll (decodeUnits s.val).1).length
  nsDataInitWithBytes := fun bytes length => some (bytes.take length)

theorem stringOfBytes_units {pf : Platform} {cs : List ℕ} (hcs : ∀ c ∈ cs, IsScalar c)
    {s : SizedUnits pf} (h : stringOfBytes pf (encodeAll cs) = some s) :
    s.val = encodeUnitsAll cs := by
  unfold stringOfBytes at h
  simp only at h
  split_ifs at h
  have hunits := congrArg Subtype.val (Option.some.inj h)
  change encodeUnitsAll (decode (encodeAll cs)).1 = s.val at hunits
  rw [← hunits, decode_encodeAll hcs]

theorem stringOfBytes_ne_none {pf : Platform} {bytes : List UInt8} (hvalid : WellFormed bytes)
    (hmax : bytes.length ≤ pf.longMax) : stringOfBytes pf bytes ≠ none := by
  obtain ⟨cs, hcs, rfl⟩ := hvalid
  unfold stringOfBytes
  simp only [decode_encodeAll hcs, decodeUnits_encodeUnitsAll hcs]
  rw [dif_pos ⟨trivial, hmax⟩]
  exact Option.some_ne_none _

theorem referenceFramework_convertible {pf : Platform} (s : SizedUnits pf) :
    (decodeUnits s.val).2.isEmpty = true ↔ ¬ HasUnpaired s.val := by
  rw [List.isEmpty_iff, decodeUnits_rest_eq_nil]

theorem referenceFramework_documented (pf : Platform) :
    Documented pf (referenceFramework pf) where
  malloc := by
    intro n block h
    rw [← Option.some.inj h, List.length_replicate]
  cfString := by
    intro mem length cs s hcs hmem h
    change stringOfBytes pf (mem.take (length : ℤ).toNat) = some s at h
    rw [Int.toNat_natCast, hmem] at h
    exact stringOfBytes_units hcs h
  getLength := fun _ => rfl
  getBytes := fun _ _ _ _ => rfl
  cfData := by
    intro bytes length d _ h
    rw [← Option.some.inj h, Int.toNat_natCast]
  nsString := by
    intro mem length cs s hcs hmem h
    change stringOfBytes pf (mem.take length) = some s at h
    rw [hmem] at h
    exact stringOfBytes_units hcs h
  canBeConverted := by
    intro s
    have h := not_congr (referenceFramework_convertible s)
    rwa [Bool.not_eq_true, not_not] at h
  utf8String := by
    intro s text h htext
    change (if (decodeUnits s.val).2.isEmpty then _ else none) = some text at htext
    rw [if_pos ((referenceFramework_convertible s).mpr h)] at htext
    exact ⟨[], (Option.some.inj htext).symm⟩
  lengthOfBytes := fun _ _ => rfl
  nsData := by
    intro bytes length d _ h
    exact (Option.some.inj h).symm
  size := fun s => s.property

theorem referenceFramework_creates {pf : Platform} {mem : List UInt8} {length : ℕ}
    (hmax : length ≤ pf.longMax) (hvalid : WellFormed (mem.take length)) :
    CreationSucceeds (referenceFramework pf) mem length := by
  have hstring : stringOfBytes pf (mem.take length) ≠ none := by
    apply stringOfBytes_ne_none hvalid
    rw [List.length_take]
    omega
  constructor
  · change stringOfBytes pf (mem.take (length : ℤ).toNat) ≠ none
    rwa [Int.toNat_natCast]
  · exact hstring

theorem referenceFramework_copies {pf : Platform} {s : SizedUnits pf} (h : ¬ HasUnpaired s.val) :
    CopySucceeds (referenceFramework pf) s where
  malloc := fun _ => Option.some_ne_none _
  cfData := fun _ _ => Option.some_ne_none _
  utf8String := by
    change (if (decodeUnits s.val).2.isEmpty then _ else none) ≠ none
    rw [if_pos ((referenceFramework_convertible s).mpr h)]
    exact Option.some_ne_none _
  nsData := fun _ => Option.some_ne_none _

theorem bridges_lossless_reference :
    CreatesFrom .leopardPPC (referenceFramework .leopardPPC)
      [0xEF, 0xBB, 0xBF, 0xF0, 0x9F, 0x98, 0x80, 0x00] 8 fun s =>
        CopiesTo (referenceFramework .leopardPPC) s
          [0xEF, 0xBB, 0xBF, 0xF0, 0x9F, 0x98, 0x80, 0x00] := by
  have hcreate : CreationSucceeds (referenceFramework .leopardPPC)
      [0xEF, 0xBB, 0xBF, 0xF0, 0x9F, 0x98, 0x80, 0x00] 8 :=
    referenceFramework_creates (by decide) ⟨[0xFEFF, 0x1F600, 0], by decide, by decide⟩
  refine ((bridges_lossless .leopardPPC (referenceFramework .leopardPPC)
    (referenceFramework_documented .leopardPPC)).1
      [0xEF, 0xBB, 0xBF, 0xF0, 0x9F, 0x98, 0x80, 0x00] 8 (by decide) (by decide +kernel)
      hcreate).imp ?_
  intro s hs
  exact hs.2 (referenceFramework_copies hs.1)

end Reference

end LeoUTF8.BridgeRoundTrips
