import LeoUTF8.CoreFunctions

set_option autoImplicit false

/-!
# The bridges to CoreFoundation and Foundation

The framework functions are a parameter. Strings of both frameworks are the same
toll-free bridged objects; a data object is its bytes.
-/
namespace LeoUTF8.FrameworkBridges
open BoundedLoop EngineTables CoreFunctions

def kCFStringEncodingUTF8 : ℕ := 0x08000100
def nsUTF8StringEncoding : ℕ := 4

/-- The return value of `CFStringGetBytes`, its buffer and `*usedBufLen`. -/
structure GetBytesResult where
  converted : ℤ
  buffer : Option (List UInt8)
  usedBufLen : ℤ

/-- What the bridges call. `units` are the UTF-16 units of a string; null results are `none`. -/
structure Framework where
  Str : Type
  units : Str → List UInt16
  malloc : ℕ → Option (List UInt8)
  cfStringCreateWithBytes (bytes : List UInt8) (numBytes : ℤ) (encoding : ℕ)
    (isExternalRepresentation : Bool) : Option Str
  cfStringGetLength : Str → ℤ
  cfStringGetBytes (string : Str) (location length : ℤ) (encoding : ℕ) (lossByte : UInt8)
    (isExternalRepresentation : Bool) (buffer : Option (List UInt8)) (maxBufLen : ℤ) :
    GetBytesResult
  cfDataCreate (bytes : Option (List UInt8)) (length : ℤ) : Option (List UInt8)
  nsStringInitWithBytes (bytes : List UInt8) (length encoding : ℕ) : Option Str
  canBeConvertedToEncoding (string : Str) (encoding : ℕ) : Bool
  utf8String : Str → Option (List UInt8)
  lengthOfBytesUsingEncoding (string : Str) (encoding : ℕ) : ℕ
  nsDataInitWithBytes (bytes : List UInt8) (length : ℕ) : Option (List UInt8)

/-- The status and `*outLength`. -/
def leoUTF8SizeToCFIndex (pf : Platform) (length : ℕ) (outLength : Option ℤ) :
    LeoUTF8Status × Option ℤ :=
  match outLength with
  | none => (.invalid, none)
  | some old => if length > pf.longMax then (.error, some old) else (.ok, some length)

/-- The status and `*outString`. -/
def leoUTF8CreateCFStringFromBytes (pf : Platform) (fw : Framework) (bytes : Option (List UInt8))
    (length : ℕ) (outString : Option (Option fw.Str)) :
    Exec (LeoUTF8Status × Option (Option fw.Str)) :=
  match outString, bytes with
  | none, _ => .ok (.invalid, none)
  | some _, none => .ok (.invalid, some none)
  | some _, some mem => do
    let status ← leoUTF8ValidateBytes pf bytes length
    if status ≠ .ok then .ok (status, some none)
    else
      match leoUTF8SizeToCFIndex pf length (some 0) with
      | (.ok, some cfLength) =>
        match fw.cfStringCreateWithBytes mem cfLength kCFStringEncodingUTF8 false with
        | none => .ok (.error, some none)
        | some string => .ok (.ok, some (some string))
      | (status, _) => .ok (status, some none)

/-- The conversion into a buffer of the measured size; there is no buffer for an empty string. -/
def convertToBuffer (fw : Framework) (string : fw.Str) (charCount usedBytes : ℤ) :
    Except LeoUTF8Status (Option (List UInt8) × ℤ) :=
  if usedBytes > 0 then
    match fw.malloc usedBytes.toNat with
    | none => .error .noMemory
    | some block =>
      let filled := fw.cfStringGetBytes string 0 charCount kCFStringEncodingUTF8 0 false
        (some block) usedBytes
      if filled.converted ≠ charCount then .error .error
      else .ok (filled.buffer, filled.usedBufLen)
  else .ok (none, usedBytes)

/-- The status and `*outData`. -/
def leoUTF8CopyUTF8DataFromCFString (fw : Framework) (string : Option fw.Str)
    (outData : Option (Option (List UInt8))) : LeoUTF8Status × Option (Option (List UInt8)) :=
  match outData, string with
  | none, _ => (.invalid, none)
  | some _, none => (.invalid, some none)
  | some _, some string =>
    let charCount := fw.cfStringGetLength string
    let measured := fw.cfStringGetBytes string 0 charCount kCFStringEncodingUTF8 0 false none 0
    if measured.converted ≠ charCount ∨ measured.usedBufLen < 0 then (.error, some none)
    else
      match convertToBuffer fw string charCount measured.usedBufLen with
      | .error status => (status, some none)
      | .ok (buffer, usedBytes) =>
        match fw.cfDataCreate buffer usedBytes with
        | none => (.noMemory, some none)
        | some data => (.ok, some (some data))

def leoUTF8CreateNSStringFromBytes (pf : Platform) (fw : Framework) (bytes : Option (List UInt8))
    (length : ℕ) (outString : Option (Option fw.Str)) :
    Exec (LeoUTF8Status × Option (Option fw.Str)) :=
  match outString, bytes with
  | none, _ => .ok (.invalid, none)
  | some _, none => .ok (.invalid, some none)
  | some _, some mem => do
    let status ← leoUTF8ValidateBytes pf bytes length
    if status ≠ .ok then .ok (status, some none)
    else
      match fw.nsStringInitWithBytes mem length nsUTF8StringEncoding with
      | none => .ok (.invalid, some none)
      | some string => .ok (.ok, some (some string))

def leoUTF8CopyUTF8DataFromNSString (fw : Framework) (string : Option fw.Str)
    (outData : Option (Option (List UInt8))) : LeoUTF8Status × Option (Option (List UInt8)) :=
  match outData, string with
  | none, _ => (.invalid, none)
  | some _, none => (.invalid, some none)
  | some _, some string =>
    if !fw.canBeConvertedToEncoding string nsUTF8StringEncoding then (.invalid, some none)
    else
      match fw.utf8String string with
      | none => (.error, some none)
      | some utf8 =>
        let length := fw.lengthOfBytesUsingEncoding string nsUTF8StringEncoding
        match fw.nsDataInitWithBytes utf8 length with
        | none => (.noMemory, some none)
        | some data => (.ok, some (some data))

end LeoUTF8.FrameworkBridges
