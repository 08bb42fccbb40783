import LeoUTF8.CellStorage
import LeoUTF8.EngineTables

set_option autoImplicit false

/-! # The UTF-8 decoder and encoder of utf8proc -/
namespace LeoUTF8.EngineCodec
open BoundedLoop CellStorage EngineTables

def utfCont (ch : UInt8) : Bool := ch &&& 0xc0 == 0x80

/-- The return value and `*dst`. A negative `strlen` promises four readable bytes. -/
def utf8procIterate (mem : List UInt8) (str : ℕ) (strlen : ℤ) : Exec (ℤ × ℤ) :=
  if strlen = 0 then .ok (0, -1)
  else do
    let stop : ℤ := str + if strlen < 0 then 4 else strlen
    let first ← load mem str
    let str := str + 1
    let uc := first.toNat
    if uc < 0x80 then .ok (1, uc)
    else if ((uc : ℤ) - 0xc2) % 2 ^ 32 > 0xf4 - 0xc2 then .ok (utf8procErrorInvalidutf8, -1)
    else if uc < 0xe0 then
      if str ≥ stop then .ok (utf8procErrorInvalidutf8, -1)
      else do
        let b ← load mem str
        if !utfCont b then .ok (utf8procErrorInvalidutf8, -1)
        else .ok (2, ((uc &&& 0x1f) <<< 6 ||| (b.toNat &&& 0x3f) : ℕ))
    else if uc < 0xf0 then
      if str + 1 ≥ stop then .ok (utf8procErrorInvalidutf8, -1)
      else do
        let b ← load mem str
        if !utfCont b then .ok (utf8procErrorInvalidutf8, -1)
        else do
          let c ← load mem (str + 1)
          if !utfCont c then .ok (utf8procErrorInvalidutf8, -1)
          -- surrogates
          else if uc = 0xed ∧ b.toNat > 0x9f then .ok (utf8procErrorInvalidutf8, -1)
          else
            let uc := (uc &&& 0xf) <<< 12 ||| (b.toNat &&& 0x3f) <<< 6 ||| (c.toNat &&& 0x3f)
            if uc < 0x800 then .ok (utf8procErrorInvalidutf8, -1)
            else .ok (3, uc)
    else
      if str + 2 ≥ stop then .ok (utf8procErrorInvalidutf8, -1)
      else do
        let b ← load mem str
        if !utfCont b then .ok (utf8procErrorInvalidutf8, -1)
        else do
          let c ← load mem (str + 1)
          if !utfCont c then .ok (utf8procErrorInvalidutf8, -1)
          else do
            let d ← load mem (str + 2)
            if !utfCont d then .ok (utf8procErrorInvalidutf8, -1)
            -- the range 0x10000 to 0x10ffff
            else if uc = 0xf0 ∧ b.toNat < 0x90 then .ok (utf8procErrorInvalidutf8, -1)
            else if uc = 0xf4 ∧ b.toNat > 0x8f then .ok (utf8procErrorInvalidutf8, -1)
            else .ok (4, ((uc &&& 7) <<< 18 ||| (b.toNat &&& 0x3f) <<< 12 |||
              (c.toNat &&& 0x3f) <<< 6 ||| (d.toNat &&& 0x3f) : ℕ))

/-- The bytes stored at `dst`; the return value is their number. Surrogates are encoded. -/
def utf8procEncodeChar (uc : ℤ) : List UInt8 :=
  if uc < 0x00 then []
  else
    let c := uc.toNat
    if uc < 0x80 then [.ofNat c]
    else if uc < 0x800 then [.ofNat (0xC0 + c >>> 6), .ofNat (0x80 + (c &&& 0x3F))]
    else if uc < 0x10000 then
      [.ofNat (0xE0 + c >>> 12), .ofNat (0x80 + (c >>> 6 &&& 0x3F)), .ofNat (0x80 + (c &&& 0x3F))]
    else if uc < 0x110000 then
      [.ofNat (0xF0 + c >>> 18), .ofNat (0x80 + (c >>> 12 &&& 0x3F)),
        .ofNat (0x80 + (c >>> 6 &&& 0x3F)), .ofNat (0x80 + (c &&& 0x3F))]
    else []

/-- The encoder used with `UTF8PROC_CHARBOUND`, where `-1` marks a grapheme break. -/
def charboundEncodeChar (uc : ℤ) : List UInt8 :=
  if uc = -1 then [0xFF] else utf8procEncodeChar uc

end LeoUTF8.EngineCodec
