import LeoUTF8.EngineMap

set_option autoImplicit false

/-!
# The public functions around the mapping functions of utf8proc

Functions of the interface of utf8proc that LeoUTF8Core does not call itself.
-/
namespace LeoUTF8.EngineInterface
open BoundedLoop HeapBlocks EngineTables EngineGraphemes EngineDecompose EngineMap

def utf8procErrmsg (errcode : ℤ) : String :=
  if errcode = utf8procErrorNomem then
    "Memory for processing UTF-8 data could not be allocated."
  else if errcode = utf8procErrorOverflow then "UTF-8 string is too long to be processed."
  else if errcode = utf8procErrorInvalidutf8 then "Invalid UTF-8 string"
  else if errcode = utf8procErrorNotassigned then
    "Unassigned Unicode code point found in UTF-8 string."
  else if errcode = utf8procErrorInvalidopts then "Invalid options for UTF-8 processing chosen."
  else "An unknown error occurred while processing UTF-8 data."

/-- The comparisons are those of 32-bit unsigned integers. -/
def utf8procCodepointValid (uc : ℤ) : Bool :=
  (uc % 2 ^ 32 - 0xd800) % 2 ^ 32 > 0x07ff ∧ uc % 2 ^ 32 < 0x110000

/-- Outside the range of code points this is the first record of the table. -/
def utf8procGetProperty (t : Utf8procData) (uc : ℤ) : Utf8procProperty :=
  if uc < 0 ∨ uc ≥ 0x110000 then t.properties 0 else t.property uc.toNat

/-- The result and `*state`; `state` is none if the pointer is null. -/
def utf8procGraphemeBreakStateful (t : Utf8procData) (c1 c2 : ℤ) (state : Option ℕ) :
    Bool × Option ℕ :=
  let p1 := utf8procGetProperty t c1
  let p2 := utf8procGetProperty t c2
  match state with
  | some state =>
    let (permitted, state) := graphemeBreakExtended p1.boundclass p2.boundclass
      p1.indicConjunctBreak p2.indicConjunctBreak state
    (permitted, some state)
  | none => (graphemeBreakSimple p1.boundclass p2.boundclass, none)

def utf8procGraphemeBreak (t : Utf8procData) (c1 c2 : ℤ) : Bool :=
  (utf8procGraphemeBreakStateful t c1 c2 none).1

/-- `utf8proc_map` of a NUL-terminated string; the returned pointer and the heap. -/
def mapNullterm (rt : Runtime) (heap : Heap) (str : List UInt8) (options : Utf8procOption) :
    Exec (Option Address × Heap) := do
  let (_, retval, heap) ← utf8procMap rt heap str 0 options
  .ok (retval, heap)

def utf8procNFD (rt : Runtime) (heap : Heap) (str : List UInt8) : Exec (Option Address × Heap) :=
  mapNullterm rt heap str (utf8procNullterm ||| utf8procStable ||| utf8procDecompose)

def utf8procNFC (rt : Runtime) (heap : Heap) (str : List UInt8) : Exec (Option Address × Heap) :=
  mapNullterm rt heap str (utf8procNullterm ||| utf8procStable ||| utf8procCompose)

def utf8procNFKD (rt : Runtime) (heap : Heap) (str : List UInt8) : Exec (Option Address × Heap) :=
  mapNullterm rt heap str
    (utf8procNullterm ||| utf8procStable ||| utf8procDecompose ||| utf8procCompat)

def utf8procNFKC (rt : Runtime) (heap : Heap) (str : List UInt8) : Exec (Option Address × Heap) :=
  mapNullterm rt heap str
    (utf8procNullterm ||| utf8procStable ||| utf8procCompose ||| utf8procCompat)

def utf8procNFKCCasefold (rt : Runtime) (heap : Heap) (str : List UInt8) :
    Exec (Option Address × Heap) :=
  mapNullterm rt heap str (utf8procNullterm ||| utf8procStable ||| utf8procCompose |||
    utf8procCompat ||| utf8procCasefold ||| utf8procIgnore)

/-- `free`, for which a null pointer is nothing to do. -/
def utf8procFree (heap : Heap) (ptr : Option Address) : Heap :=
  match ptr with
  | none => heap
  | some a => heap.free a

/-- The return value and the buffer. -/
def utf8procDecompose (pf : Platform) (t : Utf8procData) (mem : List UInt8) (strlen : ℤ)
    (buffer : Option (List ℤ)) (bufsize : ℤ) (options : Utf8procOption) : Exec (ℤ × List ℤ) :=
  utf8procDecomposeCustom pf t mem strlen buffer bufsize options none

end LeoUTF8.EngineInterface
