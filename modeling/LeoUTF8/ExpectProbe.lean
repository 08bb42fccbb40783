import LeoUTF8.LineCutting
import LeoUTF8.CodePointMapping
import LeoUTF8.CoreFunctions

set_option autoImplicit false

/-!
# The exact-output probe

The probe reads a case file, runs a transform on the input bytes of the case and compares
the result with its expected bytes. A file is what its reader delivers before the end of the
file or an input error. Automatic objects are not null where their address is passed.
-/
namespace LeoUTF8.ExpectProbe
open BoundedLoop CellStorage HeapBlocks EngineMap CoreFunctions CodePointMapping LineCutting

structure HexBuffer where
  bytes : Option Address
  length : ℕ
  deriving DecidableEq

def emptyBuffer : HexBuffer := { bytes := none, length := 0 }

def hexValue (ch : UInt8) : ℤ :=
  if 0x30 ≤ ch ∧ ch ≤ 0x39 then (ch.toNat : ℤ) - 0x30
  else if 0x61 ≤ ch ∧ ch ≤ 0x66 then (ch.toNat : ℤ) - 0x61 + 10
  else if 0x41 ≤ ch ∧ ch ≤ 0x46 then (ch.toNat : ℤ) - 0x41 + 10
  else -1

def isIgnoredHexChar (ch : UInt8) : Bool := ch = 0x20 ∨ ch = 0x09 ∨ ch = 0x0D ∨ ch = 0x0A

/-- The first loop of `ParseHexBytes`, with the memory from the cursor on. `none` is its return. -/
def countDigits : List UInt8 → ℕ → Exec (Option ℕ)
  | [], _ => .error .read
  | ch :: cursor, digits =>
    if ch = 0 then .ok (some digits)
    else if isIgnoredHexChar ch then countDigits cursor digits
    else if hexValue ch < 0 then .ok none
    else countDigits cursor (digits + 1)

def skipIgnored : List UInt8 → Exec (List UInt8)
  | [] => .error .read
  | ch :: cursor =>
    if ch ≠ 0 ∧ isIgnoredHexChar ch then skipIgnored cursor else .ok (ch :: cursor)

structure FillState where
  cursor : List UInt8
  index : ℕ
  block : List UInt8

def hexByte (high low : ℤ) : UInt8 := UInt8.ofNat (high.toNat <<< 4 ||| low.toNat)

/-- One iteration of the second loop of `ParseHexBytes`. `none` is one of its returns. -/
def fillBody (length : ℕ) (s : FillState) : Exec (Step FillState (Option (List UInt8))) := do
  let first ← load s.cursor 0
  if first = 0 then .ok (.done (some s.block))
  else do
    let cursor ← skipIgnored s.cursor
    let first ← load cursor 0
    if first = 0 then .ok (.done (some s.block))
    else do
      let high := hexValue first
      let cursor ← skipIgnored (cursor.drop 1)
      let second ← load cursor 0
      if second = 0 then .ok (.done none)
      else
        let low := hexValue second
        if high < 0 ∨ low < 0 ∨ s.index ≥ length then .ok (.done none)
        else do
          let block ← store s.block s.index (hexByte high low)
          .ok (.next { cursor := cursor.drop 1, index := s.index + 1, block := block })

/-- The return value, `*buffer` and the heap. -/
def parseHexBytes (alloc : Allocator) (heap : Heap) (text : Option (List UInt8))
    (buffer : Option HexBuffer) : Exec (ℤ × Option HexBuffer × Heap) :=
  match text, buffer with
  | none, _ | _, none => .ok (-1, buffer, heap)
  | some text, some _ => do
    let counted ← countDigits text 0
    match counted with
    | none => .ok (-1, some emptyBuffer, heap)
    | some digits =>
      if digits % 2 ≠ 0 then .ok (-1, some emptyBuffer, heap)
      else
        let length := digits / 2
        let size := if length = 0 then 1 else length
        match alloc.malloc heap size with
        | none => .ok (-1, some { bytes := none, length := length }, heap)
        | some a => do
          let filled ← run (fillBody length) (text.length + 1)
            { cursor := text, index := 0, block := alloc.fresh size }
          match filled with
          | none => .ok (-1, some emptyBuffer, heap.free a)
          | some block => .ok (0, some { bytes := some a, length := length }, heap.put a block)

/-- `free`, for which a null pointer is nothing to do. -/
def free (heap : Heap) (ptr : Option Address) : Heap :=
  match ptr with
  | none => heap
  | some a => heap.free a

/-- `*buffer` and the heap. -/
def freeHexBuffer (heap : Heap) (buffer : Option HexBuffer) : Option HexBuffer × Heap :=
  match buffer with
  | none => (none, heap)
  | some buffer => (some emptyBuffer, free heap buffer.bytes)

def strncmp : List UInt8 → List UInt8 → ℕ → Exec ℤ
  | _, _, 0 => .ok 0
  | a :: s, b :: t, n + 1 =>
    if a ≠ b then .ok ((a.toNat : ℤ) - b.toNat)
    else if a = 0 then .ok 0
    else strncmp s t n
  | _, _, _ + 1 => .error .read

def startsWith (line leading : Option (List UInt8)) : Exec Bool :=
  match line, leading with
  | none, _ | _, none => .ok false
  | some line, some leading => do
    let leadingLength ← strlen leading
    let order ← strncmp line leading leadingLength
    .ok (order = 0)

def newline : UInt8 := 0x0A

/-- `input_hex=` -/
def inputKey : List UInt8 := [0x69, 0x6E, 0x70, 0x75, 0x74, 0x5F, 0x68, 0x65, 0x78, 0x3D]

/-- `expected_hex=` -/
def expectedKey : List UInt8 :=
  [0x65, 0x78, 0x70, 0x65, 0x63, 0x74, 0x65, 0x64, 0x5F, 0x68, 0x65, 0x78, 0x3D]

structure Stream where
  rest : List UInt8
  inputError : Bool

/-- `fgets` into an object of at least `size` bytes: the object and the stream, or null. -/
def fgets (line : List UInt8) (size : ℕ) (file : Stream) : Exec (Option (List UInt8 × Stream)) :=
  let (text, rest) := readPiece newline (size - 1) file.rest
  if text = [] then .ok none
  else if file.inputError ∧ text.length < size - 1 ∧ newline ∉ text then .ok none
  else do
    let line ← storeAll line 0 (text ++ [0])
    .ok (some (line, { file with rest := rest }))

/-- The size of the object `line` of `LoadCaseFile`. -/
def lineSize : ℕ := 4096

structure LoadState where
  file : Stream
  line : List UInt8
  input : HexBuffer
  expected : HexBuffer
  haveInput : Bool
  haveExpected : Bool
  heap : Heap

/-- The loop of `LoadCaseFile` returns early or reads to the end. -/
inductive LoadEnd where
  | malformed (input expected : HexBuffer) (heap : Heap)
  | finished (s : LoadState)

/-- Frees a buffer and parses the line behind the first `offset` bytes into it. -/
def reload (alloc : Allocator) (heap : Heap) (line : List UInt8) (offset : ℕ)
    (buffer : HexBuffer) : Exec (ℤ × HexBuffer × Heap) := do
  let (freed, heap) := freeHexBuffer heap (some buffer)
  let (rc, parsed, heap) ← parseHexBytes alloc heap (some (line.drop offset)) freed
  .ok (rc, parsed.getD buffer, heap)

/-- One iteration of the loop of `LoadCaseFile`. -/
def loadBody (alloc : Allocator) (s : LoadState) : Exec (Step LoadState LoadEnd) := do
  let got ← fgets s.line lineSize s.file
  match got with
  | none => .ok (.done (.finished s))
  | some (line, file) =>
    if ← startsWith (some line) (some (inputKey ++ [0])) then do
      let (rc, input, heap) ← reload alloc s.heap line inputKey.length s.input
      if rc ≠ 0 then .ok (.done (.malformed input s.expected heap))
      else .ok (.next
        { s with file := file, line := line, input := input, haveInput := true, heap := heap })
    else if ← startsWith (some line) (some (expectedKey ++ [0])) then do
      let (rc, expected, heap) ← reload alloc s.heap line expectedKey.length s.expected
      if rc ≠ 0 then .ok (.done (.malformed s.input expected heap))
      else .ok (.next { s with
        file := file, line := line, expected := expected, haveExpected := true, heap := heap })
    else .ok (.next { s with file := file, line := line })

abbrev Path := List UInt8

/-- The return value, `*input`, `*expected` and the heap. -/
def loadCaseFile (alloc : Allocator) (fopen : Path → Option Stream) (heap : Heap)
    (path : Option Path) (input expected : Option HexBuffer) :
    Exec (ℤ × Option HexBuffer × Option HexBuffer × Heap) :=
  match path, input, expected with
  | some path, some input, some expected =>
    match fopen path with
    | none => .ok (-1, some input, some expected, heap)
    | some file => do
      let ended ← run (loadBody alloc) (file.rest.length + 1)
        { file := file, line := alloc.fresh lineSize, input := input, expected := expected
          haveInput := false, haveExpected := false, heap := heap }
      match ended with
      | .malformed input expected heap => .ok (-1, some input, some expected, heap)
      | .finished s =>
        if s.file.inputError then .ok (-1, some s.input, some s.expected, s.heap)
        else if ¬ s.haveInput ∨ ¬ s.haveExpected then
          .ok (-1, some s.input, some s.expected, s.heap)
        else .ok (0, some s.input, some s.expected, s.heap)
  | _, _, _ => .ok (-1, input, expected, heap)

/-- The mode is the transform whose macro is defined, if one is. -/
def probeModeName (mode : Option Transform) : String :=
  match mode with
  | some .nfc => "NFC"
  | some .nfd => "NFD"
  | some .caseFold => "CASEFOLD"
  | none => "UNKNOWN"

def runTransform (rt : Runtime) (mode : Option Transform) (heap : Heap)
    (bytes : Option (List UInt8)) (length : ℕ) (o : Outputs) :
    Exec (LeoUTF8Status × Outputs × Heap) :=
  match mode with
  | some .nfc => leoUTF8NormalizeNFCBytes rt heap bytes length o
  | some .nfd => leoUTF8NormalizeNFDBytes rt heap bytes length o
  | some .caseFold => leoUTF8CaseFoldBytes rt heap bytes length o
  | none => .ok (.error, o, heap)

/-- The object behind a pointer; a pointer to no object must not be read through. -/
def object (heap : Heap) (ptr : Option Address) : Exec (List UInt8) :=
  match ptr.bind heap with
  | some block => .ok block
  | none => .error .read

def memcmp : List UInt8 → List UInt8 → ℕ → Exec ℤ
  | _, _, 0 => .ok 0
  | a :: s, b :: t, n + 1 => if a ≠ b then .ok ((a.toNat : ℤ) - b.toNat) else memcmp s t n
  | _, _, _ + 1 => .error .read

structure Exit where
  code : ℕ
  stdout : String
  stderr : String
  heap : Heap

/-- `out` of `outLength` bytes against the expected bytes. -/
def mismatch (heap : Heap) (out : Option Address) (outLength : ℕ) (expected : HexBuffer) :
    Exec Bool :=
  if outLength ≠ expected.length then .ok true
  else if expected.length > 0 then do
    let outBytes ← object heap out
    let expectedBytes ← object heap expected.bytes
    let order ← memcmp outBytes expectedBytes expected.length
    .ok (order ≠ 0)
  else .ok false

/-- Both buffers and the output of the transform are freed before the program exits. -/
def release (heap : Heap) (input expected : HexBuffer) (out : Option Address) : Heap :=
  let (_, heap) := freeHexBuffer heap (some input)
  let (_, heap) := freeHexBuffer heap (some expected)
  leoUTF8Free heap out

def main (rt : Runtime) (fopen : Path → Option Stream) (mode : Option Transform) (heap : Heap)
    (argv : List Path) : Exec Exit :=
  match argv with
  | [_, path] => do
    let (rc, input, expected, heap) ← loadCaseFile rt.allocator fopen heap (some path)
      (some emptyBuffer) (some emptyBuffer)
    let input := input.getD emptyBuffer
    let expected := expected.getD emptyBuffer
    if rc ≠ 0 then
      .ok { code := 2, stdout := "", stderr := "LEOFUZZ:ERROR invalid-case-file\n"
            heap := release heap input expected none }
    else do
      let bytes ← object heap input.bytes
      let (status, outputs, heap) ← runTransform rt mode heap (some bytes) input.length
        { out := some none, outLen := some 0 }
      let out := outputs.out.getD none
      let outLength := outputs.outLen.getD 0
      if status ≠ .ok then
        .ok { code := 3, stdout := ""
              stderr := "LEOFUZZ:ERROR transform=" ++ probeModeName mode ++ " status=" ++
                leoUTF8StatusMessage status ++ "\n"
              heap := release heap input expected out }
      else if ← mismatch heap out outLength expected then
        .ok { code := 3, stdout := ""
              stderr := "LEOFUZZ:ERROR transform=" ++ probeModeName mode ++
                " output-mismatch expected_bytes=" ++ toString expected.length ++
                " actual_bytes=" ++ toString outLength ++ "\n"
              heap := release heap input expected out }
      else
        .ok { code := 0
              stdout := "LEOFUZZ:OK transform=" ++ probeModeName mode ++ " exact-output bytes=" ++
                toString outLength ++ "\n"
              stderr := "", heap := release heap input expected out }
  | _ =>
    .ok { code := 2, stdout := ""
          stderr := "LEOFUZZ:ERROR usage: leoutf8_transform_expect_probe case-file\n"
          heap := heap }

end LeoUTF8.ExpectProbe
