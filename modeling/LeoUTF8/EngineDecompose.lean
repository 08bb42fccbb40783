import LeoUTF8.EngineCodec
import LeoUTF8.EngineGraphemes

set_option autoImplicit false

/-!
# The decomposition functions of utf8proc

A destination pointer is null or an offset into the code point buffer. Code points
and return values of type `utf8proc_ssize_t` are integers; no value computed here
reaches the limits of the C types for tables whose expansions fit in memory.
-/
namespace LeoUTF8.EngineDecompose
open BoundedLoop CellStorage EngineTables EngineCodec EngineGraphemes

def hangulSBase : ℤ := 0xAC00
def hangulLBase : ℤ := 0x1100
def hangulVBase : ℤ := 0x1161
def hangulTBase : ℤ := 0x11A7
def hangulLCount : ℤ := 19
def hangulVCount : ℤ := 21
def hangulTCount : ℤ := 28
def hangulNCount : ℤ := 588
def hangulSCount : ℤ := 11172

/-- What a decomposition writes to: the buffer and `*last_boundclass`. -/
structure DecomposeState where
  buffer : List ℤ
  lastBoundclass : ℕ

def storeAt (dst : Option ℕ) (i : ℕ) (v : ℤ) (s : DecomposeState) : Exec DecomposeState :=
  match dst with
  | none => .error .write
  | some p => do
    let buffer ← store s.buffer (p + i) v
    .ok { s with buffer := buffer }

/-- `if (bufsize >= i + 1) dst[i] = v` -/
def storeWithin (bufsize : ℤ) (dst : Option ℕ) (i : ℕ) (v : ℤ) (s : DecomposeState) :
    Exec DecomposeState :=
  if bufsize ≥ i + 1 then storeAt dst i v s else .ok s

/-- `utf8proc_decompose_char` as its callers see it, its options fixed. -/
abbrev DecomposeChar := ℤ → Option ℕ → ℤ → DecomposeState → Exec (ℤ × DecomposeState)

/-- The loop of `seqindex_write_char_decomposed`, with its remaining number of iterations. -/
def seqindexWriteLoop (t : Utf8procData) (decomposeChar : DecomposeChar) (dst : Option ℕ)
    (bufsize : ℤ) : ℕ → ℕ → ℤ → DecomposeState → Exec (ℤ × DecomposeState)
  | 0, _, written, s => .ok (written, s)
  | n + 1, entry, written, s => do
    let decoded := seqindexDecodeEntry t entry
    let (result, s) ← decomposeChar decoded.1 (dst.map (· + written.toNat))
      (if bufsize > written then bufsize - written else 0) s
    let written := written + result
    if written < 0 then .ok (utf8procErrorOverflow, s)
    else seqindexWriteLoop t decomposeChar dst bufsize n (decoded.2 + 1) written s

def seqindexWriteCharDecomposed (t : Utf8procData) (decomposeChar : DecomposeChar)
    (seqindex : UInt16) (dst : Option ℕ) (bufsize : ℤ) (s : DecomposeState) :
    Exec (ℤ × DecomposeState) :=
  let (len, entry) := seqindexHeader t seqindex
  seqindexWriteLoop t decomposeChar dst bufsize (len + 1) entry 0 s

/-- The replacement chosen by the block of `UTF8PROC_LUMP`. -/
def lumpReplacement (category : Category) (uc : ℤ) (options : Utf8procOption) : Option ℤ :=
  if !hasOption options utf8procLump then none
  else if category = .zs then some 0x0020
  else if uc = 0x2018 ∨ uc = 0x2019 ∨ uc = 0x02BC ∨ uc = 0x02C8 then some 0x0027
  else if category = .pd ∨ uc = 0x2212 then some 0x002D
  else if uc = 0x2044 ∨ uc = 0x2215 then some 0x002F
  else if uc = 0x2236 then some 0x003A
  else if uc = 0x2039 ∨ uc = 0x2329 ∨ uc = 0x3008 then some 0x003C
  else if uc = 0x203A ∨ uc = 0x232A ∨ uc = 0x3009 then some 0x003E
  else if uc = 0x2216 then some 0x005C
  else if uc = 0x02C4 ∨ uc = 0x02C6 ∨ uc = 0x2038 ∨ uc = 0x2303 then some 0x005E
  else if category = .pc ∨ uc = 0x02CD then some 0x005F
  else if uc = 0x02CB then some 0x0060
  else if uc = 0x2223 then some 0x007C
  else if uc = 0x223C then some 0x007E
  else if hasOption options utf8procNlf2ls ∧ hasOption options utf8procNlf2ps ∧
      (category = .zl ∨ category = .zp) then some 0x000A
  else none

/-- The Hangul syllable with index `sindex`: two or three jamo. -/
def writeHangul (sindex : ℤ) (dst : Option ℕ) (bufsize : ℤ) (s : DecomposeState) :
    Exec (ℤ × DecomposeState) := do
  let s ← storeWithin bufsize dst 0 (hangulLBase + sindex / hangulNCount) s
  let s ← storeWithin bufsize dst 1 (hangulVBase + sindex % hangulNCount / hangulTCount) s
  let tindex := sindex % hangulTCount
  if tindex = 0 then .ok (2, s)
  else do
    let s ← storeWithin bufsize dst 2 (hangulTBase + tindex) s
    .ok (3, s)

/-- `utf8proc_decompose_char`. The first argument bounds the nesting of its calls. -/
def utf8procDecomposeChar (t : Utf8procData) (depth : ℕ) (options : Utf8procOption) :
    DecomposeChar := fun uc dst bufsize s =>
  match depth with
  | 0 => .error .bound
  | depth + 1 =>
    if uc < 0 ∨ uc ≥ 0x110000 then .ok (utf8procErrorNotassigned, s)
    else do
      let property ← unsafeGetProperty t uc
      let sindex := uc - hangulSBase
      if hasOption options (utf8procCompose ||| utf8procDecompose) ∧
          sindex ≥ 0 ∧ sindex < hangulSCount then
        writeHangul sindex dst bufsize s
      else if hasOption options utf8procRejectna ∧ property.category = .cn then
        .ok (utf8procErrorNotassigned, s)
      else if hasOption options utf8procIgnore ∧ property.ignorable then .ok (0, s)
      else if hasOption options utf8procStripna ∧ property.category = .cn then .ok (0, s)
      else
        match lumpReplacement property.category uc options with
        | some replacement =>
          utf8procDecomposeChar t depth (options &&& ~~~ utf8procLump) replacement dst bufsize s
        | none =>
          if hasOption options utf8procStripmark ∧ (property.category = .mn ∨
              property.category = .mc ∨ property.category = .me) then .ok (0, s)
          else if hasOption options utf8procCasefold ∧
              property.casefoldSeqindex ≠ uint16Max then
            seqindexWriteCharDecomposed t (utf8procDecomposeChar t depth options)
              property.casefoldSeqindex dst bufsize s
          else if hasOption options (utf8procCompose ||| utf8procDecompose) ∧
              property.decompSeqindex ≠ uint16Max ∧
              (property.decompType = 0 ∨ hasOption options utf8procCompat) then
            seqindexWriteCharDecomposed t (utf8procDecomposeChar t depth options)
              property.decompSeqindex dst bufsize s
          else if hasOption options utf8procCharbound then
            let (boundary, state) := graphemeBreakExtended 0 property.boundclass 0
              property.indicConjunctBreak s.lastBoundclass
            let s := { s with lastBoundclass := state }
            if boundary then do
              -- the sentinel of a grapheme break, then the code point
              let s ← storeWithin bufsize dst 0 (-1) s
              let s ← storeWithin bufsize dst 1 uc s
              .ok (2, s)
            else do
              let s ← storeWithin bufsize dst 0 uc s
              .ok (1, s)
          else do
            let s ← storeWithin bufsize dst 0 uc s
            .ok (1, s)

/-- A chain of calls on code points that do not repeat has at most this length. -/
def decomposeDepth : ℕ := 0x110000

structure ScanState where
  rpos : ℤ
  wpos : ℤ
  decomposed : DecomposeState

/-- The loop over the input ends with an error code, or at the end of the input. -/
inductive ScanResult where
  | failed (code : ℤ) (buffer : List ℤ)
  | finished (wpos : ℤ) (buffer : List ℤ)

/-- One iteration of the input loop of `utf8proc_decompose_custom`. -/
def scanBody (pf : Platform) (t : Utf8procData) (mem : List UInt8) (strlen : ℤ)
    (base : Option ℕ) (bufsize : ℤ) (options : Utf8procOption) (customFunc : Option (ℤ → ℤ))
    (s : ScanState) : Exec (Step ScanState ScanResult) :=
  let convert (rpos uc : ℤ) : Exec (Step ScanState ScanResult) := do
    let uc := match customFunc with
      | some f => f uc
      | none => uc
    let (result, decomposed) ← utf8procDecomposeChar t decomposeDepth options uc
      (base.map (· + s.wpos.toNat)) (if bufsize > s.wpos then bufsize - s.wpos else 0)
      s.decomposed
    if result < 0 then .ok (.done (.failed result decomposed.buffer))
    else
      let wpos := s.wpos + result
      if wpos < 0 ∨ wpos > pf.codepointMax then
        .ok (.done (.failed utf8procErrorOverflow decomposed.buffer))
      else .ok (.next { rpos := rpos, wpos := wpos, decomposed := decomposed })
  if hasOption options utf8procNullterm then do
    let (step, uc) ← utf8procIterate mem s.rpos.toNat (-1)
    let rpos := s.rpos + step
    if uc < 0 then .ok (.done (.failed utf8procErrorInvalidutf8 s.decomposed.buffer))
    else if rpos < 0 then .ok (.done (.failed utf8procErrorOverflow s.decomposed.buffer))
    else if uc = 0 then .ok (.done (.finished s.wpos s.decomposed.buffer))
    else convert rpos uc
  else if s.rpos ≥ strlen then .ok (.done (.finished s.wpos s.decomposed.buffer))
  else do
    let (step, uc) ← utf8procIterate mem s.rpos.toNat (strlen - s.rpos)
    let rpos := s.rpos + step
    if uc < 0 then .ok (.done (.failed utf8procErrorInvalidutf8 s.decomposed.buffer))
    else convert rpos uc

structure ReorderState where
  pos : ℕ
  buffer : List ℤ

/-- One iteration of the reordering loop of `utf8proc_decompose_custom`. -/
def reorderBody (t : Utf8procData) (wpos : ℤ) (s : ReorderState) :
    Exec (Step ReorderState (List ℤ)) :=
  if s.pos < wpos - 1 then do
    let uc1 ← load s.buffer s.pos
    if uc1 < 0 then .ok (.next { s with pos := s.pos + 1 })
    else do
      let uc2 ← load s.buffer (s.pos + 1)
      if uc2 < 0 then .ok (.next { s with pos := s.pos + 2 })
      else do
        let property1 ← unsafeGetProperty t uc1
        let property2 ← unsafeGetProperty t uc2
        if property1.combiningClass > property2.combiningClass ∧
            property2.combiningClass > 0 then do
          let buffer ← store s.buffer s.pos uc2
          let buffer ← store buffer (s.pos + 1) uc1
          .ok (.next { pos := if s.pos > 0 then s.pos - 1 else s.pos + 1, buffer := buffer })
        else .ok (.next { s with pos := s.pos + 1 })
  else .ok (.done s.buffer)

/-- More iterations than the reordering of `n` code points takes. -/
def reorderBound (n : ℕ) : ℕ := n * n + 1

/-- `utf8proc_decompose_custom` for a null or a given buffer. The return value and the buffer. -/
def utf8procDecomposeCustom (pf : Platform) (t : Utf8procData) (mem : List UInt8) (strlen : ℤ)
    (buffer : Option (List ℤ)) (bufsize : ℤ) (options : Utf8procOption)
    (customFunc : Option (ℤ → ℤ)) : Exec (ℤ × List ℤ) :=
  let cells := buffer.getD []
  if hasOption options utf8procCompose ∧ hasOption options utf8procDecompose then
    .ok (utf8procErrorInvalidopts, cells)
  else if hasOption options utf8procStripmark ∧ ¬ hasOption options utf8procCompose ∧
      ¬ hasOption options utf8procDecompose then
    .ok (utf8procErrorInvalidopts, cells)
  else do
    let entry : ScanState :=
      { rpos := 0, wpos := 0, decomposed := { buffer := cells, lastBoundclass := boundclassStart } }
    let scanned ← run
      (scanBody pf t mem strlen (buffer.map fun _ => 0) bufsize options customFunc)
      (mem.length + 1) entry
    match scanned with
    | .failed code cells => .ok (code, cells)
    | .finished wpos cells =>
      if hasOption options (utf8procCompose ||| utf8procDecompose) ∧ bufsize ≥ wpos then do
        let cells ← run (reorderBody t wpos) (reorderBound wpos.toNat) { pos := 0, buffer := cells }
        .ok (wpos, cells)
      else .ok (wpos, cells)

end LeoUTF8.EngineDecompose
