import LeoUTF8.EngineDecompose

set_option autoImplicit false

/-! # Normalization of the code point buffer, in place -/
namespace LeoUTF8.EngineCompose
open BoundedLoop CellStorage EngineTables EngineDecompose

structure NlfState where
  rpos : ℕ
  wpos : ℕ
  buffer : List ℤ

/-- The code point that stands for a newline function. -/
def nlfReplacement (options : Utf8procOption) : ℤ :=
  if hasOption options utf8procNlf2ls then
    if hasOption options utf8procNlf2ps then 0x000A else 0x2028
  else if hasOption options utf8procNlf2ps then 0x2029 else 0x0020

def nlfBody (length : ℤ) (options : Utf8procOption) (s : NlfState) :
    Exec (Step NlfState (ℤ × List ℤ)) :=
  if s.rpos < length then do
    let uc ← load s.buffer s.rpos
    let following ←
      if uc = 0x000D ∧ s.rpos < length - 1 then load s.buffer (s.rpos + 1) else .ok 0
    let rpos :=
      if uc = 0x000D ∧ s.rpos < length - 1 ∧ following = 0x000A then s.rpos + 1 else s.rpos
    if uc = 0x000A ∨ uc = 0x000D ∨ uc = 0x0085 ∨
        hasOption options utf8procStripcc ∧ (uc = 0x000B ∨ uc = 0x000C) then do
      let buffer ← store s.buffer s.wpos (nlfReplacement options)
      .ok (.next { rpos := rpos + 1, wpos := s.wpos + 1, buffer := buffer })
    else if hasOption options utf8procStripcc ∧
        (uc < 0x0020 ∨ uc ≥ 0x007F ∧ uc < 0x00A0) then
      if uc = 0x0009 then do
        let buffer ← store s.buffer s.wpos 0x0020
        .ok (.next { rpos := rpos + 1, wpos := s.wpos + 1, buffer := buffer })
      else .ok (.next { s with rpos := rpos + 1 })
    else do
      let buffer ← store s.buffer s.wpos uc
      .ok (.next { rpos := rpos + 1, wpos := s.wpos + 1, buffer := buffer })
  else .ok (.done (s.wpos, s.buffer))

/-- The search of `off < len` for the composition with `currentChar`. The list of seconds is
ascending, so a larger second ends it. The first argument is the number of entries left. -/
def searchSecond (t : Utf8procData) (idx : ℕ) (currentChar : ℤ) : ℕ → ℕ → Option ℤ
  | 0, _ => none
  | n + 1, off =>
    let second := t.combinationsSecond (idx + off)
    if currentChar < second then none
    else if currentChar = second then some (t.combinationsCombined (idx + off)).val
    else searchSecond t idx currentChar n (off + 1)

/-- The composition of the starter with the current code point, if there is one, and
`starter_property` after the attempt. -/
def combine (t : Utf8procData) (starterChar : ℤ) (starterProperty : Option Utf8procProperty)
    (currentChar : ℤ) (currentProperty : Utf8procProperty) :
    Exec (Option ℤ × Option Utf8procProperty) :=
  let lindex := starterChar - hangulLBase
  let vindex := currentChar - hangulVBase
  if lindex ≥ 0 ∧ lindex < hangulLCount ∧ vindex ≥ 0 ∧ vindex < hangulVCount then
    .ok (some (hangulSBase + (lindex * hangulVCount + vindex) * hangulTCount), none)
  else
    let sindex := starterChar - hangulSBase
    let tindex := currentChar - hangulTBase
    if sindex ≥ 0 ∧ sindex < hangulSCount ∧ sindex % hangulTCount = 0 ∧
        tindex > 0 ∧ tindex < hangulTCount then
      .ok (some (starterChar + tindex), none)
    else do
      let property ← match starterProperty with
        | some property => .ok property
        | none => unsafeGetProperty t starterChar
      let idx := property.combIndex.val
      if idx < 0x3FF ∧ currentProperty.combIssecond then
        let len := property.combLength.val
        let maxSecond := t.combinationsSecond (idx + len - 1)
        if currentChar ≤ maxSecond then
          match searchSecond t idx currentChar len 0 with
          | some composition => .ok (some composition, none)
          | none => .ok (none, some property)
        else .ok (none, some property)
      else .ok (none, some property)

/-- `starter` is null or an offset into the buffer. -/
structure ComposeState where
  rpos : ℕ
  wpos : ℕ
  buffer : List ℤ
  starter : Option ℕ
  starterProperty : Option Utf8procProperty
  maxCombiningClass : ℤ

/-- The attempt to combine with the starter. Tells whether the current code point is gone. -/
def tryCombine (t : Utf8procData) (currentChar : ℤ) (currentProperty : Utf8procProperty)
    (s : ComposeState) : Exec (Bool × ComposeState) :=
  match s.starter with
  | none => .ok (false, s)
  | some starter =>
    if currentProperty.combiningClass > s.maxCombiningClass then do
      let starterChar ← load s.buffer starter
      let (composition, starterProperty) ←
        combine t starterChar s.starterProperty currentChar currentProperty
      match composition with
      | some composition => do
        let buffer ← store s.buffer starter composition
        .ok (true, { s with buffer := buffer, starterProperty := starterProperty })
      | none => .ok (false, { s with starterProperty := starterProperty })
    else .ok (false, s)

def composeBody (t : Utf8procData) (length : ℤ) (s : ComposeState) :
    Exec (Step ComposeState (ℤ × List ℤ)) :=
  if s.rpos < length then do
    let currentChar ← load s.buffer s.rpos
    if currentChar < 0 then .ok (.next { s with rpos := s.rpos + 1 })
    else do
      let currentProperty ← unsafeGetProperty t currentChar
      let (combined, s) ← tryCombine t currentChar currentProperty s
      if combined then .ok (.next { s with rpos := s.rpos + 1 })
      else do
        let buffer ← store s.buffer s.wpos currentChar
        if currentProperty.combiningClass ≠ 0 then
          .ok (.next { s with
            rpos := s.rpos + 1
            wpos := s.wpos + 1
            buffer := buffer
            maxCombiningClass :=
              if currentProperty.combiningClass > s.maxCombiningClass then
                currentProperty.combiningClass
              else s.maxCombiningClass })
        else
          .ok (.next {
            rpos := s.rpos + 1
            wpos := s.wpos + 1
            buffer := buffer
            starter := some s.wpos
            starterProperty := none
            maxCombiningClass := -1 })
  else .ok (.done (s.wpos, s.buffer))

/-- `utf8proc_normalize_utf32`: the new length and the buffer. -/
def utf8procNormalizeUtf32 (t : Utf8procData) (buffer : List ℤ) (length : ℤ)
    (options : Utf8procOption) : Exec (ℤ × List ℤ) := do
  let (length, buffer) ←
    if hasOption options (utf8procNlf2ls ||| utf8procNlf2ps ||| utf8procStripcc) then
      run (nlfBody length options) (length.toNat + 1) { rpos := 0, wpos := 0, buffer := buffer }
    else .ok (length, buffer)
  if hasOption options utf8procCompose then
    run (composeBody t length) (length.toNat + 1)
      { rpos := 0, wpos := 0, buffer := buffer, starter := none, starterProperty := none,
        maxCombiningClass := -1 }
  else .ok (length, buffer)

end LeoUTF8.EngineCompose
