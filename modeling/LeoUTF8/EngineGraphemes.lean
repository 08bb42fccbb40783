import LeoUTF8.EngineTables

set_option autoImplicit false

/-! # The grapheme break rules of utf8proc, used with `UTF8PROC_CHARBOUND` only -/
namespace LeoUTF8.EngineGraphemes

def boundclassStart : ℕ := 0
def boundclassOther : ℕ := 1
def boundclassCr : ℕ := 2
def boundclassLf : ℕ := 3
def boundclassControl : ℕ := 4
def boundclassExtend : ℕ := 5
def boundclassL : ℕ := 6
def boundclassV : ℕ := 7
def boundclassT : ℕ := 8
def boundclassLv : ℕ := 9
def boundclassLvt : ℕ := 10
def boundclassRegionalIndicator : ℕ := 11
def boundclassSpacingmark : ℕ := 12
def boundclassPrepend : ℕ := 13
def boundclassZwj : ℕ := 14
def boundclassExtendedPictographic : ℕ := 19
def boundclassEZwg : ℕ := 20

def indicConjunctBreakNone : ℕ := 0
def indicConjunctBreakLinker : ℕ := 1
def indicConjunctBreakConsonant : ℕ := 2
def indicConjunctBreakExtend : ℕ := 3

def graphemeBreakSimple (lbc tbc : ℕ) : Bool :=
  if lbc = boundclassStart then true
  else if lbc = boundclassCr ∧ tbc = boundclassLf then false
  else if boundclassCr ≤ lbc ∧ lbc ≤ boundclassControl then true
  else if boundclassCr ≤ tbc ∧ tbc ≤ boundclassControl then true
  else if lbc = boundclassL ∧ (tbc = boundclassL ∨ tbc = boundclassV ∨ tbc = boundclassLv ∨
      tbc = boundclassLvt) then false
  else if (lbc = boundclassLv ∨ lbc = boundclassV) ∧ (tbc = boundclassV ∨ tbc = boundclassT) then
    false
  else if (lbc = boundclassLvt ∨ lbc = boundclassT) ∧ tbc = boundclassT then false
  else if tbc = boundclassExtend ∨ tbc = boundclassZwj ∨ tbc = boundclassSpacingmark ∨
      lbc = boundclassPrepend then false
  else if lbc = boundclassEZwg ∧ tbc = boundclassExtendedPictographic then false
  else if lbc = boundclassRegionalIndicator ∧ tbc = boundclassRegionalIndicator then false
  else true

/-- The result and the new `*state`, whose first byte is a bound class and whose second byte
is an indic conjunct break. -/
def graphemeBreakExtended (lbc tbc licb ticb state : ℕ) : Bool × ℕ :=
  let stateBc := if state = 0 then lbc else state &&& 0xff
  let stateIcb :=
    if state = 0 then
      if licb = indicConjunctBreakConsonant then licb else indicConjunctBreakNone
    else state >>> 8
  let breakPermitted := graphemeBreakSimple stateBc tbc &&
    !(stateIcb == indicConjunctBreakLinker && ticb == indicConjunctBreakConsonant)
  let nextIcb :=
    if ticb = indicConjunctBreakConsonant ∨ stateIcb = indicConjunctBreakConsonant ∨
        stateIcb = indicConjunctBreakExtend then ticb
    else if stateIcb = indicConjunctBreakLinker then
      if ticb = indicConjunctBreakExtend then indicConjunctBreakLinker else ticb
    else stateIcb
  let nextBc :=
    if stateBc = tbc ∧ tbc = boundclassRegionalIndicator then boundclassOther
    else if stateBc = boundclassExtendedPictographic then
      if tbc = boundclassExtend then boundclassExtendedPictographic
      else if tbc = boundclassZwj then boundclassEZwg
      else tbc
    else tbc
  (breakPermitted, nextBc + nextIcb <<< 8)

end LeoUTF8.EngineGraphemes
