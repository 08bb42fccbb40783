import LeoUTF8.EngineMap
import LeoUTF8.LineCutting

set_option autoImplicit false

/-!
# The functions of LeoUTF8Core

A pointer argument is `none` when it is null. An output pointer that is not null
carries what it points to, so a function returns the outputs after the call.
-/
namespace LeoUTF8.CoreFunctions
open BoundedLoop HeapBlocks EngineTables EngineCodec EngineMap

inductive LeoUTF8Status where
  | ok
  | invalid
  | noMemory
  | error
  deriving DecidableEq, Repr

def leoUTF8StatusFromUtf8proc (rc : ℤ) : LeoUTF8Status :=
  if rc ≥ 0 then .ok
  else if rc = utf8procErrorNomem then .noMemory
  else if rc = utf8procErrorInvalidutf8 then .invalid
  else .error

/-- The status and `*utf8Length`. -/
def leoUTF8ToUtf8procLength (pf : Platform) (length : ℕ) (utf8Length : Option ℤ) :
    LeoUTF8Status × Option ℤ :=
  match utf8Length with
  | none => (.invalid, none)
  | some old => if length > pf.longMax then (.error, some old) else (.ok, some length)

/-- `*out` and `*outLen`. -/
structure Outputs where
  out : Option (Option Address)
  outLen : Option ℕ
  deriving DecidableEq

/-- `*out = value` for an `out` that is not null. -/
def Outputs.setOut (o : Outputs) (value : Option Address) : Outputs :=
  { o with out := o.out.map fun _ => value }

/-- `if (outLen != 0) *outLen = value` -/
def Outputs.setOutLen (o : Outputs) (value : ℕ) : Outputs :=
  { o with outLen := o.outLen.map fun _ => value }

def leoUTF8MapBytes (rt : Runtime) (heap : Heap) (bytes : Option (List UInt8)) (length : ℕ)
    (options : Utf8procOption) (o : Outputs) : Exec (LeoUTF8Status × Outputs × Heap) :=
  if o.out = none then .ok (.invalid, o, heap)
  else
    let o := (o.setOut none).setOutLen 0
    match bytes with
    | none => .ok (.invalid, o, heap)
    | some mem =>
      match leoUTF8ToUtf8procLength rt.platform length (some 0) with
      | (.ok, some utf8Length) => do
        let (rc, mapped, heap) ← utf8procMap rt heap mem utf8Length options
        if rc < 0 then .ok (leoUTF8StatusFromUtf8proc rc, o, heap)
        else .ok (.ok, (o.setOut mapped).setOutLen rc.toNat, heap)
      | (status, _) => .ok (status, o, heap)

def leoUTF8StatusMessage (status : LeoUTF8Status) : String :=
  match status with
  | .ok => "OK"
  | .invalid => "Invalid UTF-8"
  | .noMemory => "Out of memory"
  | .error => "LeoUTF8 error"

structure ScanPosition where
  p : ℕ
  remaining : ℤ

def validateBody (mem : List UInt8) (s : ScanPosition) : Exec (Step ScanPosition LeoUTF8Status) :=
  if s.remaining > 0 then do
    let (step, _) ← utf8procIterate mem s.p s.remaining
    if step < 0 then .ok (.done (leoUTF8StatusFromUtf8proc step))
    else if step = 0 then .ok (.done .error)
    else .ok (.next { p := s.p + step.toNat, remaining := s.remaining - step })
  else .ok (.done .ok)

def leoUTF8ValidateBytes (pf : Platform) (bytes : Option (List UInt8)) (length : ℕ) :
    Exec LeoUTF8Status :=
  match bytes with
  | none => .ok .invalid
  | some mem =>
    match leoUTF8ToUtf8procLength pf length (some 0) with
    | (.ok, some remaining) =>
      run (validateBody mem) (length + 1) { p := 0, remaining := remaining }
    | (status, _) => .ok status

structure CountPosition where
  p : ℕ
  remaining : ℤ
  localCount : ℕ

/-- The loop ends with a status and, if that is `ok`, the count to store. -/
def countBody (mem : List UInt8) (s : CountPosition) :
    Exec (Step CountPosition (LeoUTF8Status × Option ℕ)) :=
  if s.remaining > 0 then do
    let (step, _) ← utf8procIterate mem s.p s.remaining
    if step < 0 then .ok (.done (leoUTF8StatusFromUtf8proc step, none))
    else if step = 0 then .ok (.done (.error, none))
    else .ok (.next
      { p := s.p + step.toNat, remaining := s.remaining - step, localCount := s.localCount + 1 })
  else .ok (.done (.ok, some s.localCount))

/-- The status and `*count`. -/
def leoUTF8CodepointCountBytes (pf : Platform) (bytes : Option (List UInt8)) (length : ℕ)
    (count : Option ℕ) : Exec (LeoUTF8Status × Option ℕ) :=
  match bytes, count with
  | none, _ | _, none => .ok (.invalid, count)
  | some mem, some old =>
    match leoUTF8ToUtf8procLength pf length (some 0) with
    | (.ok, some remaining) => do
      let (status, localCount) ←
        run (countBody mem) (length + 1) { p := 0, remaining := remaining, localCount := 0 }
      .ok (status, some (localCount.getD old))
    | (status, _) => .ok (status, some old)

def leoUTF8NormalizeNFCBytes (rt : Runtime) (heap : Heap) (bytes : Option (List UInt8))
    (length : ℕ) (o : Outputs) : Exec (LeoUTF8Status × Outputs × Heap) :=
  leoUTF8MapBytes rt heap bytes length (utf8procStable ||| utf8procCompose) o

def leoUTF8NormalizeNFDBytes (rt : Runtime) (heap : Heap) (bytes : Option (List UInt8))
    (length : ℕ) (o : Outputs) : Exec (LeoUTF8Status × Outputs × Heap) :=
  leoUTF8MapBytes rt heap bytes length (utf8procStable ||| utf8procDecompose) o

def leoUTF8CaseFoldBytes (rt : Runtime) (heap : Heap) (bytes : Option (List UInt8))
    (length : ℕ) (o : Outputs) : Exec (LeoUTF8Status × Outputs × Heap) :=
  leoUTF8MapBytes rt heap bytes length (utf8procStable ||| utf8procCasefold) o

/-- The position of the first NUL; without one the object is read past its end. -/
def strlen (text : List UInt8) : Exec ℕ :=
  match text.idxOf? 0 with
  | some n => .ok n
  | none => .error .read

theorem strlen_append_nul {text : List UInt8} (h : 0 ∉ text) (rest : List UInt8) :
    strlen (text ++ 0 :: rest) = .ok text.length := by
  rw [strlen, LineCutting.idxOf?_line h]

theorem strlen_of_mem {mem : List UInt8} (h : 0 ∈ mem) :
    ∃ n ≤ mem.length, strlen mem = .ok n := by
  obtain ⟨text, rest, rfl, htext⟩ := List.eq_append_cons_of_mem h
  exact ⟨text.length, by simp, strlen_append_nul htext rest⟩

def leoUTF8Validate (pf : Platform) (text : Option (List UInt8)) : Exec LeoUTF8Status :=
  match text with
  | none => .ok .invalid
  | some mem => do leoUTF8ValidateBytes pf text (← strlen mem)

def leoUTF8CodepointCount (pf : Platform) (text : Option (List UInt8)) (count : Option ℕ) :
    Exec (LeoUTF8Status × Option ℕ) :=
  match text with
  | none => .ok (.invalid, count)
  | some mem => do leoUTF8CodepointCountBytes pf text (← strlen mem) count

def leoUTF8NormalizeNFC (rt : Runtime) (heap : Heap) (text : Option (List UInt8)) (o : Outputs) :
    Exec (LeoUTF8Status × Outputs × Heap) :=
  match text with
  | none => .ok (.invalid, o, heap)
  | some mem => do leoUTF8NormalizeNFCBytes rt heap text (← strlen mem) o

def leoUTF8NormalizeNFD (rt : Runtime) (heap : Heap) (text : Option (List UInt8)) (o : Outputs) :
    Exec (LeoUTF8Status × Outputs × Heap) :=
  match text with
  | none => .ok (.invalid, o, heap)
  | some mem => do leoUTF8NormalizeNFDBytes rt heap text (← strlen mem) o

def leoUTF8CaseFold (rt : Runtime) (heap : Heap) (text : Option (List UInt8)) (o : Outputs) :
    Exec (LeoUTF8Status × Outputs × Heap) :=
  match text with
  | none => .ok (.invalid, o, heap)
  | some mem => do leoUTF8CaseFoldBytes rt heap text (← strlen mem) o

def leoUTF8Free (heap : Heap) (text : Option Address) : Heap :=
  match text with
  | none => heap
  | some a => heap.free a

end LeoUTF8.CoreFunctions
