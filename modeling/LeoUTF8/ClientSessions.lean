import LeoUTF8.NulTerminatedMaps
import LeoUTF8.SplitHeaps

set_option autoImplicit false

/-!
# Sessions of a client

A client calls the transforms and `utf8proc_map_custom` in any order, passes them text of its own
or blocks that earlier calls returned, writes into such blocks and frees them.
-/
namespace LeoUTF8.ClientSessions
open BoundedLoop HeapBlocks ScalarEncoding EngineTables EngineMap EngineInterface CoreFunctions
open CodePointMapping MapCorrectness OptionMapping OptionPass OptionEncoding OptionMaps
open FailureOutputs NulTerminatedMaps SplitHeaps

/-- What a pointer to text points to. -/
inductive Text where
  | memory (mem : List UInt8)
  | block (a : Address)

def Text.read (heap : Heap) : Text → Exec (List UInt8)
  | .memory mem => .ok mem
  | .block a =>
    match heap a with
    | some mem => .ok mem
    | none => .error .read

/-- What an argument that may be null points to. -/
def readInput (heap : Heap) : Option Text → Exec (Option (List UInt8))
  | none => .ok none
  | some text => text.read heap >>= fun mem => .ok (some mem)

inductive Act where
  | transform (e : EntryPoint) (text : Option Text) (o : Outputs)
  | map (text : Text) (strlen : ℤ) (options : Utf8procOption) (customFunc : Option (ℤ → ℤ))
  | store (a : Address) (block : List UInt8)
  | free (ptr : Option Address)

inductive Reply where
  | transformed (status : LeoUTF8Status) (o : Outputs)
  | mapped (rc : ℤ) (ptr : Option Address)
  | done

/-- The block that the client is given. The outputs of a failed transform are not to be used. -/
def Reply.pointer : Reply → Option Address
  | .transformed .ok o => o.out.join
  | .transformed _ _ => none
  | .mapped _ ptr => ptr
  | .done => none

/-- To write into a block or to free it when it is not live is a fault. -/
def perform (rt : Runtime) (heap : Heap) : Act → Exec (Reply × Heap)
  | .transform e text o => do
    let input ← readInput heap text
    let (status, o, heap) ← e.call rt heap input o
    .ok (.transformed status o, heap)
  | .map text strlen options customFunc => do
    let mem ← text.read heap
    let (rc, ptr, heap) ← utf8procMapCustom rt heap mem strlen options customFunc
    .ok (.mapped rc ptr, heap)
  | .store a block =>
    match heap a with
    | none => .error .write
    | some old => if old.length = block.length then .ok (.done, heap.put a block) else .error .write
  | .free none => .ok (.done, leoUTF8Free heap none)
  | .free (some a) =>
    match heap a with
    | none => .error .write
    | some _ => .ok (.done, leoUTF8Free heap (some a))

/-- What the client holds when it is given a block. -/
def received (held heap : Heap) : Option Address → Heap
  | none => held
  | some a => Function.update held a (heap a)

/-- What the client holds after an act that made `heap` of the heap. -/
def account (held heap : Heap) (act : Act) (reply : Reply) : Heap :=
  match act with
  | .transform _ _ _ | .map _ _ _ _ => received held heap reply.pointer
  | .store a block => held.put a block
  | .free none => held
  | .free (some a) => held.free a

/-- The acts of a client that uses its own memory and the blocks that it holds. -/
def Allowed (held : Heap) : Act → Prop
  | .transform e text _ => ∃ input, readInput held text = .ok input ∧ e.Readable input
  | .map text strlen options _ => ∃ mem, text.read held = .ok mem ∧ Readable options mem strlen
  | .store a block => ∃ old, held a = some old ∧ old.length = block.length
  | .free ptr => ∀ a, ptr = some a → held a ≠ none

/-- The text of a call of a transform. -/
def textGiven (e : EntryPoint) (mem : List UInt8) : List UInt8 :=
  match e with
  | .bytes _ length => mem.take length
  | .text _ => mem.takeWhile (· ≠ 0)

def optionsGiven : EntryPoint → Utf8procOption
  | .bytes T _ => T.options
  | .text T => T.options

/-- What is delivered for an act, if anything is. -/
def delivery (t : Utf8procData) (held : Heap) : Act → Exec (List UInt8)
  | .transform e (some text) _ => text.read held >>= fun mem =>
      .ok (mappedBytes t (optionsGiven e) none (textGiven e mem))
  | .map text strlen options customFunc => text.read held >>= fun mem =>
      .ok (mappedBytes t options customFunc (inputText options mem strlen))
  | _ => .ok []

/-- The sessions that begin with the heap `start`: what the client holds, and the heap. -/
inductive Session (rt : Runtime) (start : Heap) : Heap → Heap → Prop where
  | begin : Session rt start (fun _ => none) start
  | act {held heap after : Heap} {act : Act} {reply : Reply} (h : Session rt start held heap)
      (allowed : Allowed held act) (hperform : perform rt heap act = .ok (reply, after)) :
      Session rt start (account held after act reply) after

/-- A call gives the client nothing and leaves the heap alone, or a new block with `bytes`. -/
def Settled (heap after : Heap) (ptr : Option Address) (bytes : List UInt8) : Prop :=
  (ptr = none ∧ after = heap) ∨
    ∃ a block, ptr = some a ∧ Owned heap after a block ∧ (bytes ++ [0]) <+: block

theorem Text.read_of_held {s : Split Address (List UInt8)} {text : Text} {mem : List UInt8}
    (h : text.read s.held = .ok mem) : text.read s.whole = .ok mem := by
  cases text with
  | memory _ => exact h
  | block a =>
    cases hheld : s.held a with
    | none =>
      rw [Text.read, hheld] at h
      cases h
    | some mem' =>
      rw [Text.read, hheld] at h
      rw [Text.read, Split.whole_of_held hheld]
      exact h

theorem entryPoint_null (e : EntryPoint) (rt : Runtime) (heap : Heap) (o : Outputs) :
    ∃ status o', e.call rt heap none o = .ok (status, o', heap) ∧
      (Reply.transformed status o').pointer = none := by
  cases e with
  | bytes T length =>
    change ∃ status o', bytesFunction T rt heap none length o = _ ∧ _
    rw [bytesFunction_eq, leoUTF8MapBytes]
    split_ifs
    · exact ⟨.invalid, o, rfl, rfl⟩
    · exact ⟨.invalid, _, rfl, rfl⟩
  | text T => exact ⟨.invalid, o, textFunction_none T rt heap o, rfl⟩

section Calls

variable {rt : Runtime} (tables : OptionTables rt.data)
include tables

theorem map_settles {options : Utf8procOption} {mem : List UInt8} {strlen : ℤ}
    (readable : Readable options mem strlen) (customFunc : Option (ℤ → ℤ)) (heap : Heap) :
    ∃ rc ptr after, utf8procMapCustom rt heap mem strlen options customFunc = .ok (rc, ptr, after) ∧
      (rc < 0 ↔ ptr = none) ∧
      Settled heap after ptr (mappedBytes rt.data options customFunc
        (inputText options mem strlen)) := by
  obtain ⟨⟨rc, ptr, after⟩, hr, houtcome⟩ :=
    utf8procMapCustom_outcome tables readable heap customFunc
  refine ⟨rc, ptr, after, hr, ?_⟩
  rcases houtcome.null_or_owned with ⟨hneg, rfl, rfl⟩ | ⟨a, _, hrc, rfl, _⟩
  · exact ⟨iff_of_true hneg rfl, Or.inl ⟨rfl, rfl⟩⟩
  · obtain ⟨block, _, hdelivered, _⟩ := houtcome.delivered rfl
    exact ⟨iff_of_false (by omega) (Option.some_ne_none a),
      Or.inr ⟨a, block, rfl, hdelivered.owned, hdelivered.holds⟩⟩

theorem bytesFunction_settles (T : Transform) {mem : List UInt8} {length : ℕ}
    (hread : length ≤ mem.length) (o : Outputs) (heap : Heap) :
    ∃ status o' after, bytesFunction T rt heap (some mem) length o = .ok (status, o', after) ∧
      Settled heap after (Reply.transformed status o').pointer
        (mappedBytes rt.data T.options none (mem.take length)) := by
  by_cases hout : o.out = none
  · exact ⟨_, _, _, bytesFunction_out_none hout, Or.inl ⟨rfl, rfl⟩⟩
  by_cases hmax : length ≤ rt.platform.longMax
  · have hnull : ¬ hasOption T.options utf8procNullterm = true := by
      rw [T.hasOption_inactive utf8procNullterm (by simp)]
      exact Bool.false_ne_true
    have readable : Readable T.options mem length := by
      rw [Readable, if_neg hnull]
      simpa using hread
    obtain ⟨rc, ptr, after, hmap, hptr, hsettled⟩ := map_settles tables readable none heap
    rw [inputText, if_neg hnull, Int.toNat_natCast] at hsettled
    have hcall := leoUTF8MapBytes_of_map hmax hout hmap
    rw [← bytesFunction_eq] at hcall
    obtain ⟨value, hvalue⟩ := Option.ne_none_iff_exists'.mp hout
    by_cases hneg : rc < 0
    · rw [if_pos hneg] at hcall
      refine ⟨_, _, _, hcall, Or.inl ⟨?_, ?_⟩⟩
      · have hfailed := leoUTF8StatusFromUtf8proc_ne_ok hneg
        cases hstatus : leoUTF8StatusFromUtf8proc rc with
        | ok => exact absurd hstatus hfailed
        | _ => rfl
      · obtain rfl := hptr.mp hneg
        rcases hsettled with ⟨_, h⟩ | ⟨_, _, h, _⟩
        · exact h
        · cases h
    · rw [if_neg hneg] at hcall
      refine ⟨_, _, _, hcall, ?_⟩
      have hpointer :
          (Reply.transformed .ok ((o.setOut ptr).setOutLen rc.toNat)).pointer = ptr := by
        simp [Reply.pointer, Outputs.setOut, Outputs.setOutLen, hvalue]
      rw [hpointer]
      exact hsettled
  · refine ⟨.error, cleared o, heap, ?_, Or.inl ⟨rfl, rfl⟩⟩
    rw [bytesFunction_eq, leoUTF8MapBytes, if_neg hout]
    simp only [leoUTF8ToUtf8procLength, if_pos (show length > rt.platform.longMax by omega)]
    rfl

theorem entryPoint_settles (e : EntryPoint) {mem : List UInt8} (hread : e.Readable (some mem))
    (o : Outputs) (heap : Heap) :
    ∃ status o' after, e.call rt heap (some mem) o = .ok (status, o', after) ∧
      Settled heap after (Reply.transformed status o').pointer
        (mappedBytes rt.data (optionsGiven e) none (textGiven e mem)) := by
  cases e with
  | bytes T length => exact bytesFunction_settles tables T (hread mem rfl) o heap
  | text T =>
    obtain ⟨text, behind, rfl, htext⟩ := List.eq_append_cons_of_mem (hread mem rfl)
    have htake : (text ++ 0 :: behind).take text.length =
        (text ++ 0 :: behind).takeWhile (· ≠ 0) := by
      rw [List.take_left, LineCutting.takeWhile_line htext]
    have hcall : (EntryPoint.text T).call rt heap (some (text ++ 0 :: behind)) o =
        bytesFunction T rt heap (some (text ++ 0 :: behind)) text.length o := by
      change textFunction T rt heap _ o = _
      rw [textFunction_some, strlen_append_nul htext, ok_bind]
    obtain ⟨status, o', after, hbytes, hsettled⟩ := @bytesFunction_settles rt tables T
      (text ++ 0 :: behind) text.length (by simp) o heap
    rw [htake] at hsettled
    exact ⟨status, o', after, hcall.trans hbytes, hsettled⟩

end Calls

/-- The client takes what a call gives it. -/
theorem split_of_settled {s : Split Address (List UInt8)} {after : Heap} {ptr : Option Address}
    {bytes : List UInt8} (h : Settled s.whole after ptr bytes) :
    ∃ s' : Split Address (List UInt8), s'.rest = s.rest ∧ s'.whole = after ∧
      s'.held = received s.held after ptr := by
  rcases h with ⟨rfl, rfl⟩ | ⟨a, block, rfl, howned, _⟩
  · exact ⟨s, rfl, rfl, rfl⟩
  · have hrest := (Split.fresh howned.1).2
    refine ⟨s.update a (some block) hrest, rfl, ?_, ?_⟩
    · rw [Split.whole_update, howned.2]
      rfl
    · rw [received, howned.live]
      rfl

theorem Settled.delivers {heap after : Heap} {ptr : Option Address} {bytes : List UInt8}
    (h : Settled heap after ptr bytes) {a : Address} (ha : ptr = some a) :
    heap a = none ∧ ∃ block, after a = some block ∧ (bytes ++ [0]) <+: block := by
  rcases h with ⟨hnone, _⟩ | ⟨b, block, hb, howned, hholds⟩
  · rw [hnone] at ha
    cases ha
  · rw [hb] at ha
    obtain rfl := Option.some.inj ha
    exact ⟨howned.1, block, howned.live, hholds⟩

/-- An allowed act does not fault. It gives the client what it delivers in a new block, and
changes nothing but what the client holds. -/
theorem perform_spec {rt : Runtime} (tables : OptionTables rt.data)
    (s : Split Address (List UInt8)) {act : Act} (allowed : Allowed s.held act) :
    ∃ reply after bytes, perform rt s.whole act = .ok (reply, after) ∧
      delivery rt.data s.held act = .ok bytes ∧
      (∀ a, reply.pointer = some a → s.whole a = none ∧
        ∃ block, after a = some block ∧ (bytes ++ [0]) <+: block) ∧
      ∃ s' : Split Address (List UInt8), s'.rest = s.rest ∧ s'.whole = after ∧
        s'.held = account s.held after act reply := by
  cases act with
  | transform e text o =>
    obtain ⟨input, hinput, hread⟩ := allowed
    cases text with
    | none =>
      obtain rfl : none = input := Except.ok.inj hinput
      obtain ⟨status, o', hcall, hpointer⟩ := entryPoint_null e rt s.whole o
      refine ⟨.transformed status o', s.whole, [], ?_, rfl, ?_, s, rfl, rfl, ?_⟩
      · rw [perform, readInput, ok_bind, hcall]
        rfl
      · intro a ha
        rw [hpointer] at ha
        cases ha
      · rw [account, hpointer, received]
    | some text =>
      obtain ⟨mem, hmem, hinput⟩ := bind_eq_ok hinput
      obtain rfl := Except.ok.inj hinput
      obtain ⟨status, o', after, hcall, hsettled⟩ :=
        entryPoint_settles tables e hread o s.whole
      refine ⟨.transformed status o', after, _, ?_, ?_, fun a => hsettled.delivers,
        split_of_settled hsettled⟩
      · rw [perform, readInput, Text.read_of_held hmem, ok_bind, ok_bind, hcall]
        rfl
      · rw [delivery, hmem]
        rfl
  | map text strlen options customFunc =>
    obtain ⟨mem, hmem, readable⟩ := allowed
    obtain ⟨rc, ptr, after, hcall, _, hsettled⟩ :=
      map_settles tables readable customFunc s.whole
    refine ⟨.mapped rc ptr, after, _, ?_, ?_, fun a => hsettled.delivers,
      split_of_settled hsettled⟩
    · rw [perform, Text.read_of_held hmem, ok_bind, hcall]
      rfl
    · rw [delivery, hmem]
      rfl
  | store a block =>
    obtain ⟨old, hold, hlength⟩ := allowed
    have hrest := Split.rest_of_held (hold ▸ Option.some_ne_none old)
    refine ⟨.done, Heap.put s.whole a block, [], ?_, rfl, fun b hb => (by cases hb),
      s.update a (some block) hrest, rfl, Split.whole_update s _ hrest, rfl⟩
    rw [perform, Split.whole_of_held hold]
    dsimp only
    rw [if_pos hlength]
  | free ptr =>
    cases ptr with
    | none =>
      exact ⟨.done, s.whole, [], rfl, rfl, fun b hb => (by cases hb), s, rfl, rfl, rfl⟩
    | some a =>
      obtain ⟨old, hold⟩ := Option.ne_none_iff_exists'.mp (allowed a rfl)
      have hrest := Split.rest_of_held (allowed a rfl)
      refine ⟨.done, Heap.free s.whole a, [], ?_, rfl, fun b hb => (by cases hb),
        s.update a none hrest, rfl, Split.whole_update s _ hrest, rfl⟩
      rw [perform, Split.whole_of_held hold]
      rfl

/-- In a session the heap is split into what the client holds and what was there before. -/
theorem Session.split {rt : Runtime} (tables : OptionTables rt.data) {start held heap : Heap}
    (h : Session rt start held heap) :
    ∃ s : Split Address (List UInt8), s.rest = start ∧ s.held = held ∧ s.whole = heap := by
  induction h with
  | begin => exact ⟨Split.bare start, rfl, rfl, Split.whole_bare start⟩
  | act h allowed hperform ih =>
    obtain ⟨s, hrest, rfl, rfl⟩ := ih
    obtain ⟨reply, after, bytes, hspec, _, _, s', hrest', hwhole, hheld⟩ :=
      perform_spec tables s allowed
    rw [hperform] at hspec
    obtain ⟨rfl, rfl⟩ := Prod.mk.inj (Except.ok.inj hspec)
    exact ⟨s', hrest'.trans hrest, hheld, hwhole⟩

/-- Whatever a client does in whatever order, what it holds stays as it was delivered or as the
client last wrote it, and nothing else in the heap changes. No act faults. What a call delivers
is in a new block and depends on its text and options only. A client that has freed all it held
leaves the heap as it found it. -/
theorem session_safe {rt : Runtime} (tables : OptionTables rt.data) {start held heap : Heap}
    (h : Session rt start held heap) :
    (∀ a, held a = none ∨ start a = none) ∧ (∀ a, heap a = (held a).or (start a)) ∧
      ((∀ a, held a = none) → heap = start) ∧
      ∀ act, Allowed held act → ∃ reply after bytes, perform rt heap act = .ok (reply, after) ∧
        delivery rt.data held act = .ok bytes ∧
        ∀ a, reply.pointer = some a → heap a = none ∧
          ∃ block, after a = some block ∧ (bytes ++ [0]) <+: block := by
  obtain ⟨s, rfl, rfl, rfl⟩ := h.split tables
  refine ⟨s.disjoint, fun _ => rfl, Split.whole_of_nothing, ?_⟩
  intro act allowed
  obtain ⟨reply, after, bytes, hperform, hdelivery, hpointer, _⟩ := perform_spec tables s allowed
  exact ⟨reply, after, bytes, hperform, hdelivery, hpointer⟩

/-- A session of one call, in which the client may pass the block on or free it. -/
theorem session_safe_acute :
    ∃ (held heap : Heap) (a : Address), Session smallRuntime (fun _ => none) held heap ∧
      held a ≠ none ∧ (∀ b, heap b = (held b).or none) ∧
      ∃ reply after, perform smallRuntime heap (.free (some a)) = .ok (reply, after) := by
  have tables : OptionTables smallRuntime.data := acute_optionTables
  have readable : Readable utf8procCompose [0x65, 0xCC, 0x81] 3 := by decide
  obtain ⟨n, a, heap, hcall⟩ := utf8procMapCustom_succeeds tables readable (fun _ => none) none
    (by decide +kernel) (by decide +kernel)
  have hperform : perform smallRuntime (fun _ => none)
      (.map (.memory [0x65, 0xCC, 0x81]) 3 utf8procCompose none) =
      .ok (.mapped n (some a), heap) := by
    rw [perform, Text.read, ok_bind, hcall]
    rfl
  have allowed :
      Allowed (fun _ => none) (.map (.memory [0x65, 0xCC, 0x81]) 3 utf8procCompose none) :=
    ⟨_, rfl, readable⟩
  have hsession : Session smallRuntime (fun _ => none) (received (fun _ => none) heap (some a))
      heap := Session.begin.act allowed hperform
  obtain ⟨_, hheap, _, hacts⟩ := session_safe tables hsession
  have hlive : received (fun _ => none) heap (some a) a ≠ none := by
    obtain ⟨rc, ptr, after, hmap, _, hsettled⟩ := map_settles tables readable none (fun _ => none)
    rw [hcall] at hmap
    obtain ⟨rfl, rfl, rfl⟩ : n = rc ∧ some a = ptr ∧ heap = after := by simpa using hmap
    obtain ⟨_, block, hblock, _⟩ := hsettled.delivers rfl
    rw [received, Function.update_self, hblock]
    exact Option.some_ne_none block
  obtain ⟨reply, after, _, hfree, _⟩ := hacts (.free (some a)) (by
    rintro b hb
    obtain rfl := Option.some.inj hb
    exact hlive)
  exact ⟨_, heap, a, hsession, hlive, hheap, reply, after, hfree⟩

end LeoUTF8.ClientSessions
