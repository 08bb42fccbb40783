import LeoUTF8.FailureOutputs
import LeoUTF8.ProbeVerdicts
import LeoUTF8.TransformStatus

set_option autoImplicit false

/-!
# The validation and transform probes

Both probes read one file whole, hand its bytes to LeoUTF8Core and report in their output and
exit code. What the system does with a file is a parameter; the number of open files is part of
the state, beside the heap.
-/
namespace LeoUTF8.FileProbes
open BoundedLoop CellStorage HeapBlocks ScalarEncoding EngineMap CoreFunctions CodePointMapping
open MapCorrectness RecursiveExpansion ValidatorLanguage FailureOutputs TransformStatus
open ExpectProbe ProbeVerdicts

/-- What the system answers for a file that opens: whether it can be positioned at its end and
then at its start, its size, and the bytes that can be read. -/
structure File where
  seekEnd : Bool
  size : ℤ
  seekStart : Bool
  contents : List UInt8

structure System where
  heap : Heap
  opened : ℕ

def System.fopen (system : System) : System := { system with opened := system.opened + 1 }

def System.fclose (system : System) : System := { system with opened := system.opened - 1 }

@[simp] theorem System.fclose_fopen (system : System) : system.fopen.fclose = system := rfl

/-- The return value, `*outBytes`, `*outLength` and the system. -/
def readFile (alloc : Allocator) (fopen : Path → Option File) (system : System)
    (path : Option Path) (outBytes : Option (Option Address)) (outLength : Option ℕ) :
    Exec (ℤ × Option (Option Address) × Option ℕ × System) :=
  match path, outBytes, outLength with
  | some path, some _, some _ =>
    match fopen path with
    | none => .ok (-1, some none, some 0, system)
    | some file =>
      let system := system.fopen
      if ¬ file.seekEnd then .ok (-1, some none, some 0, system.fclose)
      else if file.size < 0 then .ok (-1, some none, some 0, system.fclose)
      else if ¬ file.seekStart then .ok (-1, some none, some 0, system.fclose)
      else if file.size = 0 then
        match alloc.malloc system.heap 1 with
        | none => .ok (-1, some none, some 0, system.fclose)
        | some buffer =>
          let system := { system with heap := system.heap.put buffer (alloc.fresh 1) }
          .ok (0, some (some buffer), some 0, system.fclose)
      else
        match alloc.malloc system.heap file.size.toNat with
        | none => .ok (-1, some none, some 0, system.fclose)
        | some buffer => do
          let bytesRead := file.contents.take file.size.toNat
          let block ← storeAll (alloc.fresh file.size.toNat) 0 bytesRead
          let system := { system with heap := system.heap.put buffer block }
          if bytesRead.length ≠ file.size.toNat then
            let system := { system with heap := system.heap.free buffer }
            .ok (-1, some none, some 0, system.fclose)
          else .ok (0, some (some buffer), some file.size.toNat, system.fclose)
  | _, _, _ => .ok (-1, outBytes, outLength, system)

structure ProbeExit where
  code : ℕ
  stdout : String
  stderr : String
  system : System

def couldNotRead (system : System) : ProbeExit :=
  { code := 1, stdout := "", stderr := "LEOFUZZ:REJECT could-not-read-input\n", system := system }

/-- `main` of `leofuzz_validate_probe.c`. -/
def validateMain (rt : Runtime) (fopen : Path → Option File) (system : System)
    (argv : List Path) : Exec ProbeExit :=
  match argv with
  | [_, path] => do
    let (rc, bytes, length, system) ←
      readFile rt.allocator fopen system (some path) (some none) (some 0)
    let bytes := bytes.getD none
    let length := length.getD 0
    if rc ≠ 0 then .ok (couldNotRead system)
    else do
      let block ← object system.heap bytes
      let status ← leoUTF8ValidateBytes rt.platform (some block) length
      let system := { system with heap := free system.heap bytes }
      if status = .ok then
        .ok { code := 0
              stdout := "LEOFUZZ:OK valid-utf8 bytes=" ++ toString length ++ "\n"
              stderr := "", system := system }
      else
        .ok { code := 1
              stdout := "LEOFUZZ:REJECT invalid-utf8 status=" ++ leoUTF8StatusMessage status ++
                " bytes=" ++ toString length ++ "\n"
              stderr := "", system := system }
  | _ =>
    .ok { code := 2, stdout := ""
          stderr := "LEOFUZZ:ERROR usage: leoutf8_validate_probe input-file\n", system := system }

/-- `main` of `leofuzz_transform_probe.c`; the mode is the transform whose macro is defined. -/
def transformMain (rt : Runtime) (fopen : Path → Option File) (mode : Option Transform)
    (system : System) (argv : List Path) : Exec ProbeExit :=
  match argv with
  | [_, path] => do
    let (rc, bytes, length, system) ←
      readFile rt.allocator fopen system (some path) (some none) (some 0)
    let bytes := bytes.getD none
    let length := length.getD 0
    if rc ≠ 0 then .ok (couldNotRead system)
    else do
      let block ← object system.heap bytes
      let (status, outputs, heap) ← runTransform rt mode system.heap (some block) length
        { out := some none, outLen := some 0 }
      let out := outputs.out.getD none
      let outLength := outputs.outLen.getD 0
      let heap := free heap bytes
      if status = .ok then
        .ok { code := 0
              stdout := "LEOFUZZ:OK transform=" ++ probeModeName mode ++ " input_bytes=" ++
                toString length ++ " output_bytes=" ++ toString outLength ++ "\n"
              stderr := "", system := { system with heap := leoUTF8Free heap out } }
      else
        .ok { code := 1
              stdout := "LEOFUZZ:REJECT transform=" ++ probeModeName mode ++ " status=" ++
                leoUTF8StatusMessage status ++ " input_bytes=" ++ toString length ++ "\n"
              stderr := "", system := { system with heap := leoUTF8Free heap out } }
  | _ =>
    .ok { code := 2, stdout := ""
          stderr := "LEOFUZZ:ERROR usage: leoutf8_transform_probe input-file\n", system := system }

/-- The file at a path opens, can be positioned, holds as many bytes as it says, and there is
memory for them. -/
structure Loads (alloc : Allocator) (fopen : Path → Option File) (heap : Heap) (path : Path)
    (file : File) (a : Address) : Prop where
  opens : fopen path = some file
  seekEnd : file.seekEnd = true
  seekStart : file.seekStart = true
  nonneg : 0 ≤ file.size
  complete : file.size.toNat ≤ file.contents.length
  memory : alloc.malloc heap (max 1 file.size.toNat) = some a

/-- The bytes of a file up to the size that it says. -/
def File.bytes (file : File) : List UInt8 := file.contents.take file.size.toNat

section Reading

variable {alloc : Allocator} {fopen : Path → Option File} {system : System} {path : Path}

/-- A file that loads is copied into a block, and closed. -/
theorem readFile_loads {file : File} {a : Address}
    (h : Loads alloc fopen system.heap path file a) :
    ∃ block, readFile alloc fopen system (some path) (some none) (some 0) =
        .ok (0, some (some a), some file.bytes.length,
          { system with heap := system.heap.put a block }) ∧
      block.take file.bytes.length = file.bytes ∧ file.bytes.length ≤ block.length := by
  have hlength : file.bytes.length = file.size.toNat := List.length_take_of_le h.complete
  have hnonneg := h.nonneg
  have hmemory := h.memory
  rw [readFile, h.opens]
  simp only [h.seekEnd, h.seekStart, not_true_eq_false, if_false]
  rw [if_neg (by omega), show system.fopen.heap = system.heap from rfl]
  by_cases hempty : file.size = 0
  · have hbytes : file.bytes = [] := by
      rw [File.bytes, hempty]
      rfl
    rw [show max 1 file.size.toNat = 1 by omega] at hmemory
    rw [if_pos hempty, hmemory, hbytes]
    exact ⟨alloc.fresh 1, rfl, rfl, Nat.zero_le _⟩
  · rw [show max 1 file.size.toNat = file.size.toNat by omega] at hmemory
    have hblock : overwrite (alloc.fresh file.size.toNat) 0 file.bytes = file.bytes := by
      rw [overwrite_zero, List.drop_of_length_le (by rw [alloc.fresh_length, hlength]),
        List.append_nil]
    have hstore : storeAll (alloc.fresh file.size.toNat) 0 file.bytes = .ok file.bytes := by
      rw [storeAll, if_pos (by rw [alloc.fresh_length, hlength, Nat.zero_add]), hblock]
    rw [if_neg hempty, hmemory]
    dsimp only
    rw [← File.bytes, hstore, ok_bind, if_neg (not_not_intro hlength), ← hlength]
    exact ⟨file.bytes, rfl, List.take_length, le_rfl⟩

/-- Otherwise nothing is left open or allocated. -/
theorem readFile_unreadable (h : ∀ file a, ¬ Loads alloc fopen system.heap path file a) :
    readFile alloc fopen system (some path) (some none) (some 0) =
      .ok (-1, some none, some 0, system) := by
  rw [readFile]
  dsimp only
  cases hopen : fopen path with
  | none => rfl
  | some file =>
    dsimp only
    rw [System.fclose_fopen, show system.fopen.heap = system.heap from rfl]
    by_cases hend : file.seekEnd = true
    · by_cases hsize : file.size < 0
      · rw [if_neg (not_not_intro hend), if_pos hsize]
      · by_cases hstart : file.seekStart = true
        · rw [if_neg (not_not_intro hend), if_neg hsize, if_neg (not_not_intro hstart)]
          have hloads {a : Address} (hcomplete : file.size.toNat ≤ file.contents.length)
              (hmemory : alloc.malloc system.heap (max 1 file.size.toNat) = some a) : False :=
            h file a ⟨hopen, hend, hstart, by omega, hcomplete, hmemory⟩
          by_cases hempty : file.size = 0
          · rw [if_pos hempty]
            cases hmalloc : alloc.malloc system.heap 1 with
            | none => rfl
            | some a => exact (hloads (by omega) (by rwa [hempty])).elim
          · rw [if_neg hempty]
            cases hmalloc : alloc.malloc system.heap file.size.toNat with
            | none => rfl
            | some a =>
              dsimp only
              have hmemory : alloc.malloc system.heap (max 1 file.size.toNat) = some a := by
                rwa [show max 1 file.size.toNat = file.size.toNat by omega]
              have hshort : file.bytes.length ≠ file.size.toNat := by
                intro hlength
                rw [File.bytes, List.length_take] at hlength
                exact hloads (by omega) hmemory
              have hroom : 0 + file.bytes.length ≤ (alloc.fresh file.size.toNat).length := by
                rw [alloc.fresh_length, File.bytes, List.length_take]
                omega
              rw [← File.bytes, storeAll, if_pos hroom, ok_bind, if_pos hshort,
                Heap.free_put (alloc.malloc_fresh _ _ _ hmalloc)]
              rfl
        · rw [if_neg (not_not_intro hend), if_neg hsize, if_pos hstart]
    · rw [if_pos hend]

end Reading

/-- A file that loads has well-formed bytes, of a length that the engine takes. -/
def GivesText (rt : Runtime) (fopen : Path → Option File) (heap : Heap) (argv : List Path) : Prop :=
  ∃ program path file a, argv = [program, path] ∧ Loads rt.allocator fopen heap path file a ∧
    file.bytes.length ≤ rt.platform.longMax ∧ WellFormed file.bytes

section Verdicts

variable {rt : Runtime} {fopen : Path → Option File} {system : System}

theorem Loads.unique {alloc : Allocator} {heap : Heap} {path : Path} {file file' : File}
    {a a' : Address} (h : Loads alloc fopen heap path file a)
    (h' : Loads alloc fopen heap path file' a') : file = file' := by
  have hopens := h.opens
  rw [h'.opens] at hopens
  exact (Option.some.inj hopens).symm

theorem givesText_of_loads {program path : Path} {file : File} {a : Address}
    (h : Loads rt.allocator fopen system.heap path file a) :
    GivesText rt fopen system.heap [program, path] ↔
      file.bytes.length ≤ rt.platform.longMax ∧ WellFormed file.bytes := by
  constructor
  · rintro ⟨_, _, file', a', hargv, h', htext⟩
    obtain rfl : path = _ := by simpa using congrArg (List.drop 1) hargv
    rwa [h.unique h']
  · exact fun htext => ⟨program, path, file, a, rfl, h, htext⟩

theorem not_givesText_of_unreadable {program path : Path}
    (h : ∀ file a, ¬ Loads rt.allocator fopen system.heap path file a) :
    ¬ GivesText rt fopen system.heap [program, path] := by
  rintro ⟨_, _, file, a, hargv, hloads, _⟩
  obtain rfl : path = _ := by simpa using congrArg (List.drop 1) hargv
  exact h file a hloads

theorem not_givesText_of_usage {argv : List Path} (h : argv.length ≠ 2) :
    ¬ GivesText rt fopen system.heap argv := by
  rintro ⟨_, _, _, _, rfl, _⟩
  exact h rfl

theorem validateMain_usage (rt : Runtime) (fopen : Path → Option File) (system : System)
    {argv : List Path} (h : argv.length ≠ 2) :
    validateMain rt fopen system argv =
      .ok { code := 2, stdout := ""
            stderr := "LEOFUZZ:ERROR usage: leoutf8_validate_probe input-file\n"
            system := system } := by
  unfold validateMain
  split
  · exact absurd rfl h
  · rfl

/-- The validator on a loaded file. -/
theorem validate_loaded (rt : Runtime) {block bytes : List UInt8}
    (htake : block.take bytes.length = bytes)
    (hlen : bytes.length ≤ block.length) :
    ∃ status, leoUTF8ValidateBytes rt.platform (some block) bytes.length = .ok status ∧
      (status = .ok ↔ bytes.length ≤ rt.platform.longMax ∧ WellFormed bytes) := by
  by_cases hmax : bytes.length ≤ rt.platform.longMax
  · refine ⟨_, leoUTF8ValidateBytes_eq hlen hmax, ?_⟩
    rw [htake, validity_eq_ok]
    exact (and_iff_right hmax).symm
  · refine ⟨_, leoUTF8ValidateBytes_long block (by omega), ?_⟩
    exact iff_of_false (by decide) fun h => hmax h.1

end Verdicts

/-- For every system and all arguments the validation probe ends without a fault, with the memory
and the open files as they were. It exits with 0 exactly for a readable file of well-formed
UTF-8, and with 2 exactly if it is not given one path. -/
theorem validate_probe_verdict (rt : Runtime) (fopen : Path → Option File) (system : System)
    (argv : List Path) :
    ∃ exit, validateMain rt fopen system argv = .ok exit ∧ exit.system = system ∧
      exit.code ≤ 2 ∧ (exit.code = 2 ↔ argv.length ≠ 2) ∧
      (exit.code = 0 ↔ GivesText rt fopen system.heap argv) := by
  by_cases hargs : argv.length = 2
  · obtain ⟨program, path, rfl⟩ := List.length_eq_two.mp hargs
    by_cases hloads : ∃ file a, Loads rt.allocator fopen system.heap path file a
    · obtain ⟨file, a, hloads⟩ := hloads
      obtain ⟨block, hread, htake, hlen⟩ := readFile_loads hloads
      obtain ⟨status, hvalidate, hstatus⟩ := validate_loaded rt htake hlen
      have hrestored := Heap.free_put (rt.allocator.malloc_fresh _ _ _ hloads.memory) block
      rw [validateMain, hread, ok_bind]
      dsimp only [Option.getD_some]
      rw [if_neg (not_not_intro rfl), object_eq_ok (Heap.put_self _ _ _), ok_bind, hvalidate,
        ok_bind]
      dsimp only [free]
      rw [hrestored, givesText_of_loads hloads, ← hstatus]
      by_cases hok : status = .ok
      · rw [if_pos hok]
        exact ⟨_, rfl, rfl, by simp, by simp, by simp [hok]⟩
      · rw [if_neg hok]
        exact ⟨_, rfl, rfl, by simp, by simp, by simp [hok]⟩
    · have hnone : ∀ file a, ¬ Loads rt.allocator fopen system.heap path file a :=
        fun file a h => hloads ⟨file, a, h⟩
      rw [validateMain, readFile_unreadable hnone, ok_bind]
      dsimp only
      rw [if_pos (by decide)]
      refine ⟨_, rfl, rfl, by simp [couldNotRead], by simp [couldNotRead], ?_⟩
      exact iff_of_false (by simp [couldNotRead]) (not_givesText_of_unreadable hnone)
  · have husage := validateMain_usage rt fopen system hargs
    exact ⟨_, husage, rfl, le_rfl, by simp [hargs],
      iff_of_false (by simp) (not_givesText_of_usage hargs)⟩

theorem callOutcome_failed {rt : Runtime} {T : Transform} {heap after : Heap} {l : List UInt8}
    {o o' : Outputs} {status : LeoUTF8Status}
    (h : CallOutcome rt heap T l o (status, o', after)) (hstatus : status ≠ .ok) :
    o' = cleared o ∧ after = heap ∧ (WellFormed l → status ≠ .invalid) := by
  unfold CallOutcome at h
  by_cases hover : rt.platform.codepointMax < runningCount rt.data T l
  · rw [if_pos hover] at h
    obtain ⟨rfl, rfl, rfl⟩ : status = _ ∧ o' = _ ∧ after = _ := by simpa using h
    exact ⟨rfl, rfl, fun _ => by decide⟩
  rw [if_neg hover] at h
  by_cases hrest : (decode l).2 = []
  · rw [if_pos hrest] at h
    cases hmalloc : rt.allocator.malloc heap (4 * runningCount rt.data T l + 1) with
    | none =>
      rw [hmalloc] at h
      obtain ⟨rfl, rfl, rfl⟩ : status = _ ∧ o' = _ ∧ after = _ := by simpa using h
      exact ⟨rfl, rfl, fun _ => by decide⟩
    | some _ =>
      rw [hmalloc] at h
      obtain ⟨_, _, _, hr, _⟩ := h
      exact absurd (congrArg Prod.fst hr) hstatus
  · rw [if_neg hrest] at h
    obtain ⟨rfl, rfl, rfl⟩ : status = _ ∧ o' = _ ∧ after = _ := by simpa using h
    exact ⟨rfl, rfl, fun hvalid => absurd (wellFormed_iff_decode.mp hvalid) hrest⟩

/-- The call of the transform probe on a loaded file. -/
theorem runTransform_loaded {rt : Runtime} {mode : Option Transform}
    (terminates : ∀ T, mode = some T → Terminates (entry rt.data T)) (heap : Heap)
    {block bytes : List UInt8} (htake : block.take bytes.length = bytes)
    (hlen : bytes.length ≤ block.length) :
    ∃ status o after, runTransform rt mode heap (some block) bytes.length
        { out := some none, outLen := some 0 } = .ok (status, o, after) ∧
      if status = .ok then
        bytes.length ≤ rt.platform.longMax ∧ WellFormed bytes ∧
          ∃ T b y outBlock, mode = some T ∧ TransformOutput rt.platform rt.data T bytes y ∧
            o = { out := some (some b), outLen := some y.length } ∧ y <+: outBlock ∧
              Owned heap after b outBlock
      else o.out = some none ∧ after = heap ∧ (WellFormed bytes → status ≠ .invalid) := by
  cases mode with
  | none => exact ⟨_, _, _, rfl, rfl, rfl, fun _ => by decide⟩
  | some T =>
    rw [runTransform_some]
    by_cases hmax : bytes.length ≤ rt.platform.longMax
    · obtain ⟨⟨status, o, after⟩, hcall, houtcome⟩ := bytesFunction_outcome heap
        (expandable_decode (terminates T rfl) _) hlen hmax
        (show ({ out := some none, outLen := some 0 } : Outputs).out ≠ none by simp)
      refine ⟨status, o, after, hcall, ?_⟩
      by_cases hstatus : status = .ok
      · subst hstatus
        obtain ⟨a, outBlock, ho, hdelivered⟩ := (bytesFunction_success hlen hcall).delivered
        have hvalid := (bytesFunction_success hlen hcall).valid
        rw [htake] at ho hdelivered hvalid
        obtain rfl : o = { out := some (some a), outLen := some _ } := ho
        rw [if_pos rfl]
        have hholds := (List.prefix_append _ _).trans hdelivered.holds
        refine ⟨hmax, hvalid, T, a, _, outBlock, rfl, ?_, rfl, hholds, hdelivered.owned⟩
        have hprefix : bytes <+: block := by
          rw [← htake]
          exact List.take_prefix _ _
        exact ⟨rt.allocator, heap, after, block, outBlock, none, 0, a, hprefix, hcall,
          hdelivered.owned.live, hholds⟩
      · rw [if_neg hstatus]
        rw [htake] at houtcome
        obtain ⟨rfl, rfl, hvalid⟩ := callOutcome_failed houtcome hstatus
        exact ⟨rfl, rfl, hvalid⟩
    · refine ⟨.error, cleared { out := some none, outLen := some 0 }, heap, ?_, rfl, rfl,
        fun _ => by decide⟩
      rw [bytesFunction_eq, leoUTF8MapBytes, if_neg (by simp)]
      simp only [leoUTF8ToUtf8procLength,
        if_pos (show bytes.length > rt.platform.longMax by omega)]
      rfl

theorem transformMain_usage (rt : Runtime) (fopen : Path → Option File) (mode : Option Transform)
    (system : System) {argv : List Path} (h : argv.length ≠ 2) :
    transformMain rt fopen mode system argv =
      .ok { code := 2, stdout := ""
            stderr := "LEOFUZZ:ERROR usage: leoutf8_transform_probe input-file\n"
            system := system } := by
  unfold transformMain
  split
  · exact absurd rfl h
  · rfl

/-- Freeing the input and the output in this order restores the heap. -/
theorem free_both {heap after : Heap} {a b : Address} {block outBlock : List UInt8}
    (hfresh : heap a = none) (howned : Owned (heap.put a block) after b outBlock) :
    leoUTF8Free (free after (some a)) (some b) = heap := by
  obtain ⟨hb, rfl⟩ := howned
  have hne : b ≠ a := by
    rintro rfl
    rw [Heap.put_self] at hb
    cases hb
  rw [Heap.put_of_ne heap hne] at hb
  have hcomm : free ((heap.put a block).put b outBlock) (some a) = heap.put b outBlock := by
    rw [free, Heap.put, Heap.put, Heap.free, Function.update_comm hne, Function.update_idem,
      ← hfresh, Function.update_eq_self]
    rfl
  rw [hcomm]
  exact Heap.free_put hb outBlock

/-- The transform probe ends without a fault too, and leaves nothing behind. It succeeds only
for files that the validation probe accepts, and reports the length of what the transform makes
of the bytes; where it does not succeed for such a file it never says that the text is invalid. -/
theorem transform_probe_verdict (rt : Runtime) (fopen : Path → Option File)
    (mode : Option Transform) (terminates : ∀ T, mode = some T → Terminates (entry rt.data T))
    (system : System) (argv : List Path) :
    ∃ exit, transformMain rt fopen mode system argv = .ok exit ∧ exit.system = system ∧
      exit.code ≤ 2 ∧ (exit.code = 2 ↔ argv.length ≠ 2) ∧
      (exit.code = 0 → GivesText rt fopen system.heap argv ∧
        ∃ T program path file a y, argv = [program, path] ∧
          Loads rt.allocator fopen system.heap path file a ∧ mode = some T ∧
          TransformOutput rt.platform rt.data T file.bytes y ∧
          exit.stdout = "LEOFUZZ:OK transform=" ++ probeModeName mode ++ " input_bytes=" ++
            toString file.bytes.length ++ " output_bytes=" ++ toString y.length ++ "\n") ∧
      (GivesText rt fopen system.heap argv → exit.code ≠ 0 →
        ∃ status n, status ≠ .ok ∧ status ≠ .invalid ∧
          exit.stdout = "LEOFUZZ:REJECT transform=" ++ probeModeName mode ++ " status=" ++
            leoUTF8StatusMessage status ++ " input_bytes=" ++ toString (n : ℕ) ++ "\n") := by
  by_cases hargs : argv.length = 2
  · obtain ⟨program, path, rfl⟩ := List.length_eq_two.mp hargs
    by_cases hloads : ∃ file a, Loads rt.allocator fopen system.heap path file a
    · obtain ⟨file, a, hloads⟩ := hloads
      obtain ⟨block, hread, htake, hlen⟩ := readFile_loads hloads
      obtain ⟨status, o, after, hcall, houtcome⟩ :=
        runTransform_loaded terminates (system.heap.put a block) htake hlen
      have hfresh := rt.allocator.malloc_fresh _ _ _ hloads.memory
      rw [transformMain, hread, ok_bind]
      dsimp only [Option.getD_some]
      rw [if_neg (not_not_intro rfl), object_eq_ok (Heap.put_self _ _ _), ok_bind, hcall, ok_bind]
      dsimp only
      rw [givesText_of_loads hloads]
      by_cases hok : status = .ok
      · rw [if_pos hok] at houtcome ⊢
        obtain ⟨hmax, hvalid, T, b, y, outBlock, rfl, houtput, rfl, _, howned⟩ := houtcome
        refine ⟨_, rfl, ?_, by simp, by simp,
          fun _ => ⟨⟨hmax, hvalid⟩, T, program, path, file, a, y, rfl, hloads, rfl, houtput, rfl⟩,
          fun _ h => absurd rfl h⟩
        dsimp only [Option.getD_some]
        rw [free_both hfresh howned]
      · rw [if_neg hok] at houtcome ⊢
        obtain ⟨hout, rfl, hinvalid⟩ := houtcome
        refine ⟨_, rfl, ?_, by simp, by simp, by simp,
          fun htext _ => ⟨status, _, hok, hinvalid htext.2, rfl⟩⟩
        rw [hout]
        dsimp only [Option.getD_some, leoUTF8Free, free]
        rw [Heap.free_put hfresh]
    · have hnone : ∀ file a, ¬ Loads rt.allocator fopen system.heap path file a :=
        fun file a h => hloads ⟨file, a, h⟩
      rw [transformMain, readFile_unreadable hnone, ok_bind]
      dsimp only
      rw [if_pos (by decide)]
      refine ⟨_, rfl, rfl, by simp [couldNotRead], by simp [couldNotRead], by simp [couldNotRead],
        fun htext => absurd htext (not_givesText_of_unreadable hnone)⟩
  · have husage := transformMain_usage rt fopen mode system hargs
    exact ⟨_, husage, rfl, le_rfl, by simp [hargs], by simp,
      fun htext => absurd htext (not_givesText_of_usage hargs)⟩

/-- A file of e and U+0301, of which the system says the size. -/
def acuteFile : File :=
  { seekEnd := true, size := 3, seekStart := true, contents := [0x65, 0xCC, 0x81] }

theorem transform_probe_verdict_acute :
    ∃ exit, transformMain probeRuntime (fun _ => some acuteFile) (some .nfc)
        { heap := fun _ => none, opened := 0 } [[], []] = .ok exit ∧
      exit.system = { heap := fun _ => none, opened := 0 } ∧ exit.code = 0 := by
  obtain ⟨exit, hmain, hsystem, _⟩ := transform_probe_verdict probeRuntime
    (fun _ => some acuteFile) (some .nfc) (fun T _ => TableAssumptions.acute_terminates T)
    { heap := fun _ => none, opened := 0 } [[], []]
  refine ⟨exit, hmain, hsystem, ?_⟩
  have hcode : (transformMain probeRuntime (fun _ => some acuteFile) (some .nfc)
      { heap := fun _ => none, opened := 0 } [[], []]).map ProbeExit.code = .ok 0 := by
    decide +kernel
  rw [hmain] at hcode
  exact Except.ok.inj hcode

end LeoUTF8.FileProbes
