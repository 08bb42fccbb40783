import LeoUTF8.CaseLoading
import LeoUTF8.ReadBounds

set_option autoImplicit false

/-!
# The verdicts of the exact-output probe

The probe reports success for the bytes that it has loaded. These are the bytes of the case
exactly when cutting the lines of the file does no harm.
-/
namespace LeoUTF8.ProbeVerdicts
open BoundedLoop HeapBlocks EngineMap CoreFunctions CodePointMapping MapCorrectness ReadBounds
open LineCutting HexText ExpectProbe CaseFiles CaseLoading

/-- The first word of the report is `LEOFUZZ:OK`. -/
def ReportsOK (exit : Exit) : Prop := ∃ report, exit.stdout = "LEOFUZZ:OK" ++ report

/-- The transform maps the input to the expected bytes. -/
def Transforms (rt : Runtime) (mode : Option Transform) (input expected : List UInt8) : Prop :=
  ∃ heap after a block, runTransform rt mode heap (some input) input.length
      { out := some none, outLen := some 0 } =
      .ok (.ok, { out := some (some a), outLen := some expected.length }, after) ∧
    after a = some block ∧ block.take expected.length = expected

/-- The probe judges a case by its whole lines. -/
structure JudgesWhole (rt : Runtime) (fopen : Path → Option ExpectProbe.Stream)
    (mode : Option Transform) (heap : Heap) (program path : Path) (contents : List UInt8) :
    Prop where
  loads : ∃ rc input expected after,
    loadCaseFile rt.allocator fopen heap (some path) (some emptyBuffer) (some emptyBuffer) =
      .ok (rc, some input, some expected, after) ∧
    (rc = 0 ↔ InFormat (lines contents)) ∧
    (rc = 0 → HoldsCase after input expected (lines contents))
  reports : ∀ exit, main rt fopen mode heap [program, path] = .ok exit → ReportsOK exit →
    Transforms rt mode (bytesOf (lastDigits inputKey (lines contents)))
      (bytesOf (lastDigits expectedKey (lines contents)))

theorem not_reportsOK {exit : Exit} (h : exit.stdout = "") : ¬ ReportsOK exit := by
  rintro ⟨report, hreport⟩
  have hlen := congrArg String.length (h.symm.trans hreport)
  have hword : "LEOFUZZ:OK".length = 10 := rfl
  rw [String.length_append, hword, String.length_empty] at hlen
  omega

theorem memcmp_eq_zero {s t : List UInt8} {n : ℕ} (h : memcmp s t n = .ok 0) :
    s.take n = t.take n := by
  induction n generalizing s t with
  | zero => rw [List.take_zero, List.take_zero]
  | succ n ih =>
    cases s with
    | nil => cases t <;> cases h
    | cons a s =>
      cases t with
      | nil => cases h
      | cons b t =>
        rw [memcmp] at h
        by_cases hab : a = b
        · rw [if_neg (not_not_intro hab)] at h
          rw [List.take_succ_cons, List.take_succ_cons, hab, ih h]
        · rw [if_pos hab] at h
          have hne : a.toNat ≠ b.toNat := fun heq => hab (UInt8.toNat_inj.mp heq)
          have hzero := Except.ok.inj h
          omega

theorem object_eq_ok {heap : Heap} {a : Address} {block : List UInt8} (h : heap a = some block) :
    object heap (some a) = .ok block := by
  rw [object, Option.bind_some, h]

/-- The output passes only if it consists of the expected bytes. -/
theorem mismatch_eq_false {heap : Heap} {a : Address} {block : List UInt8} {outLength : ℕ}
    {buffer : HexBuffer} {bytes : List UInt8} (hout : heap a = some block)
    (hholds : Holds heap buffer bytes)
    (h : mismatch heap (some a) outLength buffer = .ok false) :
    outLength = bytes.length ∧ block.take bytes.length = bytes := by
  obtain ⟨b, expected, rfl, hlive, htake⟩ := hholds
  rw [mismatch] at h
  dsimp only at h
  by_cases hlen : outLength = bytes.length
  · refine ⟨hlen, ?_⟩
    rw [if_neg (not_not_intro hlen)] at h
    by_cases hpos : bytes.length > 0
    · rw [if_pos hpos, object_eq_ok hout, ok_bind, object_eq_ok hlive, ok_bind] at h
      obtain ⟨order, hcompare, horder⟩ := bind_eq_ok h
      have hzero : order = 0 := by simpa using horder
      rw [memcmp_eq_zero (hzero ▸ hcompare), htake]
    · obtain rfl : bytes = [] := List.length_eq_zero_iff.mp (by omega)
      rfl
  · rw [if_pos hlen] at h
    cases h

theorem runTransform_ok {rt : Runtime} {mode : Option Transform} {heap after : Heap}
    {bytes : Option (List UInt8)} {length : ℕ} {o o' : Outputs}
    (h : runTransform rt mode heap bytes length o = .ok (.ok, o', after)) :
    ∃ T, mode = some T ∧ bytesFunction T rt heap bytes length o = .ok (.ok, o', after) := by
  cases mode with
  | none => cases h
  | some T =>
    refine ⟨T, rfl, ?_⟩
    cases T <;> exact h

theorem runTransform_some (rt : Runtime) (T : Transform) (heap : Heap)
    (bytes : Option (List UInt8)) (length : ℕ) (o : Outputs) :
    runTransform rt (some T) heap bytes length o = bytesFunction T rt heap bytes length o := by
  cases T <;> rfl

/-- The transform of loaded bytes is that of the bytes alone, and it leaves other blocks alone. -/
theorem transforms_of_loaded {rt : Runtime} {mode : Option Transform} {heap after : Heap}
    {expected : HexBuffer} {bytes bytes' block : List UInt8} {o : Outputs}
    (hexpected : Holds heap expected bytes') (htake : block.take bytes.length = bytes)
    (hcall : runTransform rt mode heap (some block) bytes.length
      { out := some none, outLen := some 0 } = .ok (.ok, o, after))
    (hmatch : mismatch after (o.out.getD none) (o.outLen.getD 0) expected = .ok false) :
    Transforms rt mode bytes bytes' := by
  have hlen : bytes.length ≤ block.length := by
    have h := congrArg List.length htake
    rw [List.length_take] at h
    omega
  obtain ⟨T, rfl, hfunction⟩ := runTransform_ok hcall
  obtain ⟨a, outBlock, rfl, hdelivered⟩ := (bytesFunction_success hlen hfunction).delivered
  have hlive := hdelivered.owned.live
  have hkept : Holds after expected bytes' := by
    obtain ⟨b, block', hbuffer, hb, htake'⟩ := hexpected
    have hba : b ≠ a := by
      rintro rfl
      rw [hdelivered.owned.1] at hb
      cases hb
    exact ⟨b, block', hbuffer, by rw [hdelivered.owned.2, Heap.put_of_ne heap hba, hb], htake'⟩
  obtain ⟨hlength, htake'⟩ := mismatch_eq_false hlive hkept hmatch
  have hloaded : bytes.take bytes.length = block.take bytes.length := by
    rw [List.take_length, htake]
  refine ⟨heap, after, a, outBlock, ?_, hlive, htake'⟩
  rw [runTransform_some, bytesFunction_congr hlen hloaded T heap, hfunction, ← hlength]
  rfl

section Main

variable {rt : Runtime} {fopen : Path → Option ExpectProbe.Stream} {mode : Option Transform}
  {heap after : Heap} {program path : Path} {rc : ℤ} {input expected : HexBuffer}
  (hload : loadCaseFile rt.allocator fopen heap (some path) (some emptyBuffer)
    (some emptyBuffer) = .ok (rc, some input, some expected, after))
include hload

/-- A reported success is one for the bytes in the two buffers. -/
theorem main_reports {ls : List (List UInt8)} (hholds : rc = 0 → HoldsCase after input expected ls)
    {exit : Exit} (hmain : main rt fopen mode heap [program, path] = .ok exit)
    (hreport : ReportsOK exit) :
    Transforms rt mode (bytesOf (lastDigits inputKey ls))
      (bytesOf (lastDigits expectedKey ls)) := by
  rw [main, hload, ok_bind] at hmain
  dsimp only [Option.getD_some] at hmain
  by_cases hrc : rc = 0
  · obtain ⟨⟨a, block, rfl, hlive, htake⟩, hexpected⟩ := hholds hrc
    rw [if_neg (not_not_intro hrc)] at hmain
    dsimp only at hmain
    rw [object_eq_ok hlive, ok_bind] at hmain
    obtain ⟨⟨status, o, after'⟩, hcall, hmain⟩ := bind_eq_ok hmain
    dsimp only at hmain
    by_cases hstatus : status = .ok
    · subst hstatus
      rw [if_neg (not_not_intro rfl)] at hmain
      obtain ⟨differs, hmatch, hmain⟩ := bind_eq_ok hmain
      cases differs with
      | true =>
        obtain rfl := Except.ok.inj hmain
        exact absurd hreport (not_reportsOK rfl)
      | false => exact transforms_of_loaded hexpected htake hcall hmatch
    · rw [if_pos hstatus] at hmain
      obtain rfl := Except.ok.inj hmain
      exact absurd hreport (not_reportsOK rfl)
  · rw [if_pos hrc] at hmain
    obtain rfl := Except.ok.inj hmain
    exact absurd hreport (not_reportsOK rfl)

end Main

theorem lastDigits_unique {heap : Heap} {buffer : HexBuffer} {key : List UInt8}
    {ls ls' : List (List UInt8)} (hpaired : (lastDigits key ls).length % 2 = 0)
    (hpaired' : (lastDigits key ls').length % 2 = 0)
    (h : Holds heap buffer (bytesOf (lastDigits key ls)))
    (h' : Holds heap buffer (bytesOf (lastDigits key ls'))) :
    lastDigits key ls = lastDigits key ls' :=
  bytesOf_injective (fun _ => digits_lt) (fun _ => digits_lt) hpaired hpaired' (h.unique h')

section Verdicts

variable {rt : Runtime} {fopen : Path → Option ExpectProbe.Stream} {mode : Option Transform}
  {heap : Heap} {program path : Path} {contents : List UInt8}
  (supplied : Supplied rt.allocator heap)
  (hfile : fopen path = some { rest := contents, inputError := false }) (hnul : 0 ∉ contents)
include supplied hfile hnul

theorem cutHarmless_of_judgesWhole
    (h : JudgesWhole rt fopen mode heap program path contents) : CutHarmless contents := by
  obtain ⟨rc, input, expected, after, hload, hrc, hholds⟩ :=
    loadCaseFile_cutLines supplied hfile hnul
  obtain ⟨rc', input', expected', after', hload', hrc', hholds'⟩ := h.loads
  rw [hload] at hload'
  cases hload'
  have hformat : InFormat (cutLines contents) ↔ InFormat (lines contents) := hrc.symm.trans hrc'
  refine ⟨hformat, fun hlines => ?_, fun hlines => ?_⟩
  · have hcut := hformat.mpr hlines
    exact lastDigits_unique (hcut.paired isKey_inputKey) (hlines.paired isKey_inputKey)
      (hholds (hrc.mpr hcut)).1 (hholds' (hrc.mpr hcut)).1
  · have hcut := hformat.mpr hlines
    exact lastDigits_unique (hcut.paired isKey_expectedKey) (hlines.paired isKey_expectedKey)
      (hholds (hrc.mpr hcut)).2 (hholds' (hrc.mpr hcut)).2

theorem judgesWhole_of_cutHarmless (h : CutHarmless contents) :
    JudgesWhole rt fopen mode heap program path contents := by
  obtain ⟨rc, input, expected, after, hload, hrc, hholds⟩ :=
    loadCaseFile_cutLines supplied hfile hnul
  have hwhole (hzero : rc = 0) : HoldsCase after input expected (lines contents) := by
    have hlines := h.format.mp (hrc.mp hzero)
    rw [HoldsCase, ← h.input hlines, ← h.expected hlines]
    exact hholds hzero
  constructor
  · exact ⟨rc, input, expected, after, hload, hrc.trans h.format, hwhole⟩
  · intro exit hmain hreport
    exact main_reports hload hwhole hmain hreport

end Verdicts

/-- The probe judges a case by its whole lines exactly when cutting them does no harm. -/
theorem judgesWhole_iff_cutHarmless (rt : Runtime) (fopen : Path → Option ExpectProbe.Stream)
    (mode : Option Transform) (heap : Heap) (program path : Path) (contents : List UInt8)
    (supplied : Supplied rt.allocator heap)
    (hfile : fopen path = some { rest := contents, inputError := false })
    (hnul : 0 ∉ contents) :
    JudgesWhole rt fopen mode heap program path contents ↔ CutHarmless contents :=
  ⟨cutHarmless_of_judgesWhole supplied hfile hnul, judgesWhole_of_cutHarmless supplied hfile hnul⟩

/-- A runtime with room for both buffers and the output of the transform. -/
def probeRuntime : Runtime := { smallRuntime with allocator := .slots 3 }

theorem probeRuntime_supplied : Supplied probeRuntime.allocator fun _ => none := by
  constructor
  · intro size _ h
    cases h
  · intro a block _ _ size _ h
    have hnone := List.find?_eq_none.mp h
    by_cases ha : a = 0
    · have h1 := hnone 1 (by decide)
      rw [Heap.put_of_ne _ (by rw [ha]; decide)] at h1
      simp at h1
    · have h0 := hnone 0 (by decide)
      rw [Heap.put_of_ne _ (Ne.symm ha)] at h0
      simp at h0

/-- The lines `input_hex=41` and `expected_hex=41`. -/
def shortCase : List UInt8 :=
  inputKey ++ [0x34, 0x31, newline] ++ expectedKey ++ [0x34, 0x31, newline]

theorem judgesWhole_iff_cutHarmless_short :
    JudgesWhole probeRuntime (fun _ => some { rest := shortCase, inputError := false }) (some .nfc)
      (fun _ => none) [] [] shortCase := by
  have hlines : lines shortCase = [inputKey ++ [0x34, 0x31], expectedKey ++ [0x34, 0x31], []] := by
    decide
  have hshort : CutHarmless shortCase := by
    apply cutHarmless_of_short
    rw [hlines]
    decide
  exact (judgesWhole_iff_cutHarmless probeRuntime _ (some .nfc) _ [] [] shortCase
    probeRuntime_supplied rfl (by decide)).mpr hshort

/-- An empty input with an expected line of 4084 digits, two of which are cut off. -/
def longCase : List UInt8 :=
  inputKey ++ newline :: (expectedKey ++ List.replicate 4084 0x30 ++ newline :: [])

theorem lines_longCase :
    lines longCase = [inputKey, expectedKey ++ List.replicate 4084 0x30, []] := by
  have hinput : newline ∉ inputKey := by decide
  have hexpected : newline ∉ expectedKey ++ List.replicate 4084 0x30 := by
    rw [List.mem_append, List.mem_replicate]
    decide
  rw [lines, longCase, List.splitOn_append_cons_self_of_not_mem hinput,
    List.splitOn_append_cons_self_of_not_mem hexpected]
  rfl

theorem cutLines_longCase : cutLines longCase =
    [inputKey, expectedKey ++ List.replicate 4082 0x30, List.replicate 2 0x30] := by
  have hinput : newline ∉ inputKey := by decide
  have hpart : newline ∉ expectedKey ++ List.replicate 4082 0x30 := by
    rw [List.mem_append, List.mem_replicate]
    decide
  have hlen : (expectedKey ++ List.replicate 4082 0x30).length = lineSize - 1 := by
    rw [List.length_append, List.length_replicate]
    rfl
  have htail : newline ∉ List.replicate 2 (0x30 : UInt8) := by decide
  have hsplit : longCase = inputKey ++ newline ::
      ((expectedKey ++ List.replicate 4082 0x30) ++
        (List.replicate 2 0x30 ++ newline :: [])) := by
    rw [longCase, show 4084 = 4082 + 2 from rfl, List.replicate_add]
    simp only [List.append_assoc]
  rw [cutLines, hsplit, pieces_line hinput, pieces_full hpart hlen (by decide),
    pieces_line htail, pieces_nil, chunks_of_fits (by decide), chunks_of_fits (by decide)]
  rfl

theorem isHex_zeros {n : ℕ} (h : n % 2 = 0) : IsHex blanks (List.replicate n 0x30) := by
  constructor
  · intro ch hch
    rw [List.eq_of_mem_replicate hch]
    exact Or.inl (by decide)
  · rw [digits_replicate (d := 0) (by decide), List.length_replicate, h]

theorem remainders_longCase :
    remainders inputKey (cutLines longCase) = [[]] ∧
    remainders inputKey (lines longCase) = [[]] ∧
    remainders expectedKey (cutLines longCase) = [List.replicate 4082 0x30] ∧
    remainders expectedKey (lines longCase) = [List.replicate 4084 0x30] := by
  have hinput : ¬ expectedKey <+: inputKey := by decide
  have hexpected (n : ℕ) : ¬ inputKey <+: expectedKey ++ List.replicate n 0x30 :=
    fun h => keys_disjoint h (List.prefix_append _ _)
  have hpiece : ¬ inputKey <+: List.replicate 2 0x30 := by decide
  have hpiece' : ¬ expectedKey <+: List.replicate 2 0x30 := by decide
  have hempty : ¬ inputKey <+: [] := by decide
  have hempty' : ¬ expectedKey <+: [] := by decide
  rw [cutLines_longCase, lines_longCase]
  refine ⟨?_, ?_, ?_, ?_⟩
  · rw [remainders_cons_keyed List.prefix_rfl, remainders_cons_unkeyed (hexpected _),
      remainders_cons_unkeyed hpiece, remainders_nil, List.drop_length]
  · rw [remainders_cons_keyed List.prefix_rfl, remainders_cons_unkeyed (hexpected _),
      remainders_cons_unkeyed hempty, remainders_nil, List.drop_length]
  · rw [remainders_cons_unkeyed hinput, remainders_cons_keyed (List.prefix_append _ _),
      remainders_cons_unkeyed hpiece', remainders_nil, List.drop_left]
  · rw [remainders_cons_unkeyed hinput, remainders_cons_keyed (List.prefix_append _ _),
      remainders_cons_unkeyed hempty', remainders_nil, List.drop_left]

/-- The cut shortens the digits of the expected line, which stays in the format. -/
theorem longCase_harmed : ¬ CutHarmless longCase := by
  intro h
  obtain ⟨_, hin, hcut, hexp⟩ := remainders_longCase
  have hformat : InFormat (lines longCase) := by
    constructor
    · rw [hin]
      exact List.cons_ne_nil _ _
    · rw [hexp]
      exact List.cons_ne_nil _ _
    · rw [hin, hexp]
      simp only [List.forall_mem_append, List.forall_mem_singleton]
      exact ⟨isHex_zeros (n := 0) rfl, isHex_zeros rfl⟩
  have hlen := congrArg List.length (h.expected hformat)
  rw [lastDigits, hcut, lastDigits, hexp] at hlen
  change (digits (List.replicate 4082 0x30)).length = (digits (List.replicate 4084 0x30)).length
    at hlen
  rw [digits_replicate (d := 0) (by decide), digits_replicate (d := 0) (by decide),
    List.length_replicate, List.length_replicate] at hlen
  omega

theorem judgesWhole_fails :
    ¬ JudgesWhole probeRuntime (fun _ => some { rest := longCase, inputError := false })
      (some .nfc) (fun _ => none) [] [] longCase := by
  have hnul : 0 ∉ longCase := by
    rw [longCase, List.mem_append, List.mem_cons, List.mem_append, List.mem_append,
      List.mem_replicate]
    decide
  exact fun h => longCase_harmed (cutHarmless_of_judgesWhole probeRuntime_supplied rfl hnul h)

end LeoUTF8.ProbeVerdicts
