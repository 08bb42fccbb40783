import LeoUTF8.FileProbes

set_option autoImplicit false

/-!
# The memory of the exact-output probe

Whatever the case file holds and wherever memory runs out, the probe reads and writes inside
its objects and has freed everything when it exits.
-/
namespace LeoUTF8.ProbeSafety
open BoundedLoop CellStorage HeapBlocks ScalarEncoding EngineMap CoreFunctions CodePointMapping
open MapCorrectness RecursiveExpansion LineCutting HexText ExpectProbe HexParsing CaseLoading
open ProbeVerdicts FileProbes

/-- The buffer has no block, or one of its own that is large enough. -/
def Keeps (heap : Heap) (buffer : HexBuffer) (after : Heap) : Prop :=
  (buffer.bytes = none ∧ after = heap) ∨
    ∃ a block, buffer.bytes = some a ∧ buffer.length ≤ block.length ∧ heap a = none ∧
      after = heap.put a block

theorem Keeps.empty (heap : Heap) : Keeps heap emptyBuffer heap := Or.inl ⟨rfl, rfl⟩

theorem Keeps.freed {heap after : Heap} {buffer : HexBuffer} (h : Keeps heap buffer after) :
    free after buffer.bytes = heap := by
  rcases h with ⟨hnone, rfl⟩ | ⟨a, block, hsome, _, hfresh, rfl⟩
  · rw [hnone]
    rfl
  · rw [hsome]
    exact Heap.free_put hfresh block

/-- It does not matter which of two buffers got its block first. -/
theorem Keeps.exchange {heap mid after : Heap} {first second : HexBuffer}
    (h : Keeps heap first mid) (h' : Keeps mid second after) :
    ∃ mid', Keeps heap second mid' ∧ Keeps mid' first after := by
  rcases h with ⟨hnone, rfl⟩ | ⟨a, block, hsome, hlength, hfresh, rfl⟩
  · exact ⟨after, h', Or.inl ⟨hnone, rfl⟩⟩
  · rcases h' with ⟨hnone', rfl⟩ | ⟨b, block', hsome', hlength', hfresh', rfl⟩
    · exact ⟨heap, Or.inl ⟨hnone', rfl⟩, Or.inr ⟨a, block, hsome, hlength, hfresh, rfl⟩⟩
    · have hab : b ≠ a := by
        rintro rfl
        rw [Heap.put_self] at hfresh'
        cases hfresh'
      rw [Heap.put_of_ne heap hab] at hfresh'
      refine ⟨heap.put b block', Or.inr ⟨b, block', hsome', hlength', hfresh', rfl⟩,
        Or.inr ⟨a, block, hsome, hlength, ?_, ?_⟩⟩
      · rw [Heap.put_of_ne heap hab.symm, hfresh]
      · exact Function.update_comm hab.symm _ _ _

/-- The decoder returns a block of its own, or nothing. -/
theorem parseHexBytes_keeps (alloc : Allocator) (heap : Heap) {text : List UInt8} (hnul : 0 ∉ text)
    (behind : List UInt8) :
    ∃ rc parsed after, parseHexBytes alloc heap (some (text ++ 0 :: behind)) (some emptyBuffer) =
        .ok (rc, some parsed, after) ∧ Keeps heap parsed after ∧
      (rc = 0 → parsed.bytes ≠ none) := by
  by_cases hhex : IsHex ignored text
  · obtain ⟨block, htake, _, hparse⟩ :=
      @parseHexBytes_isHex alloc heap _ hnul hhex behind emptyBuffer
    rw [hparse]
    cases hmalloc : alloc.malloc heap (max 1 (denoted text).length) with
    | none => exact ⟨-1, _, heap, rfl, Or.inl ⟨rfl, rfl⟩, fun h => absurd h (by decide)⟩
    | some a =>
      refine ⟨0, _, _, rfl, Or.inr ⟨a, block, rfl, ?_, alloc.malloc_fresh _ _ _ hmalloc, rfl⟩,
        fun _ => Option.some_ne_none a⟩
      have hlength := congrArg List.length htake
      rw [List.length_take] at hlength
      dsimp only
      omega
  · exact ⟨-1, emptyBuffer, heap, parseHexBytes_rejects alloc heap hnul hhex behind emptyBuffer,
      Keeps.empty heap, fun h => absurd h (by decide)⟩

section Lines

variable {line : List UInt8} (hline : 0 ∈ line)
include hline

/-- What a key does with a line that has a NUL somewhere. -/
theorem startsWith_line (key : List UInt8) (hkey : 0 ∉ key) :
    ∃ starts, startsWith (some line) (some (key ++ [0])) = .ok starts ∧
      (starts = true → ∃ r behind, line.drop key.length = r ++ 0 :: behind ∧ 0 ∉ r) := by
  obtain ⟨p, behind, rfl, hp⟩ := List.eq_append_cons_of_mem hline
  refine ⟨_, startsWith_eq hkey hp behind, fun hstarts => ?_⟩
  obtain ⟨r, rfl⟩ := of_decide_eq_true hstarts
  refine ⟨r, behind, ?_, fun h => hp (List.mem_append_right _ h)⟩
  rw [List.append_assoc, List.drop_left]

end Lines

/-- The block of the old contents is freed, and the buffer keeps one of its own or none. -/
theorem reload_keeps (alloc : Allocator) {mid heap : Heap} {buffer : HexBuffer}
    (h : Keeps mid buffer heap) {line : List UInt8} {offset : ℕ} {r behind : List UInt8}
    (hline : line.drop offset = r ++ 0 :: behind) (hr : 0 ∉ r) :
    ∃ rc parsed after, reload alloc heap line offset buffer = .ok (rc, parsed, after) ∧
      Keeps mid parsed after ∧ (rc = 0 → parsed.bytes ≠ none) := by
  obtain ⟨rc, parsed, after, hparse, hkeeps, hbytes⟩ := parseHexBytes_keeps alloc mid hr behind
  refine ⟨rc, parsed, after, ?_, hkeeps, hbytes⟩
  rw [reload, freeHexBuffer]
  dsimp only
  rw [h.freed, hline, hparse, ok_bind]
  rfl

/-- The buffers beside the heap of the caller, between two lines. -/
structure Tidy (heap : Heap) (s : LoadState) : Prop where
  slots : ∃ mid, Keeps heap s.expected mid ∧ Keeps mid s.input s.heap
  input : s.haveInput = true → s.input.bytes ≠ none
  expected : s.haveExpected = true → s.expected.bytes ≠ none
  size : s.line.length = lineSize

/-- The buffers when the loop has ended. -/
def TidyEnd (heap : Heap) (e : LoadEnd) : Prop :=
  match e with
  | .malformed input expected after => ∃ mid, Keeps heap expected mid ∧ Keeps mid input after
  | .finished s => Tidy heap s

/-- A read that is not the last one shortens the file and leaves a NUL in the line. -/
theorem fgets_cases {line : List UInt8} (hline : line.length = lineSize)
    (file : ExpectProbe.Stream) :
    fgets line lineSize file = .ok none ∨
      ∃ line' file', fgets line lineSize file = .ok (some (line', file')) ∧ 0 ∈ line' ∧
        line'.length = lineSize ∧ file'.rest.length < file.rest.length := by
  by_cases hrest : file.rest = []
  · left
    rw [fgets, hrest, readPiece_nil]
    rfl
  obtain ⟨text, rest, hread, hne, hlen, hsplit⟩ : ∃ text rest,
      readPiece newline (lineSize - 1) file.rest = (text, rest) ∧ text ≠ [] ∧
        text.length ≤ lineSize - 1 ∧ file.rest = text ++ rest := by
    rcases readPiece_cases newline (n := lineSize - 1) (by decide) hrest with
      ⟨q, rest, _, hlen, hsplit, hread, _⟩ | ⟨q, rest, _, hne, hlen, hsplit, hread, _⟩
    · refine ⟨_, rest, hread, by simp, ?_, by simp [hsplit]⟩
      rw [List.length_append, List.length_singleton]
      omega
    · exact ⟨q, rest, hread, hne, hlen, hsplit⟩
  have hsize : (lineSize - 1) + 1 = lineSize := rfl
  have hroom : 0 + (text ++ [0]).length ≤ line.length := by
    rw [List.length_append, List.length_singleton]
    omega
  rw [fgets, hread]
  dsimp only
  rw [if_neg hne]
  by_cases herror : file.inputError ∧ text.length < lineSize - 1 ∧ newline ∉ text
  · exact Or.inl (if_pos herror)
  · rw [if_neg herror, storeAll, if_pos hroom, ok_bind]
    refine Or.inr ⟨_, _, rfl, ?_, (overwrite_length hroom).trans hline, ?_⟩
    · rw [overwrite_zero]
      simp
    · rw [hsplit, List.length_append]
      have := List.length_pos_iff.mpr hne
      dsimp only
      omega

theorem loadBody_tidy (alloc : Allocator) (heap : Heap) :
    Progress (loadBody alloc) (Tidy heap) (fun s => s.file.rest.length) (TidyEnd heap) := by
  intro s h
  rcases fgets_cases h.size s.file with hnone | ⟨line, file, hfgets, hnul, hsize, hlt⟩
  · right
    refine ⟨.finished s, ?_, h⟩
    rw [loadBody, hnone, ok_bind]
  obtain ⟨mid, hexpected, hinput⟩ := h.slots
  obtain ⟨isInput, hisInput, hinputLine⟩ := startsWith_line hnul inputKey (by decide)
  obtain ⟨isExpected, hisExpected, hexpectedLine⟩ :=
    startsWith_line hnul expectedKey (by decide)
  rw [loadBody, hfgets, ok_bind]
  dsimp only
  rw [hisInput, ok_bind]
  cases isInput with
  | true =>
    obtain ⟨r, behind, hdrop, hr⟩ := hinputLine rfl
    obtain ⟨rc, parsed, after, hreload, hkeeps, hbytes⟩ := reload_keeps alloc hinput hdrop hr
    rw [if_pos rfl, hreload, ok_bind]
    dsimp only
    by_cases hrc : rc = 0
    · rw [if_neg (not_not_intro hrc)]
      exact Or.inl ⟨_, rfl, ⟨⟨mid, hexpected, hkeeps⟩, fun _ => hbytes hrc, h.expected, hsize⟩, hlt⟩
    · rw [if_pos hrc]
      exact Or.inr ⟨_, rfl, mid, hexpected, hkeeps⟩
  | false =>
    rw [if_neg Bool.false_ne_true, hisExpected, ok_bind]
    cases isExpected with
    | true =>
      obtain ⟨r, behind, hdrop, hr⟩ := hexpectedLine rfl
      obtain ⟨mid', hinput', hexpected'⟩ := hexpected.exchange hinput
      obtain ⟨rc, parsed, after, hreload, hkeeps, hbytes⟩ :=
        reload_keeps alloc hexpected' hdrop hr
      obtain ⟨mid'', hslots⟩ := hinput'.exchange hkeeps
      rw [if_pos rfl, hreload, ok_bind]
      dsimp only
      by_cases hrc : rc = 0
      · rw [if_neg (not_not_intro hrc)]
        exact Or.inl ⟨_, rfl, ⟨⟨mid'', hslots⟩, h.input, fun _ => hbytes hrc, hsize⟩, hlt⟩
      · rw [if_pos hrc]
        exact Or.inr ⟨_, rfl, mid'', hslots⟩
    | false =>
      rw [if_neg Bool.false_ne_true]
      exact Or.inl ⟨_, rfl, ⟨⟨mid, hexpected, hinput⟩, h.input, h.expected, hsize⟩, hlt⟩

/-- The loader returns, and what it has allocated is in the two buffers. -/
theorem loadCaseFile_tidy (alloc : Allocator) (fopen : Path → Option ExpectProbe.Stream)
    (heap : Heap) (path : Path) :
    ∃ rc input expected after,
      loadCaseFile alloc fopen heap (some path) (some emptyBuffer) (some emptyBuffer) =
        .ok (rc, some input, some expected, after) ∧
      (∃ mid, Keeps heap expected mid ∧ Keeps mid input after) ∧
      (rc = 0 → input.bytes ≠ none ∧ expected.bytes ≠ none) := by
  rw [loadCaseFile]
  cases hopen : fopen path with
  | none =>
    exact ⟨-1, _, _, heap, rfl, ⟨heap, Keeps.empty heap, Keeps.empty heap⟩,
      fun h => absurd h (by decide)⟩
  | some file =>
    have hentry : Tidy heap
        { file := file, line := alloc.fresh lineSize, input := emptyBuffer, expected := emptyBuffer
          haveInput := false, haveExpected := false, heap := heap } := by
      constructor
      · exact ⟨heap, Keeps.empty heap, Keeps.empty heap⟩
      · exact fun h => absurd h Bool.false_ne_true
      · exact fun h => absurd h Bool.false_ne_true
      · dsimp only
        exact alloc.fresh_length lineSize
    obtain ⟨e, hrun, hend⟩ :=
      run_total (loadBody_tidy alloc heap) (file.rest.length + 1) _ hentry (Nat.lt_succ_self _)
    dsimp only
    rw [hrun, ok_bind]
    cases e with
    | malformed input expected after =>
      exact ⟨-1, input, expected, after, rfl, hend, fun h => absurd h (by decide)⟩
    | finished s =>
      have hslots := hend.slots
      dsimp only
      by_cases herror : s.file.inputError = true
      · rw [if_pos herror]
        exact ⟨-1, _, _, _, rfl, hslots, fun h => absurd h (by decide)⟩
      · rw [if_neg herror]
        by_cases hmissing : ¬ s.haveInput = true ∨ ¬ s.haveExpected = true
        · rw [if_pos hmissing]
          exact ⟨-1, _, _, _, rfl, hslots, fun h => absurd h (by decide)⟩
        · rw [if_neg hmissing]
          rw [not_or, not_not, not_not] at hmissing
          exact ⟨0, _, _, _, rfl, hslots,
            fun _ => ⟨hend.input hmissing.1, hend.expected hmissing.2⟩⟩

theorem Keeps.block {heap after : Heap} {buffer : HexBuffer} (h : Keeps heap buffer after)
    (hbytes : buffer.bytes ≠ none) :
    ∃ block, object after buffer.bytes = .ok block ∧ buffer.length ≤ block.length := by
  rcases h with ⟨hnone, _⟩ | ⟨a, block, hsome, hlength, _, rfl⟩
  · exact absurd hnone hbytes
  · refine ⟨block, ?_, hlength⟩
    rw [hsome]
    exact object_eq_ok (Heap.put_self heap a block)

/-- Freeing in the order of the program undoes all three allocations. -/
theorem release_keeps {heap mid after final : Heap} {input expected out : HexBuffer}
    (hexpected : Keeps heap expected mid) (hinput : Keeps mid input after)
    (hout : Keeps after out final) : release final input expected out.bytes = heap := by
  obtain ⟨mid', hout', hinput'⟩ := hinput.exchange hout
  obtain ⟨mid'', hout'', hexpected'⟩ := hexpected.exchange hout'
  dsimp only [release, freeHexBuffer]
  rw [hinput'.freed, hexpected'.freed]
  exact hout''.freed

theorem memcmp_returns {s t : List UInt8} {n : ℕ} (hs : n ≤ s.length) (ht : n ≤ t.length) :
    ∃ order, memcmp s t n = .ok order := by
  induction n generalizing s t with
  | zero => exact ⟨0, by cases s <;> cases t <;> rfl⟩
  | succ n ih =>
    cases s with
    | nil => simp at hs
    | cons a s =>
      cases t with
      | nil => simp at ht
      | cons b t =>
        rw [List.length_cons] at hs ht
        rw [memcmp]
        split_ifs
        · exact ⟨_, rfl⟩
        · exact ih (by omega) (by omega)

theorem mismatch_returns {heap : Heap} (out : HexBuffer) {expected : HexBuffer}
    {block block' : List UInt8}
    (hout : object heap out.bytes = .ok block) (hlength : out.length ≤ block.length)
    (hexpected : object heap expected.bytes = .ok block')
    (hlength' : expected.length ≤ block'.length) :
    ∃ differs, mismatch heap out.bytes out.length expected = .ok differs := by
  rw [mismatch]
  split_ifs with hne hpos
  · exact ⟨_, rfl⟩
  · obtain ⟨order, horder⟩ := memcmp_returns (s := block) (t := block') (n := expected.length)
      (by omega) hlength'
    rw [hout, ok_bind, hexpected, ok_bind, horder, ok_bind]
    exact ⟨_, rfl⟩
  · exact ⟨_, rfl⟩

theorem main_usage (rt : Runtime) (fopen : Path → Option ExpectProbe.Stream)
    (mode : Option Transform) (heap : Heap) {argv : List Path} (h : argv.length ≠ 2) :
    ExpectProbe.main rt fopen mode heap argv =
      .ok { code := 2, stdout := ""
            stderr := "LEOFUZZ:ERROR usage: leoutf8_transform_expect_probe case-file\n"
            heap := heap } := by
  unfold ExpectProbe.main
  split
  · exact absurd rfl h
  · rfl

/-- Every run of the probe ends without a fault and with the heap as it was, whatever the file
holds (NULs, long lines, an input error), whether or not memory runs out. -/
theorem expect_probe_safe (rt : Runtime) (fopen : Path → Option ExpectProbe.Stream)
    (mode : Option Transform) (terminates : ∀ T, mode = some T → Terminates (entry rt.data T))
    (heap : Heap) (argv : List Path) :
    ∃ exit, ExpectProbe.main rt fopen mode heap argv = .ok exit ∧ exit.heap = heap ∧
      (exit.code = 0 ∨ exit.code = 2 ∨ exit.code = 3) ∧ (exit.code = 0 ↔ ReportsOK exit) ∧
      (exit.code = 0 ↔ exit.stderr = "") := by
  by_cases hargs : argv.length = 2
  swap
  · refine ⟨_, main_usage rt fopen mode heap hargs, rfl, Or.inr (Or.inl rfl), ?_, by simp⟩
    exact iff_of_false (by simp) (not_reportsOK rfl)
  obtain ⟨program, path, rfl⟩ := List.length_eq_two.mp hargs
  obtain ⟨rc, input, expected, after, hload, ⟨mid, hexpected, hinput⟩, hbytes⟩ :=
    loadCaseFile_tidy rt.allocator fopen heap path
  rw [ExpectProbe.main, hload, ok_bind]
  dsimp only [Option.getD_some]
  by_cases hrc : rc = 0
  swap
  · rw [if_pos hrc]
    have hrelease := release_keeps hexpected hinput (Keeps.empty after)
    refine ⟨_, rfl, hrelease, Or.inr (Or.inl rfl), ?_, by simp⟩
    exact iff_of_false (by simp) (not_reportsOK rfl)
  rw [if_neg (not_not_intro hrc)]
  obtain ⟨hinputBytes, hexpectedBytes⟩ := hbytes hrc
  obtain ⟨block, hobject, hlength⟩ := hinput.block hinputBytes
  have htake : (block.take input.length).length = input.length := List.length_take_of_le hlength
  obtain ⟨status, o, final, hcall, houtcome⟩ := @runTransform_loaded rt mode terminates after block
    (block.take input.length) (by rw [htake]) (by rw [htake]; exact hlength)
  rw [htake] at hcall
  rw [hobject, ok_bind, hcall, ok_bind]
  dsimp only
  by_cases hstatus : status = .ok
  swap
  · rw [if_neg hstatus] at houtcome
    obtain ⟨hout, rfl, _⟩ := houtcome
    rw [if_pos hstatus, hout]
    have hrelease := release_keeps hexpected hinput (Keeps.empty final)
    refine ⟨_, rfl, hrelease, Or.inr (Or.inr rfl), ?_, by simp⟩
    exact iff_of_false (by simp) (not_reportsOK rfl)
  rw [if_pos hstatus] at houtcome
  obtain ⟨_, _, T, b, y, outBlock, _, _, rfl, hy, howned⟩ := houtcome
  let out : HexBuffer := { bytes := some b, length := y.length }
  have hout : Keeps after out final := Or.inr ⟨b, outBlock, rfl, hy.length_le, howned.1, howned.2⟩
  have hrelease := release_keeps hexpected hinput hout
  obtain ⟨mid', _, hexpected'⟩ := hexpected.exchange hinput
  obtain ⟨mid'', _, hexpected''⟩ := hexpected'.exchange hout
  obtain ⟨block', hobject', hlength'⟩ := hexpected''.block hexpectedBytes
  obtain ⟨differs, hdiffers⟩ := mismatch_returns out (object_eq_ok howned.live) hy.length_le
    hobject' hlength'
  rw [if_neg (not_not_intro hstatus)]
  dsimp only [Option.getD_some]
  rw [show mismatch final (some b) y.length expected = .ok differs from hdiffers, ok_bind]
  cases differs with
  | true =>
    rw [if_pos rfl]
    refine ⟨_, rfl, hrelease, Or.inr (Or.inr rfl), ?_, by simp⟩
    exact iff_of_false (by simp) (not_reportsOK rfl)
  | false =>
    rw [if_neg Bool.false_ne_true]
    refine ⟨_, rfl, hrelease, Or.inl rfl, iff_of_true rfl ?_, by simp⟩
    refine ⟨" transform=" ++ probeModeName mode ++ " exact-output bytes=" ++ toString y.length ++
      "\n", ?_⟩
    rw [show "LEOFUZZ:OK transform=" = "LEOFUZZ:OK" ++ " transform=" from rfl]
    simp only [String.append_assoc]

/-- A line with a NUL before its digits, and memory for one block. -/
theorem expect_probe_safe_nul :
    ∃ exit, ExpectProbe.main smallRuntime
        (fun _ => some { rest := inputKey ++ [0x00, 0x34, 0x31, newline], inputError := false })
        (some .nfc) (fun _ => none) [[], []] = .ok exit ∧ exit.heap = (fun _ => none) := by
  obtain ⟨exit, hmain, hheap, _⟩ := expect_probe_safe smallRuntime
    (fun _ => some { rest := inputKey ++ [0x00, 0x34, 0x31, newline], inputError := false })
    (some .nfc) (fun T _ => TableAssumptions.acute_terminates T) (fun _ => none) [[], []]
  exact ⟨exit, hmain, hheap⟩

end LeoUTF8.ProbeSafety
