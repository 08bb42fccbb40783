import LeoUTF8.CaseFiles
import LeoUTF8.HexParsing

set_option autoImplicit false

/-!
# The loader of case files

The loader takes each piece of a line for a line of its own. Every buffer has a block of its
own, and the one that a line replaces is freed before.
-/
namespace LeoUTF8.CaseLoading
open BoundedLoop CellStorage HeapBlocks CoreFunctions LineCutting HexText ExpectProbe HexParsing
open CaseFiles

section Keys

variable {key p : List UInt8} (hkey : 0 ∉ key) (hp : 0 ∉ p) (behind : List UInt8)
include hkey hp

theorem strncmp_key : ∃ order, strncmp (p ++ 0 :: behind) (key ++ [0]) key.length = .ok order ∧
    (order = 0 ↔ key <+: p) := by
  induction key generalizing p with
  | nil =>
    refine ⟨0, ?_, by simp⟩
    rw [List.length_nil, strncmp]
  | cons k key ih =>
    rw [List.mem_cons, not_or] at hkey
    cases p with
    | nil =>
      refine ⟨(0 : UInt8).toNat - k.toNat, ?_, ?_⟩
      · rw [List.length_cons, List.nil_append, List.cons_append, strncmp, if_pos hkey.1]
      · have hk : k.toNat ≠ 0 := fun h => hkey.1 (UInt8.toNat_inj.mp (by rw [h]; rfl))
        simp [hk]
    | cons b p =>
      rw [List.mem_cons, not_or] at hp
      rw [List.length_cons, List.cons_append, List.cons_append, strncmp]
      by_cases hb : b = k
      · rw [if_neg (not_not_intro hb), if_neg (Ne.symm hp.1)]
        obtain ⟨order, horder, hiff⟩ := ih hkey.2 hp.2
        refine ⟨order, horder, ?_⟩
        rw [hiff, List.cons_prefix_cons]
        simp [hb]
      · rw [if_pos hb]
        refine ⟨_, rfl, ?_⟩
        have hne : b.toNat ≠ k.toNat := fun h => hb (UInt8.toNat_inj.mp h)
        rw [List.cons_prefix_cons]
        constructor
        · intro h
          omega
        · rintro ⟨rfl, _⟩
          exact absurd rfl hb

theorem startsWith_eq :
    startsWith (some (p ++ 0 :: behind)) (some (key ++ [0])) = .ok (decide (key <+: p)) := by
  obtain ⟨order, horder, hiff⟩ := strncmp_key hkey hp behind
  have hlen : strlen (key ++ [0]) = .ok key.length := strlen_append_nul hkey []
  change (do
    let leadingLength ← strlen (key ++ [0])
    let order ← strncmp (p ++ 0 :: behind) (key ++ [0]) leadingLength
    .ok (decide (order = 0))) = _
  rw [hlen, ok_bind, horder, ok_bind]
  simp [hiff]

end Keys

/-- The most bytes that a line can denote behind a key. -/
def lineBytes : ℕ := (lineSize - 1 - inputKey.length) / 2

/-- The buffer holds the bytes in a block of its own, or is empty. -/
def Slot (heap : Heap) (buffer : HexBuffer) (bytes : Option (List UInt8)) (after : Heap) : Prop :=
  match bytes with
  | none => buffer = emptyBuffer ∧ after = heap
  | some bytes => ∃ a block, buffer = { bytes := some a, length := bytes.length } ∧
      block.take bytes.length = bytes ∧ block.length ≤ lineBytes ∧ heap a = none ∧
      after = heap.put a block

/-- The allocations for the bytes of a line succeed, also beside those of another line. -/
structure Supplied (alloc : Allocator) (heap : Heap) : Prop where
  entry : ∀ size ≤ lineBytes, alloc.malloc heap size ≠ none
  beside : ∀ a block, heap a = none → block.length ≤ lineBytes → ∀ size ≤ lineBytes,
    alloc.malloc (heap.put a block) size ≠ none

theorem Slot.supplied {alloc : Allocator} {heap after : Heap} {buffer : HexBuffer}
    {bytes : Option (List UInt8)} (h : Slot heap buffer bytes after)
    (supplied : Supplied alloc heap) : ∀ size ≤ lineBytes, alloc.malloc after size ≠ none := by
  cases bytes with
  | none =>
    rw [h.2]
    exact supplied.entry
  | some bytes =>
    obtain ⟨a, block, _, _, hfits, hfresh, rfl⟩ := h
    exact supplied.beside a block hfresh hfits

theorem Slot.freed {heap after : Heap} {buffer : HexBuffer} {bytes : Option (List UInt8)}
    (h : Slot heap buffer bytes after) : free after buffer.bytes = heap := by
  cases bytes with
  | none =>
    obtain ⟨rfl, rfl⟩ := h
    rfl
  | some bytes =>
    obtain ⟨a, block, rfl, _, _, hfresh, rfl⟩ := h
    exact Heap.free_put hfresh block

/-- Two buffers have different blocks, so it does not matter which was allocated first. -/
theorem Slot.exchange {heap mid after : Heap} {first second : HexBuffer}
    {bytes bytes' : Option (List UInt8)} (h : Slot heap first bytes mid)
    (h' : Slot mid second bytes' after) :
    ∃ mid', Slot heap second bytes' mid' ∧ Slot mid' first bytes after := by
  cases bytes with
  | none =>
    obtain ⟨rfl, rfl⟩ := h
    exact ⟨after, h', rfl, rfl⟩
  | some bytes =>
    cases bytes' with
    | none =>
      obtain ⟨rfl, rfl⟩ := h'
      exact ⟨heap, ⟨rfl, rfl⟩, h⟩
    | some bytes' =>
      obtain ⟨a, block, hbuffer, htake, hfits, hfresh, rfl⟩ := h
      obtain ⟨b, block', hbuffer', htake', hfits', hfresh', rfl⟩ := h'
      have hab : b ≠ a := by
        rintro rfl
        rw [Heap.put_self] at hfresh'
        cases hfresh'
      rw [Heap.put_of_ne heap hab] at hfresh'
      refine ⟨heap.put b block', ⟨b, block', hbuffer', htake', hfits', hfresh', rfl⟩,
        a, block, hbuffer, htake, hfits, ?_, ?_⟩
      · rw [Heap.put_of_ne heap hab.symm, hfresh]
      · exact Function.update_comm hab.symm _ _ _

/-- The newline that may end a piece is one more blank to the decoder. -/
theorem isHex_ignored_iff {r ending : List UInt8} (hr : newline ∉ r)
    (hending : ending = [] ∨ ending = [newline]) :
    IsHex ignored (r ++ ending) ↔ IsHex blanks r := by
  have hcore : IsHex ignored r ↔ IsHex blanks r := by
    have hblank : ∀ ch ∈ r, ch ∈ ignored ↔ ch ∈ blanks := by
      intro ch hch
      have hne : ch ≠ newline := fun h => hr (h ▸ hch)
      simp only [ignored, blanks, newline, List.mem_cons, List.not_mem_nil, or_false] at hne ⊢
      simp [hne]
    constructor
    · exact fun h => ⟨fun ch hch => (h.alphabet ch hch).imp_right (hblank ch hch).mp, h.paired⟩
    · exact fun h => ⟨fun ch hch => (h.alphabet ch hch).imp_right (hblank ch hch).mpr, h.paired⟩
  rcases hending with rfl | rfl
  · rw [List.append_nil, hcore]
  · rw [IsHex.append_blank (by decide) (by decide), hcore]

theorem denoted_ending {r ending : List UInt8} (hending : ending = [] ∨ ending = [newline]) :
    denoted (r ++ ending) = denoted r := by
  rcases hending with rfl | rfl
  · rw [List.append_nil]
  · rw [denoted, digits_append, show digits [newline] = [] by decide, List.append_nil, denoted]

/-- What a read of the loader finds: one piece, with the newline if the line ends there. -/
structure Reads (file : Stream) (q ending rest : List UInt8) (line : List UInt8) : Prop where
  line_free : newline ∉ q
  ended : ending = [] ∨ ending = [newline]
  split : file.rest = q ++ ending ++ rest
  nonempty : q ++ ending ≠ []
  pieces : cutLines file.rest = [q].filter (· ≠ []) ++ cutLines rest
  memory : ∃ behind, line = q ++ ending ++ 0 :: behind
  size : line.length = lineSize

theorem fgets_reads {line : List UInt8} {file : Stream} (hline : line.length = lineSize)
    (hfile : file.inputError = false) (hrest : file.rest ≠ []) :
    ∃ q ending rest line', Reads file q ending rest line' ∧
      fgets line lineSize file = .ok (some (line', { file with rest := rest })) := by
  have hstore (text : List UInt8) (htext : text.length ≤ lineSize - 1) :
      storeAll line 0 (text ++ [0]) = .ok (text ++ 0 :: line.drop (text.length + 1)) ∧
        (text ++ 0 :: line.drop (text.length + 1)).length = lineSize := by
    have hsize : (lineSize - 1) + 1 = lineSize := rfl
    constructor
    · rw [storeAll, if_pos (by rw [List.length_append, List.length_singleton]; omega),
        overwrite_zero, List.append_assoc, List.length_append, List.length_singleton]
      rfl
    · rw [List.length_append, List.length_cons, List.length_drop]
      omega
  have hread (text rest : List UInt8) (htext : text ≠ []) (hlen : text.length ≤ lineSize - 1)
      (heq : readPiece newline (lineSize - 1) file.rest = (text, rest)) :
      fgets line lineSize file =
        .ok (some (text ++ 0 :: line.drop (text.length + 1), { file with rest := rest })) := by
    rw [fgets, heq]
    dsimp only
    rw [if_neg htext, if_neg (by simp [hfile]), (hstore text hlen).1, ok_bind]
  rcases readPiece_cases newline (n := lineSize - 1) (by decide) hrest with
    ⟨q, rest, hq, hlen, hsplit, heq, hpieces⟩ | ⟨q, rest, hq, hne, hlen, hsplit, heq, hpieces⟩
  · have hlen' : (q ++ [newline]).length ≤ lineSize - 1 := by
      rw [List.length_append, List.length_singleton]
      omega
    refine ⟨q, [newline], rest, _, ⟨hq, Or.inr rfl, ?_, by simp, hpieces, ⟨_, rfl⟩,
      (hstore _ hlen').2⟩, hread _ _ (by simp) hlen' heq⟩
    rw [hsplit, List.append_assoc, List.singleton_append]
  · refine ⟨q, [], rest, _, ⟨hq, Or.inl rfl, by rw [hsplit, List.append_nil], by simp [hne], ?_,
      ⟨_, by rw [List.append_nil]⟩, (hstore q hlen).2⟩, hread q _ hne hlen heq⟩
    rw [cutLines, hpieces, List.filter_cons_of_pos (by simp [hne])]
    rfl

/-- The length of a line bounds what it denotes. -/
theorem Reads.denoted_le {file : Stream} {q ending rest line key : List UInt8}
    (h : Reads file q ending rest line) (hkey : IsKey key) :
    max 1 (denoted (q.drop key.length)).length ≤ lineBytes := by
  obtain ⟨behind, hline⟩ := h.memory
  have hlen := congrArg List.length hline
  rw [h.size, List.length_append, List.length_append, List.length_cons] at hlen
  have hkeylen : inputKey.length ≤ key.length := by
    rcases hkey with rfl | rfl <;> decide
  have hdigits : (digits (q.drop key.length)).length ≤ (q.drop key.length).length :=
    List.length_filterMap_le _ _
  rw [List.length_drop] at hdigits
  have hten : inputKey.length = 10 := rfl
  rw [denoted, bytesOf_length, lineBytes]
  rw [lineSize] at hlen ⊢
  omega

theorem prefix_ending {key q ending : List UInt8} (hkey : newline ∉ key)
    (hending : ending = [] ∨ ending = [newline]) : key <+: q ++ ending ↔ key <+: q := by
  rcases hending with rfl | rfl
  · rw [List.append_nil]
  · rw [List.prefix_concat_iff]
    constructor
    · rintro (rfl | h)
      · simp at hkey
      · exact h
    · exact Or.inr

section Pieces

variable {file : Stream} {q ending rest line key : List UInt8}
  (hreads : Reads file q ending rest line) (hnul : 0 ∉ q ++ ending)
include hreads hnul

theorem startsWith_reads (hkey : IsKey key) :
    startsWith (some line) (some (key ++ [0])) = .ok (decide (key <+: q)) := by
  obtain ⟨behind, rfl⟩ := hreads.memory
  obtain ⟨_, hterminated, hline⟩ := hkey.plain
  rw [startsWith_eq hterminated hnul]
  simp only [prefix_ending hline hreads.ended]

/-- The line behind the key replaces what the buffer held, if it is hexadecimal. -/
theorem reload_cases {alloc : Allocator} {mid heap : Heap} {buffer : HexBuffer}
    {bytes : Option (List UInt8)} (hslot : Slot mid buffer bytes heap)
    (supplied : ∀ size ≤ lineBytes, alloc.malloc mid size ≠ none) (hiskey : IsKey key)
    (hkey : key <+: q) :
    (IsHex blanks (q.drop key.length) ∧ ∃ parsed after,
      reload alloc heap line key.length buffer = .ok (0, parsed, after) ∧
      Slot mid parsed (some (denoted (q.drop key.length))) after) ∨
    (¬ IsHex blanks (q.drop key.length) ∧
      reload alloc heap line key.length buffer = .ok (-1, emptyBuffer, mid)) := by
  obtain ⟨behind, hline⟩ := hreads.memory
  have hroom := hreads.denoted_le hiskey
  obtain ⟨r, rfl⟩ := hkey
  rw [List.drop_left] at hroom ⊢
  rw [List.append_assoc] at hline hnul
  have hr : newline ∉ r := fun hmem => hreads.line_free (List.mem_append_right _ hmem)
  have hnul' : 0 ∉ r ++ ending := fun hmem => hnul (List.mem_append_right _ hmem)
  have hreload {rc : ℤ} {parsed : Option HexBuffer} {after : Heap}
      (hparse : parseHexBytes alloc mid (some (r ++ ending ++ 0 :: behind)) (some emptyBuffer) =
        .ok (rc, parsed, after)) :
      reload alloc heap line key.length buffer = .ok (rc, parsed.getD buffer, after) := by
    rw [List.append_assoc] at hparse
    rw [reload, freeHexBuffer]
    dsimp only
    rw [hslot.freed, hline, List.append_assoc, List.drop_left, hparse, ok_bind]
  by_cases hhex : IsHex blanks r
  · obtain ⟨a, block, hfresh, htake, hfits, hparse⟩ := parseHexBytes_accepts alloc hnul'
      ((isHex_ignored_iff hr hreads.ended).mpr hhex) behind emptyBuffer
      (supplied _ (by rwa [denoted_ending hreads.ended]))
    rw [denoted_ending hreads.ended] at htake hfits hparse
    exact Or.inl ⟨hhex, _, _, hreload hparse, a, block, rfl, htake, hfits.trans hroom, hfresh,
      rfl⟩
  · exact Or.inr ⟨hhex, hreload (parseHexBytes_rejects alloc mid hnul'
      (mt (isHex_ignored_iff hr hreads.ended).mp hhex) behind emptyBuffer)⟩

end Pieces

/-- What the loader has made of the lines so far, by what stood behind the two keys in them. -/
structure Loaded (heap : Heap) (ins exps : List (List UInt8)) (s : LoadState) : Prop where
  hex : ∀ r ∈ ins ++ exps, IsHex blanks r
  haveInput : s.haveInput = true ↔ ins ≠ []
  haveExpected : s.haveExpected = true ↔ exps ≠ []
  slots : ∃ mid, Slot heap s.expected (exps.getLast?.map denoted) mid ∧
    Slot mid s.input (ins.getLast?.map denoted) s.heap
  size : s.line.length = lineSize
  healthy : s.file.inputError = false

/-- The end of the loop, where `ins` and `exps` are from the lines of the whole file. -/
def Ends (heap : Heap) (ins exps : List (List UInt8)) (e : LoadEnd) : Prop :=
  match e with
  | .malformed _ _ _ => ¬ ∀ r ∈ ins ++ exps, IsHex blanks r
  | .finished s => Loaded heap ins exps s

section Steps

variable {alloc : Allocator} {heap : Heap} (supplied : Supplied alloc heap)
  {ins exps : List (List UInt8)} {s : LoadState} (h : Loaded heap ins exps s)
  {q ending rest line : List UInt8} (hreads : Reads s.file q ending rest line)
  (hfgets : fgets s.line lineSize s.file = .ok (some (line, { s.file with rest := rest })))
  (hnul : 0 ∉ q ++ ending)
include h hreads hfgets hnul

theorem loadBody_other (hinput : ¬ inputKey <+: q) (hexpected : ¬ expectedKey <+: q) :
    ∃ u, loadBody alloc s = .ok (.next u) ∧ u.file = { s.file with rest := rest } ∧
      Loaded heap ins exps u := by
  refine ⟨{ s with file := { s.file with rest := rest }, line := line }, ?_, rfl,
    h.hex, h.haveInput, h.haveExpected, h.slots, hreads.size, h.healthy⟩
  rw [loadBody, hfgets, ok_bind]
  dsimp only
  rw [startsWith_reads hreads hnul isKey_inputKey, ok_bind, if_neg (by simpa using hinput),
    startsWith_reads hreads hnul isKey_expectedKey, ok_bind, if_neg (by simpa using hexpected)]

include supplied

theorem loadBody_input (hinput : inputKey <+: q) :
    (∃ u, loadBody alloc s = .ok (.next u) ∧ u.file = { s.file with rest := rest } ∧
      Loaded heap (ins ++ [q.drop inputKey.length]) exps u) ∨
    ∃ i e after, loadBody alloc s = .ok (.done (.malformed i e after)) ∧
      ¬ IsHex blanks (q.drop inputKey.length) := by
  obtain ⟨mid, hexp, hin⟩ := h.slots
  have hstart := startsWith_reads hreads hnul isKey_inputKey
  rcases reload_cases hreads hnul hin (hexp.supplied supplied) isKey_inputKey hinput with
    ⟨hhex, parsed, after, hreload, hslot⟩ | ⟨hhex, hreload⟩
  · refine Or.inl ⟨{ s with
      file := { s.file with rest := rest }, line := line, input := parsed, haveInput := true
      heap := after }, ?_, rfl, ?_⟩
    · rw [loadBody, hfgets, ok_bind]
      dsimp only
      rw [hstart, ok_bind, if_pos (by simpa using hinput), hreload]
      rfl
    · constructor
      · simp only [List.forall_mem_append, List.forall_mem_singleton]
        exact ⟨⟨(List.forall_mem_append.mp h.hex).1, hhex⟩, (List.forall_mem_append.mp h.hex).2⟩
      · simp
      · exact h.haveExpected
      · exact ⟨mid, hexp, by rwa [List.getLast?_concat]⟩
      · exact hreads.size
      · exact h.healthy
  · refine Or.inr ⟨emptyBuffer, s.expected, mid, ?_, hhex⟩
    rw [loadBody, hfgets, ok_bind]
    dsimp only
    rw [hstart, ok_bind, if_pos (by simpa using hinput), hreload]
    rfl

theorem loadBody_expected (hinput : ¬ inputKey <+: q) (hexpected : expectedKey <+: q) :
    (∃ u, loadBody alloc s = .ok (.next u) ∧ u.file = { s.file with rest := rest } ∧
      Loaded heap ins (exps ++ [q.drop expectedKey.length]) u) ∨
    ∃ i e after, loadBody alloc s = .ok (.done (.malformed i e after)) ∧
      ¬ IsHex blanks (q.drop expectedKey.length) := by
  obtain ⟨_, hexp', hin'⟩ := h.slots
  obtain ⟨mid, hin, hexp⟩ := hexp'.exchange hin'
  have hstart := startsWith_reads hreads hnul isKey_inputKey
  have hstart' := startsWith_reads hreads hnul isKey_expectedKey
  rcases reload_cases hreads hnul hexp (hin.supplied supplied) isKey_expectedKey hexpected with
    ⟨hhex, parsed, after, hreload, hslot⟩ | ⟨hhex, hreload⟩
  · refine Or.inl ⟨{ s with
      file := { s.file with rest := rest }, line := line, expected := parsed
      haveExpected := true, heap := after }, ?_, rfl, ?_⟩
    · rw [loadBody, hfgets, ok_bind]
      dsimp only
      rw [hstart, ok_bind, if_neg (by simpa using hinput), hstart', ok_bind,
        if_pos (by simpa using hexpected), hreload]
      rfl
    · constructor
      · rw [← List.append_assoc]
        simp only [List.forall_mem_append, List.forall_mem_singleton]
        exact ⟨List.forall_mem_append.mp h.hex, hhex⟩
      · exact h.haveInput
      · simp
      · obtain ⟨mid', hexp₂, hin₂⟩ := hin.exchange hslot
        exact ⟨mid', by rwa [List.getLast?_concat], hin₂⟩
      · exact hreads.size
      · exact h.healthy
  · refine Or.inr ⟨s.input, emptyBuffer, mid, ?_, hhex⟩
    rw [loadBody, hfgets, ok_bind]
    dsimp only
    rw [hstart, ok_bind, if_neg (by simpa using hinput), hstart', ok_bind,
      if_pos (by simpa using hexpected), hreload]
    rfl

/-- A step adds what stands behind a key in its piece, or finds that it is not hexadecimal. -/
theorem loadBody_cases :
    (∃ u, loadBody alloc s = .ok (.next u) ∧ u.file = { s.file with rest := rest } ∧
      Loaded heap (ins ++ remainders inputKey [q]) (exps ++ remainders expectedKey [q]) u) ∨
    ∃ i e after, loadBody alloc s = .ok (.done (.malformed i e after)) ∧
      ∃ r ∈ remainders inputKey [q] ++ remainders expectedKey [q], ¬ IsHex blanks r := by
  by_cases hinput : inputKey <+: q
  · rw [remainders_cons_keyed hinput, remainders_cons_unkeyed (keys_disjoint hinput),
      remainders_nil, remainders_nil, List.append_nil]
    rcases loadBody_input supplied h hreads hfgets hnul hinput with
      hnext | ⟨i, e, after, hbody, hhex⟩
    · exact Or.inl hnext
    · exact Or.inr ⟨i, e, after, hbody, _, List.mem_singleton_self _, hhex⟩
  · rw [remainders_cons_unkeyed hinput, remainders_nil, List.append_nil]
    by_cases hexpected : expectedKey <+: q
    · rw [remainders_cons_keyed hexpected, remainders_nil]
      rcases loadBody_expected supplied h hreads hfgets hnul hinput hexpected with
        hnext | ⟨i, e, after, hbody, hhex⟩
      · exact Or.inl hnext
      · exact Or.inr ⟨i, e, after, hbody, _, List.mem_singleton_self _, hhex⟩
    · rw [remainders_cons_unkeyed hexpected, remainders_nil, List.append_nil]
      exact Or.inl (loadBody_other h hreads hfgets hnul hinput hexpected)

end Steps

theorem remainders_reads {file : Stream} {q ending rest line key : List UInt8}
    (hreads : Reads file q ending rest line) (hkey : IsKey key) :
    remainders key (cutLines file.rest) = remainders key [q] ++ remainders key (cutLines rest) := by
  rw [hreads.pieces, remainders_append, remainders_filter hkey.ne_nil]

theorem loadBody_eof {alloc : Allocator} {s : LoadState} (hrest : s.file.rest = []) :
    loadBody alloc s = .ok (.done (.finished s)) := by
  rw [loadBody, fgets, hrest, readPiece_nil]
  rfl

theorem load_run {alloc : Allocator} {heap : Heap} (supplied : Supplied alloc heap)
    {ins exps : List (List UInt8)} {s : LoadState} (h : Loaded heap ins exps s)
    (hnul : 0 ∉ s.file.rest) {bound : ℕ} (hbound : s.file.rest.length < bound) :
    ∃ e, run (loadBody alloc) bound s = .ok e ∧
      Ends heap (ins ++ remainders inputKey (cutLines s.file.rest))
        (exps ++ remainders expectedKey (cutLines s.file.rest)) e := by
  induction bound generalizing ins exps s with
  | zero => omega
  | succ bound ih =>
    by_cases hrest : s.file.rest = []
    · refine ⟨.finished s, run_done (loadBody_eof hrest) bound, ?_⟩
      rw [hrest, cutLines, pieces_nil]
      simpa [remainders, Ends] using h
    · obtain ⟨q, ending, rest, line, hreads, hfgets⟩ := fgets_reads h.size h.healthy hrest
      have hsplit := hreads.split
      have hlen : rest.length < s.file.rest.length := by
        have hpos := List.length_pos_iff.mpr hreads.nonempty
        rw [hsplit, List.length_append]
        omega
      have hpiece : 0 ∉ q ++ ending := fun hmem => hnul (hsplit ▸ List.mem_append_left _ hmem)
      have hbehind : 0 ∉ rest := fun hmem => hnul (hsplit ▸ List.mem_append_right _ hmem)
      rw [remainders_reads hreads isKey_inputKey, remainders_reads hreads isKey_expectedKey,
        ← List.append_assoc, ← List.append_assoc]
      rcases loadBody_cases supplied h hreads hfgets hpiece with
        ⟨u, hbody, hfile, hu⟩ | ⟨i, e, after, hbody, r, hr, hhex⟩
      · have hrest' : u.file.rest = rest := by rw [hfile]
        rw [run_next hbody, ← hrest']
        exact ih hu (by rwa [hrest']) (by rw [hrest']; omega)
      · refine ⟨_, run_done hbody bound, ?_⟩
        intro hall
        apply hhex (hall r _)
        simp only [List.mem_append] at hr ⊢
        tauto

/-- The buffer holds exactly the bytes. -/
def Holds (heap : Heap) (buffer : HexBuffer) (bytes : List UInt8) : Prop :=
  ∃ a block, buffer = { bytes := some a, length := bytes.length } ∧ heap a = some block ∧
    block.take bytes.length = bytes

theorem Slot.holds {heap after : Heap} {buffer : HexBuffer} {bytes : List UInt8}
    (h : Slot heap buffer (some bytes) after) : Holds after buffer bytes := by
  obtain ⟨a, block, hbuffer, htake, _, _, rfl⟩ := h
  exact ⟨a, block, hbuffer, Heap.put_self heap a block, htake⟩

theorem Holds.unique {heap : Heap} {buffer : HexBuffer} {bytes bytes' : List UInt8}
    (h : Holds heap buffer bytes) (h' : Holds heap buffer bytes') : bytes = bytes' := by
  obtain ⟨a, block, rfl, hlive, htake⟩ := h
  obtain ⟨a', block', hbuffer, hlive', htake'⟩ := h'
  obtain ⟨rfl, hlen⟩ : a = a' ∧ bytes.length = bytes'.length := by simpa using hbuffer
  obtain rfl : block = block' := Option.some.inj (hlive.symm.trans hlive')
  rw [← htake, ← htake', hlen]

/-- The buffers hold what the lines denote, of each kind the last one. -/
def HoldsCase (heap : Heap) (input expected : HexBuffer) (lines : List (List UInt8)) : Prop :=
  Holds heap input (bytesOf (lastDigits inputKey lines)) ∧
    Holds heap expected (bytesOf (lastDigits expectedKey lines))

theorem getLast?_denoted {ls : List (List UInt8)} (h : ls ≠ []) :
    ls.getLast?.map denoted = some (bytesOf (digits (ls.getLastD []))) := by
  rw [List.getLast?_eq_getLast_of_ne_nil h, List.getLastD_eq_getLast?,
    List.getLast?_eq_getLast_of_ne_nil h]
  rfl

theorem Loaded.holdsCase {heap : Heap} {ls : List (List UInt8)} {s : LoadState}
    (h : Loaded heap (remainders inputKey ls) (remainders expectedKey ls) s)
    (hin : remainders inputKey ls ≠ []) (hexp : remainders expectedKey ls ≠ []) :
    HoldsCase s.heap s.input s.expected ls := by
  obtain ⟨mid, hslot, hslot'⟩ := h.slots
  rw [getLast?_denoted hin] at hslot'
  rw [getLast?_denoted hexp] at hslot
  obtain ⟨_, _, hlast⟩ := hslot.exchange hslot'
  exact ⟨hslot'.holds, hlast.holds⟩

/-- The loader judges the lines as its buffer has cut them. -/
theorem loadCaseFile_cutLines {alloc : Allocator} {heap : Heap} (supplied : Supplied alloc heap)
    {fopen : Path → Option Stream} {path : Path} {contents : List UInt8}
    (hfile : fopen path = some { rest := contents, inputError := false })
    (hnul : 0 ∉ contents) :
    ∃ rc input expected after,
      loadCaseFile alloc fopen heap (some path) (some emptyBuffer) (some emptyBuffer) =
        .ok (rc, some input, some expected, after) ∧
      (rc = 0 ↔ InFormat (cutLines contents)) ∧
      (rc = 0 → HoldsCase after input expected (cutLines contents)) := by
  have hentry : Loaded heap [] []
      { file := { rest := contents, inputError := false }, line := alloc.fresh lineSize
        input := emptyBuffer, expected := emptyBuffer, haveInput := false, haveExpected := false
        heap := heap } := by
    constructor
    · simp
    · simp
    · simp
    · exact ⟨heap, ⟨rfl, rfl⟩, rfl, rfl⟩
    · dsimp only
      exact alloc.fresh_length lineSize
    · rfl
  obtain ⟨e, hrun, hends⟩ := load_run supplied hentry hnul (Nat.lt_succ_self _)
  rw [List.nil_append, List.nil_append] at hends
  cases e with
  | malformed input expected after =>
    refine ⟨-1, input, expected, after, ?_, ?_, fun h => absurd h (by decide)⟩
    · rw [loadCaseFile]
      simp only [hfile, hrun, ok_bind]
    · constructor
      · exact fun h => absurd h (by decide)
      · exact fun h => absurd h.hex hends
  | finished s =>
    have hload : loadCaseFile alloc fopen heap (some path) (some emptyBuffer) (some emptyBuffer) =
        .ok (if s.haveInput = true ∧ s.haveExpected = true then 0 else -1, some s.input,
          some s.expected, s.heap) := by
      rw [loadCaseFile]
      simp only [hfile, hrun, ok_bind, hends.healthy, Bool.false_eq_true, if_false]
      by_cases hboth : s.haveInput = true ∧ s.haveExpected = true
      · rw [if_neg (not_or.mpr ⟨not_not_intro hboth.1, not_not_intro hboth.2⟩), if_pos hboth]
      · rw [if_pos (not_and_or.mp hboth), if_neg hboth]
    have hboth : s.haveInput = true ∧ s.haveExpected = true ↔ InFormat (cutLines contents) := by
      rw [hends.haveInput, hends.haveExpected]
      exact ⟨fun h => ⟨h.1, h.2, hends.hex⟩, fun h => ⟨h.input, h.expected⟩⟩
    refine ⟨_, s.input, s.expected, s.heap, hload, ?_, fun h => ?_⟩
    · rw [← hboth]
      split_ifs with h
      · simp [h]
      · simp [h]
    · have hformat := hboth.mp (by by_contra hneg; rw [if_neg hneg] at h; cases h)
      exact hends.holdsCase hformat.input hformat.expected

end LeoUTF8.CaseLoading
