import LeoUTF8.OptionMapping

set_option autoImplicit false

/-!
# The decomposition functions under any options

Every write stays within the room of the destination, and what does not fit is counted only.
-/
namespace LeoUTF8.OptionDecomposition
open BoundedLoop CellStorage ScalarEncoding EngineTables EngineGraphemes EngineDecompose
open RecursiveExpansion CodePointMapping DecompositionCorrectness OptionMapping

/-- The state after items have been written as far as they fit. -/
def markedState (t : Utf8procData) (dst : Option ℕ) (cap : ℕ) (is : List Item)
    (s : DecomposeState) : DecomposeState :=
  { buffer := (written dst cap (marked t s.lastBoundclass is) s).buffer
    lastBoundclass := markState t s.lastBoundclass is }

def markedResult (t : Utf8procData) (dst : Option ℕ) (cap : ℕ) (s : DecomposeState) :
    Option (List Item) → Exec (ℤ × DecomposeState)
  | some is => .ok ((marked t s.lastBoundclass is).length, markedState t dst cap is s)
  | none => .error .bound

/-- A function that writes the items `is` with their grapheme breaks. -/
def WritesMarked (t : Utf8procData) (f : Option ℕ → ℤ → DecomposeState → Exec (ℤ × DecomposeState))
    (is : Option (List Item)) : Prop :=
  ∀ dst (cap : ℕ) s, Room dst cap s.buffer → f dst cap s = markedResult t dst cap s is

@[simp] theorem markedState_nil (t : Utf8procData) (dst : Option ℕ) (cap : ℕ)
    (s : DecomposeState) : markedState t dst cap [] s = s := by
  rw [markedState, marked_nil, written_nil]
  rfl

theorem room_markedState {t : Utf8procData} {dst : Option ℕ} {cap : ℕ} {s : DecomposeState}
    (room : Room dst cap s.buffer) (is : List Item) :
    Room dst cap (markedState t dst cap is s).buffer :=
  room_written room _

theorem markedState_append {t : Utf8procData} {dst : Option ℕ} {cap : ℕ} {s : DecomposeState}
    (room : Room dst cap s.buffer) (is js : List Item) :
    markedState t (dst.map (· + (marked t s.lastBoundclass is).length))
        (cap - (marked t s.lastBoundclass is).length) js (markedState t dst cap is s) =
      markedState t dst cap (is ++ js) s := by
  have h := written_written room (marked t s.lastBoundclass is)
    (marked t (markState t s.lastBoundclass is) js)
  have hbuffer := congrArg DecomposeState.buffer h
  simp only [markedState, marked_append, markState_append]
  rw [← hbuffer]
  rfl

theorem seqindexWriteLoop_marked {t : Utf8procData} {decomposeChar : DecomposeChar}
    {options : Utf8procOption} {g : Item → Option (List Item)} {n first : ℕ}
    (callee : ∀ c ∈ sequenceEntries t n first, WritesMarked t (decomposeChar c) (g ⟨options, c⟩))
    {dst : Option ℕ} {cap : ℕ} {s : DecomposeState} (room : Room dst cap s.buffer)
    (done : List Item) :
    seqindexWriteLoop t decomposeChar dst cap n first (marked t s.lastBoundclass done).length
        (markedState t dst cap done s) =
      markedResult t dst cap s
        ((collect g ((sequenceEntries t n first).map (Item.mk options))).map (done ++ ·)) := by
  induction n generalizing first done with
  | zero => simp [seqindexWriteLoop, sequenceEntries, collect, markedResult]
  | succ n ih =>
    generalize hlen : (marked t s.lastBoundclass done).length = len at *
    have hcap : (if (cap : ℤ) > len then (cap : ℤ) - len else 0) = ((cap - len : ℕ) : ℤ) := by
      split_ifs <;> omega
    have hroom := room_advance (room_markedState (t := t) room done) len
    have hcall := callee _ List.mem_cons_self _ _ _ hroom
    have hrest (done : List Item) := ih (fun c hc => callee c (List.mem_cons_of_mem _ hc)) done
    rw [seqindexWriteLoop]
    simp only [Int.toNat_natCast, hcap]
    rw [hcall]
    simp only [sequenceEntries, List.map_cons, collect]
    cases hg : g ⟨options, (seqindexDecodeEntry t first).1⟩ with
    | none => rfl
    | some out =>
      have htotal : (len : ℤ) +
          (marked t (markedState t dst cap done s).lastBoundclass out).length =
            (marked t s.lastBoundclass (done ++ out)).length := by
        rw [marked_append, List.length_append, hlen]
        push_cast
        rfl
      have hstate := markedState_append (t := t) room done out
      rw [hlen] at hstate
      simp only [markedResult, ok_bind, htotal, hstate]
      rw [if_neg (by omega), hrest]
      simp only [Option.bind_some, Option.map_map]
      congr 2
      funext l
      simp

theorem seqindexWriteCharDecomposed_marked {t : Utf8procData} {decomposeChar : DecomposeChar}
    {options : Utf8procOption} {g : Item → Option (List Item)} {seqindex : UInt16}
    (callee : ∀ c ∈ sequenceOf t seqindex, WritesMarked t (decomposeChar c) (g ⟨options, c⟩)) :
    WritesMarked t (seqindexWriteCharDecomposed t decomposeChar seqindex)
      (collect g ((sequenceOf t seqindex).map (Item.mk options))) := by
  intro dst cap s room
  have h := seqindexWriteLoop_marked callee room []
  have hid : ([] ++ · : List Item → List Item) = id := funext List.nil_append
  rw [marked_nil, markedState_nil, hid, Option.map_id, id_eq] at h
  exact h

/-- The jamo of a syllable are written without a look at grapheme breaks. -/
theorem jamo_plain (t : Utf8procData) (state : ℕ) (cs : List ℕ) :
    marked t state (cs.map (Item.mk 0)) = int32s cs ∧
      markState t state (cs.map (Item.mk 0)) = state := by
  have hplain : ∀ i ∈ cs.map (Item.mk 0), hasOption i.options utf8procCharbound = false := by
    intro i hi
    obtain ⟨c, _, rfl⟩ := List.mem_map.mp hi
    exact (by decide : hasOption 0 utf8procCharbound = false)
  obtain ⟨hcells, hstate⟩ := marked_plain t state hplain
  refine ⟨?_, hstate⟩
  rw [hcells, List.map_map]
  rfl

theorem writeHangul_marked {t : Utf8procData} {c : ℕ} (hc : IsHangulSyllable c) :
    WritesMarked t (writeHangul ((c : ℤ) - hangulSBase))
      (some ((hangulJamo c).map (Item.mk 0))) := by
  intro dst cap s room
  obtain ⟨hcells, hstate⟩ := jamo_plain t s.lastBoundclass (hangulJamo c)
  rw [writeHangul_writes hc dst cap s room, writeResult, markedResult, markedState, hcells,
    hstate, int32s_length]
  rfl

/-- The writes at the end of `utf8proc_decompose_char`. -/
def writeSelf (t : Utf8procData) (i : Item) (dst : Option ℕ) (bufsize : ℤ) (s : DecomposeState) :
    Exec (ℤ × DecomposeState) :=
  if hasOption i.options utf8procCharbound then
    let (boundary, state) := graphemeBreakExtended 0 (t.property i.code).boundclass 0
      (t.property i.code).indicConjunctBreak s.lastBoundclass
    let s := { s with lastBoundclass := state }
    if boundary then do
      let s ← storeWithin bufsize dst 0 (-1) s
      let s ← storeWithin bufsize dst 1 (i.code : ℤ) s
      .ok (2, s)
    else do
      let s ← storeWithin bufsize dst 0 (i.code : ℤ) s
      .ok (1, s)
  else do
    let s ← storeWithin bufsize dst 0 (i.code : ℤ) s
    .ok (1, s)

theorem writeSelf_marked (t : Utf8procData) (i : Item) :
    WritesMarked t (writeSelf t i) (some [i]) := by
  intro dst cap s room
  rw [writeSelf, markedResult, markedState, marked_singleton]
  by_cases hbound : hasOption i.options utf8procCharbound
  · simp only [hbound, if_true, markState, List.foldl_cons, List.foldl_nil, markOne]
    generalize graphemeBreakExtended 0 (t.property i.code).boundclass 0
      (t.property i.code).indicConjunctBreak s.lastBoundclass = answer
    obtain ⟨boundary, state⟩ := answer
    have hroom : Room dst cap ({ s with lastBoundclass := state } : DecomposeState).buffer := room
    cases boundary with
    | false =>
      simp only [Bool.false_eq_true, if_false]
      rw [storeWithin_writes _ hroom]
      rfl
    | true =>
      have hsecond := storeWithin_written hroom [-1] (i.code : ℤ)
      simp only [if_true]
      rw [storeWithin_writes _ hroom, ok_bind]
      rw [List.length_singleton] at hsecond
      rw [hsecond]
      rfl
  · rw [Bool.not_eq_true] at hbound
    rw [markOne_plain t _ hbound]
    simp only [hbound, Bool.false_eq_true, if_false]
    rw [storeWithin_writes _ room, ok_bind]
    have hstate : markState t s.lastBoundclass [i] = s.lastBoundclass := by
      change (markOne t s.lastBoundclass i).2 = _
      rw [markOne_plain t _ hbound]
    rw [hstate]
    rfl

section Exits

variable {t : Utf8procData} {depth : ℕ} {i : Item}

/-- The exits of the function for a code point that it accepts, in the order of its tests. -/
theorem utf8procDecomposeChar_exits (hi : Accepted t i) (dst : Option ℕ) (bufsize : ℤ)
    (s : DecomposeState) :
    utf8procDecomposeChar t (depth + 1) i.options i.code dst bufsize s =
      if IsSyllable i then writeHangul ((i.code : ℤ) - hangulSBase) dst bufsize s
      else if Dropped t i then .ok (0, s)
      else
        (lumped t i).elim
          (if Stripped t i then .ok (0, s)
            else if hasOption i.options utf8procCasefold ∧
                (t.property i.code).casefoldSeqindex ≠ uint16Max then
              seqindexWriteCharDecomposed t (utf8procDecomposeChar t depth i.options)
                (t.property i.code).casefoldSeqindex dst bufsize s
            else if Canonical i.options ∧ (t.property i.code).decompSeqindex ≠ uint16Max ∧
                ((t.property i.code).decompType = 0 ∨ hasOption i.options utf8procCompat) then
              seqindexWriteCharDecomposed t (utf8procDecomposeChar t depth i.options)
                (t.property i.code).decompSeqindex dst bufsize s
            else writeSelf t i dst bufsize s)
          fun r =>
            utf8procDecomposeChar t depth (i.options &&& ~~~ utf8procLump) r dst bufsize s := by
  obtain ⟨hlt, hrejected⟩ := hi
  have hsyllable : hasOption i.options (utf8procCompose ||| EngineTables.utf8procDecompose) ∧
      (i.code : ℤ) - hangulSBase ≥ 0 ∧ (i.code : ℤ) - hangulSBase < hangulSCount ↔
        IsSyllable i := by
    refine and_congr Iff.rfl ?_
    unfold IsHangulSyllable hangulSBase hangulSCount
    omega
  rw [utf8procDecomposeChar, if_neg (by omega), unsafeGetProperty_natCast t hlt]
  simp only [ok_bind, hsyllable]
  by_cases hs : IsSyllable i
  · rw [if_pos hs, if_pos hs]
  rw [if_neg hs, if_neg hs, if_neg (fun h => hrejected ⟨hs, h.1, h.2⟩)]
  by_cases hdropped : Dropped t i
  · rw [if_pos hdropped]
    by_cases hignore : hasOption i.options utf8procIgnore ∧ (t.property i.code).ignorable
    · rw [if_pos hignore]
    · rw [if_neg hignore, if_pos (hdropped.resolve_left hignore)]
  rw [if_neg hdropped, if_neg fun h => hdropped (Or.inl h), if_neg fun h => hdropped (Or.inr h)]
  have hlumped : lumpReplacement (t.property i.code).category i.code i.options = lumped t i := rfl
  rw [hlumped]
  cases lumped t i with
  | some r => rfl
  | none => rfl

theorem writesMarked_nothing (t : Utf8procData) :
    WritesMarked t (fun _ _ s => .ok (0, s)) (some []) := by
  intro dst cap s _
  rw [markedResult, markedState_nil]
  rfl

/-- An item without an entry is written as what it becomes. -/
theorem writesMarked_terminal
    {f : Option ℕ → ℤ → DecomposeState → Exec (ℤ × DecomposeState)} {is : List Item}
    (he : itemEntry t i = none) (hterminal : itemTerminal t i = is)
    (h : WritesMarked t f (some is)) :
    WritesMarked t f (expandWithin (itemEntry t) (itemTerminal t) (depth + 1) i) := by
  rwa [expandWithin_of_none _ _ he, hterminal]

theorem writes_syllable (hs : IsSyllable i) :
    WritesMarked t (writeHangul ((i.code : ℤ) - hangulSBase))
      (expandWithin (itemEntry t) (itemTerminal t) (depth + 1) i) :=
  writesMarked_terminal (if_pos (Or.inl hs)) (if_pos hs) (writeHangul_marked hs.2)

theorem writes_dropped (hs : ¬ IsSyllable i) (hdropped : Dropped t i) :
    WritesMarked t (fun _ _ s => .ok (0, s))
      (expandWithin (itemEntry t) (itemTerminal t) (depth + 1) i) := by
  apply writesMarked_terminal (if_pos (Or.inr hdropped)) _ (writesMarked_nothing t)
  rw [itemTerminal, if_neg hs, if_pos (Or.inl hdropped)]

variable (hkept : ¬ (IsSyllable i ∨ Dropped t i))

include hkept in
theorem writes_stripped (hlumped : lumped t i = none) (hstripped : Stripped t i) :
    WritesMarked t (fun _ _ s => .ok (0, s))
      (expandWithin (itemEntry t) (itemTerminal t) (depth + 1) i) := by
  apply writesMarked_terminal _ _ (writesMarked_nothing t)
  · rw [itemEntry, if_neg hkept, hlumped]
    exact if_pos hstripped
  · rw [itemTerminal, if_neg (not_or.mp hkept).1, if_pos (Or.inr hstripped)]

include hkept in
/-- Behind the other tests an item has the entry of one of the tables. -/
theorem itemEntry_table (hlumped : lumped t i = none) (hstripped : ¬ Stripped t i) :
    itemEntry t i =
      if hasOption i.options utf8procCasefold ∧
          (t.property i.code).casefoldSeqindex ≠ uint16Max then
        some ((sequenceOf t (t.property i.code).casefoldSeqindex).map (Item.mk i.options))
      else if Canonical i.options ∧ (t.property i.code).decompSeqindex ≠ uint16Max ∧
          ((t.property i.code).decompType = 0 ∨ hasOption i.options utf8procCompat) then
        some ((sequenceOf t (t.property i.code).decompSeqindex).map (Item.mk i.options))
      else none := by
  rw [itemEntry, if_neg hkept, hlumped]
  dsimp only
  rw [if_neg hstripped]
  by_cases hfold : hasOption i.options utf8procCasefold ∧
      (t.property i.code).casefoldSeqindex ≠ uint16Max
  · rw [if_pos hfold, if_pos hfold, foldEntry, if_pos hfold.2]
    rfl
  rw [if_neg hfold, if_neg hfold]
  by_cases hcanonical : Canonical i.options
  · rw [if_pos hcanonical, mappingEntry]
    simp only [hcanonical, true_and]
    split_ifs <;> rfl
  · rw [if_neg hcanonical, if_neg fun h => hcanonical h.1]

include hkept in
theorem writes_self (hstripped : ¬ Stripped t i) (he : itemEntry t i = none) :
    WritesMarked t (writeSelf t i)
      (expandWithin (itemEntry t) (itemTerminal t) (depth + 1) i) := by
  apply writesMarked_terminal he _ (writeSelf_marked t i)
  rw [itemTerminal, if_neg (not_or.mp hkept).1,
    if_neg (not_or.mpr ⟨(not_or.mp hkept).2, hstripped⟩)]

variable (tables : OptionTables t) (hlt : i.code < 0x110000)
  (callee : ∀ j : Item, Accepted t j → WritesMarked t (utf8procDecomposeChar t depth j.options
    j.code) (expandWithin (itemEntry t) (itemTerminal t) depth j))
include tables hlt callee

/-- An entry is written by the calls one level further down. -/
theorem writes_entry {seqindex : UInt16}
    (he : itemEntry t i = some ((sequenceOf t seqindex).map (Item.mk i.options))) :
    WritesMarked t
      (seqindexWriteCharDecomposed t (utf8procDecomposeChar t depth i.options) seqindex)
      (expandWithin (itemEntry t) (itemTerminal t) (depth + 1) i) := by
  rw [expandWithin_of_some _ _ he]
  apply seqindexWriteCharDecomposed_marked
  intro c hc
  exact callee ⟨i.options, c⟩ (accepted_entry tables hlt he _ (List.mem_map_of_mem hc))

include hkept in
theorem writes_lumped {r : ℤ} (hlumped : lumped t i = some r) :
    WritesMarked t (utf8procDecomposeChar t depth (i.options &&& ~~~ utf8procLump) r)
      (expandWithin (itemEntry t) (itemTerminal t) (depth + 1) i) := by
  obtain ⟨_, _, hr⟩ := lumpReplacement_target hlumped
  have he : itemEntry t i = some [⟨i.options &&& ~~~ utf8procLump, r.toNat⟩] := by
    rw [itemEntry, if_neg hkept, hlumped]
  have hcall := callee _ (accepted_entry tables hlt he _ (List.mem_singleton_self _))
  rw [expandWithin_of_some _ _ he, collect_singleton]
  rwa [hr] at hcall

end Exits

/-- The call writes the expansion of the item; each exit writes its part. -/
theorem utf8procDecomposeChar_marked {t : Utf8procData} (tables : OptionTables t) (depth : ℕ)
    {i : Item} (hi : Accepted t i) :
    WritesMarked t (utf8procDecomposeChar t depth i.options i.code)
      (expandWithin (itemEntry t) (itemTerminal t) depth i) := by
  induction depth generalizing i with
  | zero =>
    intro dst cap s room
    rfl
  | succ depth ih =>
    intro dst cap s room
    have callee (j : Item) (hj : Accepted t j) := ih hj
    rw [utf8procDecomposeChar_exits hi]
    by_cases hs : IsSyllable i
    · rw [if_pos hs]
      exact writes_syllable hs dst cap s room
    rw [if_neg hs]
    by_cases hdropped : Dropped t i
    · rw [if_pos hdropped]
      exact writes_dropped hs hdropped dst cap s room
    rw [if_neg hdropped]
    have hkept := not_or.mpr ⟨hs, hdropped⟩
    cases hlumped : lumped t i with
    | some r => exact writes_lumped hkept tables hi.1 callee hlumped dst cap s room
    | none =>
      rw [Option.elim_none]
      by_cases hstripped : Stripped t i
      · rw [if_pos hstripped]
        exact writes_stripped hkept hlumped hstripped dst cap s room
      rw [if_neg hstripped]
      have he := itemEntry_table hkept hlumped hstripped
      split_ifs at he ⊢
      · exact writes_entry tables hi.1 callee he dst cap s room
      · exact writes_entry tables hi.1 callee he dst cap s room
      · exact writes_self hkept hstripped he dst cap s room

end LeoUTF8.OptionDecomposition
