import LeoUTF8.CellReordering
import LeoUTF8.LineCutting
import LeoUTF8.OptionDecomposition
import LeoUTF8.TerminatedText

set_option autoImplicit false

/-!
# One pass of utf8proc_decompose_custom under any options

The input loop over text with a length or a NUL, with or without a custom function, and the
reordering loop over code points and marks of grapheme breaks.
-/
namespace LeoUTF8.OptionPass
open BoundedLoop CellStorage ScalarEncoding EngineTables EngineCodec EngineGraphemes
open EngineDecompose RecursiveExpansion RunSorting CodecCorrectness TerminatedText
open CodePointMapping DecompositionCorrectness OptionMapping OptionDecomposition CellReordering

/-- The bytes that a pass decodes. -/
def inputText (options : Utf8procOption) (mem : List UInt8) (strlen : ℤ) : List UInt8 :=
  if hasOption options utf8procNullterm then mem.takeWhile (· ≠ 0) else mem.take strlen.toNat

/-- The bytes are inside the object, with their NUL where it ends them. -/
def Readable (options : Utf8procOption) (mem : List UInt8) (strlen : ℤ) : Prop :=
  if hasOption options utf8procNullterm then 0 ∈ mem else strlen.toNat ≤ mem.length

instance (options : Utf8procOption) (mem : List UInt8) (strlen : ℤ) :
    Decidable (Readable options mem strlen) :=
  inferInstanceAs
    (Decidable (if hasOption options utf8procNullterm then _ ∈ mem else _ ≤ mem.length))

/-- The code point after the custom function, if there is one. -/
def customized (customFunc : Option (ℤ → ℤ)) (uc : ℤ) : ℤ :=
  match customFunc with
  | some f => f uc
  | none => uc

/-- The call for the value returns an error code. -/
def Refused (t : Utf8procData) (options : Utf8procOption) (uc : ℤ) : Prop :=
  uc < 0 ∨ uc ≥ 0x110000 ∨ Rejected t ⟨options, uc.toNat⟩

instance (t : Utf8procData) (options : Utf8procOption) (uc : ℤ) :
    Decidable (Refused t options uc) := inferInstanceAs (Decidable (_ ∨ _))

/-- The items of a list of values. -/
def allItems (t : Utf8procData) (options : Utf8procOption) (us : List ℤ) : List Item :=
  us.flatMap fun uc => items t ⟨options, uc.toNat⟩

@[simp] theorem allItems_append (t : Utf8procData) (options : Utf8procOption) (us vs : List ℤ) :
    allItems t options (us ++ vs) = allItems t options us ++ allItems t options vs :=
  List.flatMap_append

theorem allItems_singleton (t : Utf8procData) (options : Utf8procOption) (uc : ℤ) :
    allItems t options [uc] = items t ⟨options, uc.toNat⟩ := by
  rw [allItems, List.flatMap_singleton]

theorem accepted_of_not_refused {t : Utf8procData} {options : Utf8procOption} {uc : ℤ}
    (h : ¬ Refused t options uc) :
    Accepted t ⟨options, uc.toNat⟩ ∧ ((uc.toNat : ℕ) : ℤ) = uc := by
  unfold Refused at h
  have hlow : 0 ≤ uc := by
    by_contra hneg
    exact h (Or.inl (by omega))
  have hhigh : uc < 0x110000 := by
    by_contra hneg
    exact h (Or.inr (Or.inl (by omega)))
  exact ⟨⟨show uc.toNat < 0x110000 by omega, fun hr => h (Or.inr (Or.inr hr))⟩, by omega⟩

theorem utf8procDecomposeChar_refused {t : Utf8procData} {options : Utf8procOption} {uc : ℤ}
    (h : Refused t options uc) (dst : Option ℕ) (bufsize : ℤ) (s : DecomposeState) :
    utf8procDecomposeChar t decomposeDepth options uc dst bufsize s =
      .ok (utf8procErrorNotassigned, s) := by
  rw [decomposeDepth, utf8procDecomposeChar]
  by_cases hrange : uc < 0 ∨ uc ≥ 0x110000
  · rw [if_pos hrange]
  obtain ⟨hs, hreject⟩ : Rejected t ⟨options, uc.toNat⟩ := by
    unfold Refused at h
    tauto
  obtain ⟨c, rfl⟩ : ∃ c : ℕ, uc = c := ⟨uc.toNat, by omega⟩
  rw [Int.toNat_natCast] at hs hreject
  rw [if_neg hrange, unsafeGetProperty_natCast t (by omega), ok_bind]
  have hsyllable : ¬ (hasOption options (utf8procCompose ||| EngineTables.utf8procDecompose) ∧
      (c : ℤ) - hangulSBase ≥ 0 ∧ (c : ℤ) - hangulSBase < hangulSCount) := by
    rintro ⟨hcanonical, hlow, hhigh⟩
    unfold hangulSBase hangulSCount at *
    exact hs ⟨hcanonical, show 0xAC00 ≤ c by omega, show c < 0xAC00 + 11172 by omega⟩
  simp only
  rw [if_neg hsyllable, if_pos hreject]

/-- The conversion of one value inside the input loop. -/
def convertBody (pf : Platform) (t : Utf8procData) (base : Option ℕ) (bufsize : ℤ)
    (options : Utf8procOption) (s : ScanState) (rpos uc : ℤ) :
    Exec (Step ScanState ScanResult) := do
  let (result, decomposed) ← utf8procDecomposeChar t decomposeDepth options uc
    (base.map (· + s.wpos.toNat)) (if bufsize > s.wpos then bufsize - s.wpos else 0) s.decomposed
  if result < 0 then .ok (.done (.failed result decomposed.buffer))
  else
    let wpos := s.wpos + result
    if wpos < 0 ∨ wpos > pf.codepointMax then
      .ok (.done (.failed utf8procErrorOverflow decomposed.buffer))
    else .ok (.next { rpos := rpos, wpos := wpos, decomposed := decomposed })

section Read

variable {pf : Platform} {t : Utf8procData} {options : Utf8procOption} {mem : List UInt8}
  {strlen : ℤ} {base : Option ℕ} {bufsize : ℤ} {customFunc : Option (ℤ → ℤ)} {s : ScanState}
  {p : ℕ} (readable : Readable options mem strlen) (hrpos : s.rpos = p)

theorem inputText_length_le (options : Utf8procOption) (mem : List UInt8) (strlen : ℤ) :
    (inputText options mem strlen).length ≤ mem.length := by
  unfold inputText
  split_ifs
  · exact (List.takeWhile_prefix _).length_le
  · rw [List.length_take]
    omega

include readable in
/-- A text that a NUL ends stands before it. -/
theorem split_at_nul (hnull : hasOption options utf8procNullterm = true) :
    0 ∉ inputText options mem strlen ∧
      ∃ rest, mem = inputText options mem strlen ++ 0 :: rest := by
  rw [Readable, if_pos hnull] at readable
  rw [inputText, if_pos hnull]
  obtain ⟨text, rest, rfl, htext⟩ := List.eq_append_cons_of_mem readable
  rw [LineCutting.takeWhile_line htext]
  exact ⟨htext, rest, rfl⟩

include readable hrpos

theorem scanBody_end (hp : p = (inputText options mem strlen).length) :
    scanBody pf t mem strlen base bufsize options customFunc s =
      .ok (.done (.finished s.wpos s.decomposed.buffer)) := by
  rw [scanBody, hrpos]
  cases hnull : hasOption options utf8procNullterm with
  | true =>
    obtain ⟨_, rest, hmem⟩ := split_at_nul readable hnull
    have hdrop : mem.drop p = [] ++ 0 :: rest := by
      rw [hmem, hp, List.drop_left]
      rfl
    have hstep : iterateResult (decodeHead ([] ++ [0])) = (1, 0) := rfl
    simp only [if_true, Int.toNat_natCast]
    rw [utf8procIterate_terminated hdrop, hstep, ok_bind]
    simp only
    rw [if_neg (by omega), if_neg (by omega), if_pos trivial]
  | false =>
    rw [inputText, hnull] at hp
    rw [Readable, hnull] at readable
    simp only [Bool.false_eq_true, if_false] at hp readable ⊢
    rw [List.length_take_of_le readable] at hp
    rw [if_pos (by omega)]

theorem scanBody_decode (hp : p < (inputText options mem strlen).length) :
    scanBody pf t mem strlen base bufsize options customFunc s =
      match decodeHead ((inputText options mem strlen).drop p) with
      | none => .ok (.done (.failed utf8procErrorInvalidutf8 s.decomposed.buffer))
      | some (c, n) =>
        convertBody pf t base bufsize options s ((p : ℤ) + n) (customized customFunc c) := by
  rw [scanBody, hrpos]
  cases hnull : hasOption options utf8procNullterm with
  | true =>
    obtain ⟨hzero, rest, hmem⟩ := split_at_nul readable hnull
    generalize inputText options mem strlen = l at *
    have hdrop : mem.drop p = l.drop p ++ 0 :: rest := by
      rw [hmem, List.drop_append_of_le_length (by omega)]
    have hne : l.drop p ≠ [] := fun h => by
      have := List.drop_eq_nil_iff.mp h
      omega
    simp only [if_true, Int.toNat_natCast]
    rw [utf8procIterate_terminated hdrop, decodeHead_append_zero hne]
    cases hd : decodeHead (l.drop p) with
    | none => rfl
    | some r =>
      obtain ⟨c, n⟩ := r
      have hc := decodeHead_ne_zero (fun h => hzero (List.mem_of_mem_drop h)) hd
      simp only [iterateResult, ok_bind]
      rw [if_neg (by omega), if_neg (by omega), if_neg (by omega)]
      rfl
  | false =>
    rw [Readable, hnull] at readable
    rw [inputText, hnull] at hp ⊢
    simp only [Bool.false_eq_true, if_false, Int.toNat_natCast] at hp readable ⊢
    rw [List.length_take_of_le readable] at hp
    obtain ⟨length, rfl⟩ : ∃ length : ℕ, strlen = length := ⟨strlen.toNat, by omega⟩
    rw [Int.toNat_natCast] at *
    rw [if_neg (by omega), utf8procIterate_remaining readable hp]
    cases hd : decodeHead ((mem.take length).drop p) with
    | none => rfl
    | some r =>
      obtain ⟨c, n⟩ := r
      simp only [iterateResult, ok_bind]
      rw [if_neg (by omega)]
      rfl

end Read

/-- The values of the input that the engine does not refuse, up to the first that it does. -/
def acceptedValues (t : Utf8procData) (options : Utf8procOption) (us : List ℤ) : List ℤ :=
  us.takeWhile fun uc => ¬ Refused t options uc

/-- The values that the input loop converts. -/
def inputValues (customFunc : Option (ℤ → ℤ)) (l : List UInt8) : List ℤ :=
  (decode l).1.map fun c : ℕ => customized customFunc c

/-- The cells for a list of values, before reordering. -/
def cellsOf (t : Utf8procData) (options : Utf8procOption) (us : List ℤ) : List ℤ :=
  marked t boundclassStart (allItems t options us)

/-- How the input loop ends. A count over the limit is noticed before a refused value behind
it, and that before a malformed sequence at the end. -/
def ScanOutcome (pf : Platform) (t : Utf8procData) (options : Utf8procOption) (us : List ℤ)
    (rest : List UInt8) (base : Option ℕ) (cap : ℕ) (buffer : List ℤ) (r : ScanResult) : Prop :=
  if pf.codepointMax < (cellsOf t options (acceptedValues t options us)).length then
    ∃ cells, r = .failed utf8procErrorOverflow cells
  else if ∃ uc ∈ us, Refused t options uc then ∃ cells, r = .failed utf8procErrorNotassigned cells
  else if rest = [] then
    r = .finished (cellsOf t options us).length
      (overwrite buffer (base.getD 0) ((cellsOf t options us).take cap))
  else ∃ cells, r = .failed utf8procErrorInvalidutf8 cells

theorem acceptedValues_of_all {t : Utf8procData} {options : Utf8procOption} {us : List ℤ}
    (h : ∀ uc ∈ us, ¬ Refused t options uc) : acceptedValues t options us = us := by
  rw [acceptedValues, List.takeWhile_eq_self_iff]
  simpa using h

theorem acceptedValues_append {t : Utf8procData} {options : Utf8procOption} {us : List ℤ}
    (h : ∀ uc ∈ us, ¬ Refused t options uc) (vs : List ℤ) :
    acceptedValues t options (us ++ vs) = us ++ acceptedValues t options vs := by
  rw [acceptedValues, List.takeWhile_append_of_pos (by simpa using h)]
  rfl

theorem cellsOf_append_length (t : Utf8procData) (options : Utf8procOption) (us vs : List ℤ) :
    (cellsOf t options us).length ≤ (cellsOf t options (us ++ vs)).length := by
  rw [cellsOf, cellsOf, allItems_append, marked_append, List.length_append]
  omega

/-- The values `us` have been read from `p` bytes of the text `l` and converted. -/
structure Scanned (pf : Platform) (t : Utf8procData) (options : Utf8procOption)
    (customFunc : Option (ℤ → ℤ)) (l : List UInt8) (base : Option ℕ) (cap : ℕ)
    (s : DecomposeState) (p : ℕ) (us : List ℤ) (u : ScanState) : Prop where
  rpos : u.rpos = p
  wpos : u.wpos = (cellsOf t options us).length
  decomposed : u.decomposed = markedState t base cap (allItems t options us) s
  inside : p ≤ l.length
  count : (cellsOf t options us).length ≤ pf.codepointMax
  values : inputValues customFunc l = us ++ inputValues customFunc (l.drop p)
  rest : (decode l).2 = (decode (l.drop p)).2
  accepted : ∀ uc ∈ us, ¬ Refused t options uc

section Convert

variable {pf : Platform} {t : Utf8procData} {options : Utf8procOption}
  {customFunc : Option (ℤ → ℤ)} {l : List UInt8} {base : Option ℕ} {cap : ℕ}
  {s : DecomposeState} {p : ℕ} {us : List ℤ} {u : ScanState}

theorem convertBody_refused {uc : ℤ} (h : Refused t options uc) (rpos : ℤ) :
    convertBody pf t base cap options u rpos uc =
      .ok (.done (.failed utf8procErrorNotassigned u.decomposed.buffer)) := by
  rw [convertBody, utf8procDecomposeChar_refused h]
  rfl

theorem convertBody_accepted (tables : OptionTables t) (room : Room base cap s.buffer)
    (hstart : s.lastBoundclass = boundclassStart)
    (hu : Scanned pf t options customFunc l base cap s p us u) {uc : ℤ}
    (h : ¬ Refused t options uc) (rpos : ℤ) :
    convertBody pf t base cap options u rpos uc =
      if pf.codepointMax < (cellsOf t options (us ++ [uc])).length then
        .ok (.done (.failed utf8procErrorOverflow
          (markedState t base cap (allItems t options (us ++ [uc])) s).buffer))
      else .ok (.next
        { rpos := rpos
          wpos := (cellsOf t options (us ++ [uc])).length
          decomposed := markedState t base cap (allItems t options (us ++ [uc])) s }) := by
  obtain ⟨haccepted, hnat⟩ := accepted_of_not_refused h
  have hcells : marked t s.lastBoundclass (allItems t options us) = cellsOf t options us := by
    rw [hstart]
    rfl
  have happend := markedState_append (t := t) room (allItems t options us)
    (items t ⟨options, uc.toNat⟩)
  have hwrites := utf8procDecomposeChar_marked tables decomposeDepth haccepted
    (base.map (· + (cellsOf t options us).length)) (cap - (cellsOf t options us).length) _
    (room_advance (room_markedState (t := t) room (allItems t options us)) _)
  have hcap : (if (cap : ℤ) > (cellsOf t options us).length then
      (cap : ℤ) - (cellsOf t options us).length else 0) =
        ((cap - (cellsOf t options us).length : ℕ) : ℤ) := by
    split_ifs <;> omega
  have hlength : (((cellsOf t options us).length : ℕ) : ℤ) +
      (marked t (markedState t base cap (allItems t options us) s).lastBoundclass
        (items t ⟨options, uc.toNat⟩)).length = (cellsOf t options (us ++ [uc])).length := by
    rw [cellsOf, cellsOf, allItems_append, marked_append, List.length_append, ← hstart,
      allItems_singleton]
    push_cast
    rfl
  rw [hcells] at happend
  simp only [hnat] at hwrites
  rw [convertBody]
  simp only [hu.wpos, hu.decomposed, Int.toNat_natCast, hcap]
  rw [hwrites, items_eq tables haccepted.1]
  simp only [markedResult, ok_bind, happend, hlength]
  rw [if_neg (by omega), allItems_append, allItems_singleton]
  by_cases hover : pf.codepointMax < (cellsOf t options (us ++ [uc])).length
  · rw [if_pos hover, if_pos (Or.inr (by omega))]
  · rw [if_neg hover, if_neg (by omega)]

/-- What stands at the head of the text that is left is the next value. -/
theorem scanned_values (hu : Scanned pf t options customFunc l base cap s p us u) {c n : ℕ}
    (hd : decodeHead (l.drop p) = some (c, n)) :
    inputValues customFunc l =
      us ++ [customized customFunc c] ++ inputValues customFunc (l.drop (p + n)) := by
  rw [hu.values, inputValues, decode_of_some hd, List.map_cons, List.append_assoc, List.drop_drop]
  rfl

theorem scanned_next (hu : Scanned pf t options customFunc l base cap s p us u) {c n : ℕ}
    (hd : decodeHead (l.drop p) = some (c, n))
    (h : ¬ Refused t options (customized customFunc c))
    (hcount : (cellsOf t options (us ++ [customized customFunc c])).length ≤ pf.codepointMax) :
    Scanned pf t options customFunc l base cap s (p + n) (us ++ [customized customFunc c])
      { rpos := (p : ℤ) + n
        wpos := (cellsOf t options (us ++ [customized customFunc c])).length
        decomposed :=
          markedState t base cap (allItems t options (us ++ [customized customFunc c])) s } := by
  have hn := (decodeHead_bounds hd).2
  have hinside := hu.inside
  rw [List.length_drop] at hn
  refine ⟨rfl, rfl, rfl, by omega, hcount, scanned_values hu hd, ?_, ?_⟩
  · rw [hu.rest, decode_of_some hd, List.drop_drop]
  · intro uc huc
    rcases List.mem_append.mp huc with huc | huc
    · exact hu.accepted uc huc
    · exact List.mem_singleton.mp huc ▸ h

theorem scanOutcome_refused (hu : Scanned pf t options customFunc l base cap s p us u) {c n : ℕ}
    (hd : decodeHead (l.drop p) = some (c, n)) (h : Refused t options (customized customFunc c))
    (buffer : List ℤ) :
    ScanOutcome pf t options (inputValues customFunc l) (decode l).2 base cap s.buffer
      (.failed utf8procErrorNotassigned buffer) := by
  have hcount := hu.count
  have hstop : acceptedValues t options (customized customFunc c ::
      inputValues customFunc (l.drop (p + n))) = [] := by
    rw [acceptedValues, List.takeWhile_cons_of_neg]
    simpa using h
  rw [ScanOutcome, scanned_values hu hd, List.append_assoc, List.singleton_append,
    acceptedValues_append hu.accepted, hstop, List.append_nil, if_neg (by omega), if_pos]
  · exact ⟨_, rfl⟩
  · exact ⟨customized customFunc c, by simp, h⟩

theorem scanOutcome_overflow (hu : Scanned pf t options customFunc l base cap s p us u) {c n : ℕ}
    (hd : decodeHead (l.drop p) = some (c, n)) (h : ¬ Refused t options (customized customFunc c))
    (hover : pf.codepointMax < (cellsOf t options (us ++ [customized customFunc c])).length)
    (buffer : List ℤ) :
    ScanOutcome pf t options (inputValues customFunc l) (decode l).2 base cap s.buffer
      (.failed utf8procErrorOverflow buffer) := by
  have haccepted : ∀ uc ∈ us ++ [customized customFunc c], ¬ Refused t options uc := by
    intro uc huc
    rcases List.mem_append.mp huc with huc | huc
    · exact hu.accepted uc huc
    · exact List.mem_singleton.mp huc ▸ h
  have hle := cellsOf_append_length t options (us ++ [customized customFunc c])
    (acceptedValues t options (inputValues customFunc (l.drop (p + n))))
  rw [ScanOutcome, scanned_values hu hd, acceptedValues_append haccepted, if_pos (by omega)]
  exact ⟨_, rfl⟩

theorem scanOutcome_malformed (hu : Scanned pf t options customFunc l base cap s p us u)
    (hp : p < l.length) (hd : decodeHead (l.drop p) = none) (buffer : List ℤ) :
    ScanOutcome pf t options (inputValues customFunc l) (decode l).2 base cap s.buffer
      (.failed utf8procErrorInvalidutf8 buffer) := by
  have hcount := hu.count
  have hvalues := hu.values
  have hrest := hu.rest
  have hnone : inputValues customFunc (l.drop p) = [] := by
    rw [inputValues, decode_of_none hd]
    rfl
  have hne : l.drop p ≠ [] := fun h => by
    have := List.drop_eq_nil_iff.mp h
    omega
  rw [hnone, List.append_nil] at hvalues
  rw [decode_of_none hd] at hrest
  rw [ScanOutcome, hvalues, acceptedValues_of_all hu.accepted, if_neg (by omega), if_neg, hrest,
    if_neg hne]
  · exact ⟨_, rfl⟩
  · rintro ⟨uc, huc, h⟩
    exact hu.accepted uc huc h

theorem scanOutcome_finished (hstart : s.lastBoundclass = boundclassStart)
    (hu : Scanned pf t options customFunc l base cap s p us u) (hp : p = l.length) :
    ScanOutcome pf t options (inputValues customFunc l) (decode l).2 base cap s.buffer
      (.finished u.wpos u.decomposed.buffer) := by
  have hcount := hu.count
  have hvalues := hu.values
  have hrest := hu.rest
  have hnil : l.drop p = [] := List.drop_of_length_le (by omega)
  have hnone : inputValues customFunc (l.drop p) = [] := by
    rw [hnil, inputValues, decode_nil]
    rfl
  rw [hnone, List.append_nil] at hvalues
  rw [hnil, decode_nil] at hrest
  rw [ScanOutcome, hvalues, acceptedValues_of_all hu.accepted, if_neg (by omega), if_neg,
    if_pos hrest, hu.wpos, hu.decomposed, markedState, written, hstart]
  · rfl
  · rintro ⟨uc, huc, h⟩
    exact hu.accepted uc huc h

end Convert

section Scan

variable {pf : Platform} {t : Utf8procData} (tables : OptionTables t) {options : Utf8procOption}
  {mem : List UInt8} {strlen : ℤ} {customFunc : Option (ℤ → ℤ)} {base : Option ℕ} {cap : ℕ}
  {s : DecomposeState} (readable : Readable options mem strlen) (room : Room base cap s.buffer)
  (hstart : s.lastBoundclass = boundclassStart)
include tables readable room hstart

theorem scanBody_progress :
    Progress (scanBody pf t mem strlen base cap options customFunc)
      (fun u => ∃ p us,
        Scanned pf t options customFunc (inputText options mem strlen) base cap s p us u)
      (fun u => (inputText options mem strlen).length - u.rpos.toNat)
      (ScanOutcome pf t options (inputValues customFunc (inputText options mem strlen))
        (decode (inputText options mem strlen)).2 base cap s.buffer) := by
  rintro u ⟨p, us, hu⟩
  have hinside := hu.inside
  by_cases hp : p = (inputText options mem strlen).length
  · exact Or.inr ⟨_, scanBody_end readable hu.rpos hp, scanOutcome_finished hstart hu hp⟩
  rw [scanBody_decode readable hu.rpos (by omega)]
  cases hd : decodeHead ((inputText options mem strlen).drop p) with
  | none => exact Or.inr ⟨_, rfl, scanOutcome_malformed hu (by omega) hd _⟩
  | some r =>
    obtain ⟨c, n⟩ := r
    dsimp only
    by_cases h : Refused t options (customized customFunc c)
    · rw [convertBody_refused h]
      exact Or.inr ⟨_, rfl, scanOutcome_refused hu hd h _⟩
    rw [convertBody_accepted tables room hstart hu h]
    by_cases hover :
        pf.codepointMax < (cellsOf t options (us ++ [customized customFunc c])).length
    · rw [if_pos hover]
      exact Or.inr ⟨_, rfl, scanOutcome_overflow hu hd h hover _⟩
    · have hnext := scanned_next hu hd h (by omega)
      refine Or.inl ⟨_, if_neg hover, ⟨_, _, hnext⟩, ?_⟩
      have hn := (decodeHead_bounds hd).1
      have hrpos : u.rpos = p := hu.rpos
      simp only [hrpos]
      omega

theorem scan_outcome (pf : Platform) (customFunc : Option (ℤ → ℤ)) :
    ∃ r, run (scanBody pf t mem strlen base cap options customFunc) (mem.length + 1)
        { rpos := 0, wpos := 0, decomposed := s } = .ok r ∧
      ScanOutcome pf t options (inputValues customFunc (inputText options mem strlen))
        (decode (inputText options mem strlen)).2 base cap s.buffer r := by
  have hentry : Scanned pf t options customFunc (inputText options mem strlen) base cap s 0 []
      { rpos := 0, wpos := 0, decomposed := s } :=
    ⟨rfl, rfl, (markedState_nil t base cap s).symm, Nat.zero_le _, Nat.zero_le _, rfl, rfl,
      by simp⟩
  apply run_total (scanBody_progress tables readable room hstart) _ _ ⟨0, [], hentry⟩
  have hle := inputText_length_le options mem strlen
  change (inputText options mem strlen).length - 0 < mem.length + 1
  omega

end Scan

theorem items_lt {t : Utf8procData} (tables : OptionTables t) {i : Item}
    (hi : i.code < 0x110000) : ∀ j ∈ items t i, j.code < 0x110000 := by
  refine expand_forall (itemEntry t) (itemTerminal t) (p := fun i => i.code < 0x110000)
    (fun i js hi h j hj => (accepted_entry tables hi h j hj).1) ?_ (item_isSome tables hi) hi
  intro i hi _ j hj
  unfold itemTerminal at hj
  split_ifs at hj with hs
  · obtain ⟨c, hc, rfl⟩ := List.mem_map.mp hj
    have := hangulJamo_scalar hs.2 c hc
    change c < 0x110000
    omega
  · cases hj
  · rwa [List.mem_singleton.mp hj]

/-- The options of an item are among those of the call. -/
theorem items_options {t : Utf8procData} (tables : OptionTables t) {i : Item}
    (hi : i.code < 0x110000) {flag : Utf8procOption}
    (hflag : hasOption i.options flag = false) :
    ∀ j ∈ items t i, hasOption j.options flag = false := by
  refine expand_forall (itemEntry t) (itemTerminal t)
    (p := fun i => i.code < 0x110000 ∧ hasOption i.options flag = false)
    (q := fun i => hasOption i.options flag = false) ?_ ?_ (item_isSome tables hi) ⟨hi, hflag⟩
  · rintro i js ⟨hi, hflag⟩ h j hj
    refine ⟨(accepted_entry tables hi h j hj).1, ?_⟩
    rcases itemEntry_cases h with ⟨bs, _, rfl⟩ | ⟨_, a, _, rfl⟩
    · obtain ⟨b, _, rfl⟩ := List.mem_map.mp hj
      exact hflag
    · obtain rfl := List.mem_singleton.mp hj
      unfold hasOption at hflag ⊢
      rw [bne_eq_false_iff_eq] at hflag ⊢
      simp only
      rw [UInt32.and_assoc, UInt32.and_comm (~~~ _), ← UInt32.and_assoc, hflag, UInt32.zero_and]
  · rintro i ⟨_, hflag⟩ _ j hj
    unfold itemTerminal at hj
    split_ifs at hj
    · obtain ⟨c, _, rfl⟩ := List.mem_map.mp hj
      unfold hasOption
      rw [bne_eq_false_iff_eq]
      exact UInt32.zero_and
    · cases hj
    · rwa [List.mem_singleton.mp hj]

theorem allItems_options {t : Utf8procData} (tables : OptionTables t) {options : Utf8procOption}
    {us : List ℤ} (accepted : ∀ uc ∈ us, ¬ Refused t options uc) {flag : Utf8procOption}
    (hflag : hasOption options flag = false) :
    ∀ i ∈ allItems t options us, hasOption i.options flag = false := by
  intro i hi
  obtain ⟨uc, huc, hi⟩ := List.mem_flatMap.mp hi
  exact items_options tables (accepted_of_not_refused (accepted uc huc)).1.1 hflag i hi

theorem isCell_marked {t : Utf8procData} {is : List Item} (h : ∀ i ∈ is, i.code < 0x110000)
    (state : ℕ) : ∀ v ∈ marked t state is, IsCell v := by
  unfold IsCell
  induction is generalizing state with
  | nil => simp
  | cons i is ih =>
    obtain ⟨hi, his⟩ := List.forall_mem_cons.mp h
    intro v hv
    rw [marked, List.mem_append] at hv
    rcases hv with hv | hv
    · unfold markOne at hv
      simp only at hv
      split_ifs at hv <;> simp only [List.mem_cons, List.not_mem_nil, or_false] at hv <;> omega
    · exact ih his _ v hv

theorem isCell_cellsOf {t : Utf8procData} (tables : OptionTables t) {options : Utf8procOption}
    {us : List ℤ} (h : ∀ uc ∈ us, ¬ Refused t options uc) :
    ∀ v ∈ cellsOf t options us, IsCell v := by
  apply isCell_marked
  intro i hi
  obtain ⟨uc, huc, hi⟩ := List.mem_flatMap.mp hi
  exact items_lt tables (accepted_of_not_refused (h uc huc)).1.1 i hi

/-- The combinations of options that every call refuses. -/
def InvalidOptions (options : Utf8procOption) : Prop :=
  (hasOption options utf8procCompose ∧ hasOption options EngineTables.utf8procDecompose) ∨
    (hasOption options utf8procStripmark ∧ ¬ hasOption options utf8procCompose ∧
      ¬ hasOption options EngineTables.utf8procDecompose)

instance (options : Utf8procOption) : Decidable (InvalidOptions options) :=
  inferInstanceAs (Decidable (_ ∨ _))

/-- The cells of a pass for values that are all accepted. -/
def decomposedCells (t : Utf8procData) (options : Utf8procOption) (us : List ℤ) : List ℤ :=
  if Canonical options then sortRuns (cellClass t) (cellsOf t options us) else cellsOf t options us

theorem decomposedCells_length (t : Utf8procData) (options : Utf8procOption) (us : List ℤ) :
    (decomposedCells t options us).length = (cellsOf t options us).length := by
  unfold decomposedCells
  split_ifs
  · exact sortRuns_length _ _
  · rfl

theorem mem_decomposedCells {t : Utf8procData} {options : Utf8procOption} {us : List ℤ} {v : ℤ} :
    v ∈ decomposedCells t options us ↔ v ∈ cellsOf t options us := by
  unfold decomposedCells
  split_ifs
  · exact mem_sortRuns _
  · rfl

/-- The error code for a text, if there is one. -/
def passError (pf : Platform) (t : Utf8procData) (options : Utf8procOption)
    (customFunc : Option (ℤ → ℤ)) (l : List UInt8) : Option ℤ :=
  let us := inputValues customFunc l
  if InvalidOptions options then some utf8procErrorInvalidopts
  else if pf.codepointMax < (cellsOf t options (acceptedValues t options us)).length then
    some utf8procErrorOverflow
  else if ∃ uc ∈ us, Refused t options uc then some utf8procErrorNotassigned
  else if (decode l).2 = [] then none
  else some utf8procErrorInvalidutf8

theorem passError_neg {pf : Platform} {t : Utf8procData} {options : Utf8procOption}
    {customFunc : Option (ℤ → ℤ)} {l : List UInt8} {code : ℤ}
    (h : passError pf t options customFunc l = some code) : code < 0 := by
  unfold passError at h
  simp only at h
  split_ifs at h <;>
  · obtain rfl := Option.some.inj h
    decide

/-- What one pass returns and leaves in its buffer. What has no room is left out, and a buffer
without room for everything is not reordered. -/
def PassOutcome (t : Utf8procData) (options : Utf8procOption) (us : List ℤ) (error : Option ℤ)
    (cells : List ℤ) (cap : ℕ) (r : ℤ × List ℤ) : Prop :=
  match error with
  | some code => r.1 = code
  | none => r.1 = (cellsOf t options us).length ∧
      r.2 = if (cellsOf t options us).length ≤ cap then
          decomposedCells t options us ++ cells.drop (cellsOf t options us).length
        else (cellsOf t options us).take cap ++ cells.drop cap

section Pass

variable {pf : Platform} {t : Utf8procData} (tables : OptionTables t) {options : Utf8procOption}
  {mem : List UInt8} {strlen : ℤ} {customFunc : Option (ℤ → ℤ)} {buffer : Option (List ℤ)}
  {cap : ℕ}

include tables in
theorem utf8procDecomposeCustom_finished {us : List ℤ} (hopts : ¬ InvalidOptions options)
    (haccepted : ∀ uc ∈ us, ¬ Refused t options uc)
    (hscan : run (scanBody pf t mem strlen (buffer.map fun _ => 0) cap options customFunc)
        (mem.length + 1) { rpos := 0, wpos := 0, decomposed :=
          { buffer := buffer.getD [], lastBoundclass := boundclassStart } } =
      .ok (.finished (cellsOf t options us).length
        (overwrite (buffer.getD []) 0 ((cellsOf t options us).take cap)))) :
    ∃ r, utf8procDecomposeCustom pf t mem strlen buffer cap options customFunc = .ok r ∧
      PassOutcome t options us none (buffer.getD []) cap r := by
  unfold InvalidOptions at hopts
  rw [not_or] at hopts
  rw [utf8procDecomposeCustom]
  simp only
  rw [if_neg hopts.1, if_neg hopts.2, hscan, ok_bind]
  simp only
  have htake (h : (cellsOf t options us).length ≤ cap) :
      (cellsOf t options us).take cap = cellsOf t options us := List.take_of_length_le h
  by_cases hcap : (cellsOf t options us).length ≤ cap
  · rw [overwrite_zero, htake hcap]
    by_cases hcanonical : Canonical options
    · refine ⟨((cellsOf t options us).length, decomposedCells t options us ++
        (buffer.getD []).drop (cellsOf t options us).length), ?_, rfl, (if_pos hcap).symm⟩
      rw [if_pos ⟨hcanonical, by omega⟩, Int.toNat_natCast,
        reorder_cells t _ (isCell_cellsOf tables haccepted), ok_bind, decomposedCells,
        if_pos hcanonical]
    · refine ⟨_, if_neg fun h => hcanonical h.1, rfl, ?_⟩
      rw [if_pos hcap, decomposedCells, if_neg hcanonical]
  · refine ⟨_, if_neg fun h => hcap (by omega), rfl, ?_⟩
    have hlen : ((cellsOf t options us).take cap).length = cap :=
      List.length_take_of_le (by omega)
    rw [if_neg hcap, overwrite_zero, hlen]

theorem utf8procDecomposeCustom_failed {code : ℤ} {cells : List ℤ}
    (hopts : ¬ InvalidOptions options)
    (hscan : run (scanBody pf t mem strlen (buffer.map fun _ => 0) cap options customFunc)
        (mem.length + 1) { rpos := 0, wpos := 0, decomposed :=
          { buffer := buffer.getD [], lastBoundclass := boundclassStart } } =
      .ok (.failed code cells)) :
    utf8procDecomposeCustom pf t mem strlen buffer cap options customFunc = .ok (code, cells) := by
  unfold InvalidOptions at hopts
  rw [not_or] at hopts
  rw [utf8procDecomposeCustom]
  simp only
  rw [if_neg hopts.1, if_neg hopts.2, hscan, ok_bind]

theorem utf8procDecomposeCustom_invalid (hopts : InvalidOptions options) :
    utf8procDecomposeCustom pf t mem strlen buffer cap options customFunc =
      .ok (utf8procErrorInvalidopts, buffer.getD []) := by
  rw [utf8procDecomposeCustom]
  simp only
  rcases hopts with h | h
  · rw [if_pos h]
  · by_cases h' : hasOption options utf8procCompose ∧
        hasOption options EngineTables.utf8procDecompose
    · rw [if_pos h']
    · rw [if_neg h', if_pos h]

include tables in
/-- A pass returns without a fault, whatever the options, the text and the custom function. -/
theorem utf8procDecomposeCustom_outcome (pf : Platform) (customFunc : Option (ℤ → ℤ))
    (readable : Readable options mem strlen)
    (room : Room (buffer.map fun _ => 0) cap (buffer.getD [])) :
    ∃ r, utf8procDecomposeCustom pf t mem strlen buffer cap options customFunc = .ok r ∧
      PassOutcome t options (inputValues customFunc (inputText options mem strlen))
        (passError pf t options customFunc (inputText options mem strlen)) (buffer.getD []) cap
        r := by
  by_cases hopts : InvalidOptions options
  · refine ⟨_, utf8procDecomposeCustom_invalid hopts, ?_⟩
    rw [passError, if_pos hopts]
    rfl
  let entry : DecomposeState := { buffer := buffer.getD [], lastBoundclass := boundclassStart }
  obtain ⟨scanned, hscan, houtcome⟩ := scan_outcome tables readable
    (show Room _ _ entry.buffer from room) rfl pf customFunc
  unfold ScanOutcome at houtcome
  unfold passError
  simp only
  rw [if_neg hopts]
  split_ifs at houtcome ⊢ with hover hrefused hrest
  · obtain ⟨cells, rfl⟩ := houtcome
    exact ⟨_, utf8procDecomposeCustom_failed hopts hscan, rfl⟩
  · obtain ⟨cells, rfl⟩ := houtcome
    exact ⟨_, utf8procDecomposeCustom_failed hopts hscan, rfl⟩
  · subst houtcome
    have hbase : (buffer.map fun _ => 0).getD 0 = 0 := by cases buffer <;> rfl
    rw [hbase] at hscan
    exact utf8procDecomposeCustom_finished tables hopts (by simpa using hrefused) hscan
  · obtain ⟨cells, rfl⟩ := houtcome
    exact ⟨_, utf8procDecomposeCustom_failed hopts hscan, rfl⟩

end Pass

end LeoUTF8.OptionPass
