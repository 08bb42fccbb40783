import LeoUTF8.MappingBoundaries

set_option autoImplicit false

/-!
# Mapping a text line by line

Where newlines are converted, a text may be mapped line by line: each newline sequence becomes
one replacement between what the lines become.
-/
namespace LeoUTF8.LineBoundaries
open HeapBlocks ScalarEncoding EngineTables EngineCompose EngineMap RunSorting StarterComposition
open CodePointMapping CompositionCorrectness DecompositionCorrectness TableAssumptions
open MapCorrectness OptionMapping OptionPass NewlineNormalization OptionEncoding OptionMaps
open ReferenceMapping MappingAbsorption MappingBoundaries

/-- A newline sequence. -/
def IsBreak (options : Utf8procOption) (nl : List ℕ) : Prop :=
  nl = [0x000D, 0x000A] ∨ ∃ c : ℕ, IsNewline options c ∧ nl = [c]

/-- The newlines stand for themselves before they are converted, and what they are converted to
takes part in no ordering and no composition. -/
structure BreakTables (t : Utf8procData) (options : Utf8procOption)
    (customFunc : Option (ℤ → ℤ)) (r : ℕ) : Prop where
  accepted : ∀ c : ℕ, IsNewline options c → Accepted t ⟨options, c⟩
  custom : ∀ c : ℕ, IsNewline options c → customized customFunc c = c
  stands : ∀ c : ℕ, IsNewline options c → Stands t options c
  starter : ∀ c : ℕ, IsNewline options c → combiningClass t c = 0
  replacement : nlfReplacement options = r
  class_zero : combiningClass t r = 0
  not_first : ∀ b, composite t r b = none
  not_second : ∀ a, composite t a r = none

section Newlines

variable {options : Utf8procOption}

theorem joinCrlf_cons {uc : ℤ} {l : List ℤ} (h : uc = 0x000D → l.head? ≠ some 0x000A) :
    joinCrlf (uc :: l) = uc :: joinCrlf l := by
  cases l with
  | nil => rfl
  | cons next rest =>
    rw [joinCrlf, if_neg]
    rintro ⟨hcr, rfl⟩
    exact h hcr rfl

theorem joinCrlf_append {l : List ℤ} (hl : ∀ v ∈ l, v ≠ 0x000D) (rest : List ℤ) :
    joinCrlf (l ++ rest) = joinCrlf l ++ joinCrlf rest := by
  induction l with
  | nil => rfl
  | cons v l ih =>
    rw [List.forall_mem_cons] at hl
    rw [List.cons_append, joinCrlf_cons (absurd · hl.1), joinCrlf_cons (absurd · hl.1), ih hl.2,
      List.cons_append]

theorem isNewline_of_break {nl : List ℕ} (h : IsBreak options nl) :
    ∀ c ∈ nl, IsNewline options c := by
  intro c hc
  rcases h with rfl | ⟨d, hd, rfl⟩
  · rcases List.mem_pair.mp hc with rfl | rfl
    · exact Or.inr (Or.inl rfl)
    · exact Or.inl rfl
  · rwa [List.mem_singleton.mp hc]

theorem newlineCell_newline {uc : ℤ} (h : IsNewline options uc) :
    newlineCell options uc = [nlfReplacement options] := by
  rw [newlineCell, if_pos h]

/-- A newline sequence becomes one replacement, whatever stands behind it. -/
theorem newlines_break {l rest : List ℤ} (hl : ∀ v ∈ l, v ≠ 0x000D) {nl : List ℕ}
    (hnl : IsBreak options nl) (apart : nl = [0x000D] → rest.head? ≠ some 0x000A) :
    newlines options (l ++ (int32s nl ++ rest)) =
      newlines options l ++ nlfReplacement options :: newlines options rest := by
  rw [newlines, joinCrlf_append hl, List.flatMap_append, newlines]
  rcases hnl with rfl | ⟨c, hc, rfl⟩
  · have hjoin : joinCrlf (int32s [0x000D, 0x000A] ++ rest) = 0x000D :: joinCrlf rest := by
      rw [int32s_cons, int32s_cons, int32s_nil, List.cons_append, List.cons_append,
        List.nil_append, joinCrlf, if_pos ⟨rfl, rfl⟩]
      rfl
    rw [hjoin, List.flatMap_cons, newlineCell_newline (Or.inr (Or.inl rfl)),
      List.singleton_append, newlines]
  · have hjoin : joinCrlf (int32s [c] ++ rest) = (c : ℤ) :: joinCrlf rest := by
      rw [int32s_cons, int32s_nil, List.singleton_append]
      apply joinCrlf_cons
      intro hcr
      apply apart
      obtain rfl : c = 0x000D := by omega
      rfl
    rw [hjoin, List.flatMap_cons, newlineCell_newline hc, List.singleton_append, newlines]

end Newlines

section Cells

variable {t : Utf8procData} {options : Utf8procOption} {customFunc : Option (ℤ → ℤ)} {r : ℕ}
  (breaks : BreakTables t options customFunc r)
include breaks

theorem composedCells_break (l rest : List ℤ) :
    composedCells t (l ++ (r : ℤ) :: rest) =
      composedCells t l ++ (r : ℤ) :: composedCells t rest := by
  have hcodes : codesOf (l ++ (r : ℤ) :: rest) = codesOf l ++ r :: codesOf rest := by
    rw [← codesOf_cons_natCast, codesOf, codesOf, codesOf, List.filter_append, List.map_append]
  rw [composedCells, hcodes, composition, compose_boundary _ _ breaks.class_zero breaks.not_first
    breaks.not_second]
  exact List.map_append

theorem normalizedCells_break (hnewlines : Newlines options) {l rest : List ℤ}
    (hl : ∀ v ∈ l, v ≠ 0x000D) {nl : List ℕ} (hnl : IsBreak options nl)
    (apart : nl = [0x000D] → rest.head? ≠ some 0x000A) :
    normalizedCells t options (l ++ (int32s nl ++ rest)) =
      normalizedCells t options l ++ (r : ℤ) :: normalizedCells t options rest := by
  unfold normalizedCells
  rw [if_pos hnewlines, if_pos hnewlines, if_pos hnewlines, newlines_break hl hnl apart,
    breaks.replacement]
  simp only
  by_cases hcompose : hasOption options utf8procCompose
  · rw [if_pos hcompose, if_pos hcompose, if_pos hcompose]
    exact composedCells_break breaks _ _
  · rw [if_neg hcompose, if_neg hcompose, if_neg hcompose]

theorem break_passed {nl : List ℕ} (hnl : IsBreak options nl) :
    Passed t options customFunc nl := by
  intro c hc
  have hnewline := isNewline_of_break hnl c hc
  refine ⟨?_, breaks.accepted c hnewline, breaks.custom c hnewline⟩
  unfold IsScalar
  rcases hnewline with h | h | h | ⟨_, h | h⟩ <;> omega

variable (tables : OptionTables t) (flat : Flat options)
include tables flat

/-- The decomposition keeps a newline sequence, and its parts do not see each other. -/
theorem decomposedCells_break {us vs : List ℤ} {nl : List ℕ} (hnl : IsBreak options nl)
    (accepted : ∀ uc ∈ us ++ (int32s nl ++ vs), ¬ Refused t options uc) :
    decomposedCells t options (us ++ (int32s nl ++ vs)) =
      decomposedCells t options us ++ (int32s nl ++ decomposedCells t options vs) := by
  have hmaps : ∀ c ∈ nl, mapping t options c = [c] := fun c hc =>
    mapping_stands tables flat (break_passed breaks hnl c hc).1.lt
      (breaks.stands c (isNewline_of_break hnl c hc))
  have hself : ((int32s nl).map Int.toNat).flatMap (mapping t options) = nl := by
    have hcast : (int32s nl).map Int.toNat = nl := by
      rw [int32s, List.map_map]
      exact List.map_id nl
    rw [hcast, List.flatMap_congr hmaps, List.flatMap_singleton']
  have hordered (xs ys : List ℕ) : ordered t options (xs ++ (nl ++ ys)) =
      ordered t options xs ++ (nl ++ ordered t options ys) := by
    have hstarter := fun c hc => breaks.starter c (isNewline_of_break hnl c hc)
    have hone {c : ℕ} (hc : c ∈ nl) (zs : List ℕ) :
        ordered t options (c :: zs) = c :: ordered t options zs := by
      have h := @ordered_append t options c (hstarter c hc) [] zs
      have hnil : ordered t options [] = [] := by
        unfold ordered
        split_ifs <;> rfl
      rwa [hnil] at h
    rcases hnl with rfl | ⟨c, _, rfl⟩
    · rw [List.cons_append, List.singleton_append, ordered_append (hstarter _ (by simp)),
        hone (by simp)]
      rfl
    · rw [List.singleton_append, ordered_append (hstarter _ (by simp))]
      rfl
  simp only [List.forall_mem_append] at accepted
  rw [decomposedCells_flat flat tables (by simpa only [List.forall_mem_append] using accepted),
    decomposedCells_flat flat tables accepted.1, decomposedCells_flat flat tables accepted.2.2,
    List.map_append, List.map_append, List.flatMap_append, List.flatMap_append, hself, hordered,
    int32s, int32s, int32s, int32s, List.map_append, List.map_append]

end Cells

/-- The cells of a text before newlines are converted. -/
def lineCells (t : Utf8procData) (options : Utf8procOption) (customFunc : Option (ℤ → ℤ))
    (l : List UInt8) : List ℤ :=
  decomposedCells t options (inputValues customFunc l)

/-- Newline sequences with the lines behind them, and what these are mapped to. -/
abbrev Lines := List (List ℕ × List UInt8 × List UInt8)

def brokenText (first : List UInt8) (rest : Lines) : List UInt8 :=
  first ++ rest.flatMap fun p => encodeAll p.1 ++ p.2.1

def brokenResult (r : ℕ) (first : List UInt8) (rest : Lines) : List UInt8 :=
  first ++ rest.flatMap fun p => encode r ++ p.2.2

/-- A lone carriage return does not get a line feed behind it when the line between them is
empty. -/
def Apart (t : Utf8procData) (options : Utf8procOption) (customFunc : Option (ℤ → ℤ)) :
    Lines → Prop
  | [] => True
  | p :: rest =>
    (p.1 = [0x000D] → lineCells t options customFunc p.2.1 = [] →
      ∀ q ∈ rest.head?, q.1.head? ≠ some 0x000A) ∧ Apart t options customFunc rest

section Lines

variable {t : Utf8procData} {options : Utf8procOption} {customFunc : Option (ℤ → ℤ)} {r : ℕ}
  (breaks : BreakTables t options customFunc r) (tables : OptionTables t) (flat : Flat options)
  (hnewlines : Newlines options)
include breaks tables flat hnewlines

/-- A line, and a text behind a newline sequence. -/
theorem Mapped.line {x y l z : List UInt8} (h : Mapped t options customFunc x y)
    (h' : Mapped t options customFunc l z)
    (hx : ∀ v ∈ lineCells t options customFunc x, v ≠ 0x000D) {nl : List ℕ}
    (hnl : IsBreak options nl)
    (apart : nl = [0x000D] → (lineCells t options customFunc l).head? ≠ some 0x000A) :
    Mapped t options customFunc (x ++ (encodeAll nl ++ l)) (y ++ (encode r ++ z)) ∧
      lineCells t options customFunc (x ++ (encodeAll nl ++ l)) =
        lineCells t options customFunc x ++
          (int32s nl ++ lineCells t options customFunc l) := by
  obtain ⟨hvalues, hrest, accepted⟩ := h.between h' (break_passed breaks hnl)
  have hcells : lineCells t options customFunc (x ++ (encodeAll nl ++ l)) =
      lineCells t options customFunc x ++ (int32s nl ++ lineCells t options customFunc l) := by
    rw [lineCells, hvalues]
    exact decomposedCells_break breaks tables flat hnl (hvalues ▸ accepted)
  refine ⟨⟨hrest, accepted, ?_⟩, hcells⟩
  have hreplacement : encodeCell options (r : ℤ) = encode r := by
    apply encodeCell_natCast
    have hr := breaks.replacement
    unfold nlfReplacement at hr
    split_ifs at hr <;> omega
  have hmapped : mappedCells t options customFunc (x ++ (encodeAll nl ++ l)) =
      mappedCells t options customFunc x ++ (r : ℤ) :: mappedCells t options customFunc l := by
    unfold mappedCells
    change normalizedCells t options (lineCells t options customFunc _) = _
    rw [hcells]
    exact normalizedCells_break breaks hnewlines hx hnl apart
  rw [h.bytes, h'.bytes, mappedBytes, mappedBytes, mappedBytes, hmapped, encodeCells, encodeCells,
    encodeCells, List.flatMap_append, List.flatMap_cons, hreplacement]

/-- The induction is on the lines behind the first one. The text behind a newline sequence begins
with what is in its first line, or with the next newline sequence if that line is empty. -/
theorem Mapped.lines {first : List UInt8 × List UInt8} {rest : Lines}
    (h : ∀ p ∈ first :: rest.map Prod.snd, Mapped t options customFunc p.1 p.2 ∧
      ∀ v ∈ lineCells t options customFunc p.1, v ≠ 0x000D ∧ v ≠ 0x000A)
    (hbreaks : ∀ p ∈ rest, IsBreak options p.1) (apart : Apart t options customFunc rest) :
    Mapped t options customFunc (brokenText first.1 rest) (brokenResult r first.2 rest) ∧
      (lineCells t options customFunc (brokenText first.1 rest)).head? =
        ((lineCells t options customFunc first.1).head?).or
          (rest.head?.bind fun p => (int32s p.1).head?) := by
  induction rest generalizing first with
  | nil =>
    have hfirst := (h first List.mem_cons_self).1
    simpa [brokenText, brokenResult] using hfirst
  | cons p rest ih =>
    have hfirst := h first List.mem_cons_self
    have hp := h p.2 (by simp)
    have hnl := hbreaks p List.mem_cons_self
    have hrest : ∀ q ∈ p.2 :: rest.map Prod.snd, _ := fun q hq => h q (List.mem_cons_of_mem _ hq)
    obtain ⟨hmapped, hhead⟩ := ih hrest (fun q hq => hbreaks q (List.mem_cons_of_mem _ hq)) apart.2
    have hbehind : p.1 = [0x000D] →
        (lineCells t options customFunc (brokenText p.2.1 rest)).head? ≠ some 0x000A := by
      intro hcr
      rw [hhead]
      cases hcells : lineCells t options customFunc p.2.1 with
      | nil =>
        cases rest with
        | nil => simp
        | cons q rest =>
          have hq := apart.1 hcr hcells q rfl
          rcases hbreaks q (by simp) with hnl | ⟨c, _, hnl⟩
          · simp [hnl]
          · have hc : c ≠ 0x000A := by
              rintro rfl
              exact hq (by rw [hnl]; rfl)
            simp only [hnl, List.head?_nil, Option.none_or, List.head?_cons, Option.bind_some,
              int32s_cons, ne_eq, Option.some.injEq]
            omega
      | cons v l =>
        have hv := (hp.2 v (by rw [hcells]; exact List.mem_cons_self)).2
        simpa using hv
    have htext : brokenText first.1 (p :: rest) =
        first.1 ++ (encodeAll p.1 ++ brokenText p.2.1 rest) := by
      rw [brokenText, brokenText, List.flatMap_cons, List.append_assoc]
    have hresult : brokenResult r first.2 (p :: rest) =
        first.2 ++ (encode r ++ brokenResult r p.2.2 rest) := by
      rw [brokenResult, brokenResult, List.flatMap_cons, List.append_assoc]
    obtain ⟨hjoined, hcells⟩ := Mapped.line breaks tables flat hnewlines hfirst.1 hmapped
      (fun v hv => (hfirst.2 v hv).1) hnl hbehind
    rw [htext, hresult]
    refine ⟨hjoined, ?_⟩
    have hne : (int32s p.1).head? ≠ none := by
      rcases hnl with hnl | ⟨c, _, hnl⟩ <;> simp [hnl]
    rw [hcells, List.head?_append, List.head?_append, Option.or_of_isSome
      (Option.isSome_iff_ne_none.mpr hne)]
    rfl

end Lines

section Acute

def composeLines : Utf8procOption := utf8procNlf2ls ||| utf8procNlf2ps ||| utf8procCompose

theorem acute_breakTables : BreakTables acuteData composeLines none 0x000A := by
  have hlow (c : ℕ) (h : IsNewline composeLines c) : c < 0x100 ∧ c ≠ 0x41 ∧ c ≠ 0xE9 := by
    rcases h with h | h | h | ⟨_, h | h⟩ <;> omega
  have hstarter {c : ℕ} (h : c < 0x100) : combiningClass acuteData c = 0 := by
    rw [acute_combiningClass, if_neg (by omega)]
  constructor
  · intro c h
    have hoption : ¬ hasOption composeLines utf8procRejectna := by decide
    refine ⟨?_, fun hrejected => hoption hrejected.2.1⟩
    have hc := (hlow c h).1
    dsimp only
    omega
  · exact fun _ _ => rfl
  · intro c h
    obtain ⟨hc, hA, he⟩ := hlow c h
    apply acute_stands (by decide) (by decide) hA he
    unfold IsHangulSyllable
    omega
  · exact fun c h => hstarter (hlow c h).1
  · decide
  · exact hstarter (by decide)
  · exact acute_separator.not_first
  · exact acute_separator.not_second

end Acute

end LeoUTF8.LineBoundaries
