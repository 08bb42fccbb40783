import LeoUTF8.EngineCompose

set_option autoImplicit false

/-!
# Newlines and control characters

The loop of `utf8proc_normalize_utf32` for newlines rewrites its buffer in place. Carriage
return with line feed is one newline.
-/
namespace LeoUTF8.NewlineNormalization
open BoundedLoop CellStorage EngineTables EngineDecompose EngineCompose

/-- The options that turn the loop on. -/
def Newlines (options : Utf8procOption) : Prop :=
  hasOption options (utf8procNlf2ls ||| utf8procNlf2ps ||| utf8procStripcc) = true

instance (options : Utf8procOption) : Decidable (Newlines options) :=
  inferInstanceAs (Decidable (_ = true))

def IsNewline (options : Utf8procOption) (uc : ℤ) : Prop :=
  uc = 0x000A ∨ uc = 0x000D ∨ uc = 0x0085 ∨
    hasOption options utf8procStripcc ∧ (uc = 0x000B ∨ uc = 0x000C)

instance (options : Utf8procOption) (uc : ℤ) : Decidable (IsNewline options uc) :=
  inferInstanceAs (Decidable (_ ∨ _))

/-- A control character that is left out; the mark of a grapheme break counts as one. -/
def IsStripped (options : Utf8procOption) (uc : ℤ) : Prop :=
  hasOption options utf8procStripcc ∧ (uc < 0x0020 ∨ uc ≥ 0x007F ∧ uc < 0x00A0)

instance (options : Utf8procOption) (uc : ℤ) : Decidable (IsStripped options uc) :=
  inferInstanceAs (Decidable (_ ∧ _))

/-- What one cell becomes. -/
def newlineCell (options : Utf8procOption) (uc : ℤ) : List ℤ :=
  if IsNewline options uc then [nlfReplacement options]
  else if IsStripped options uc then if uc = 0x0009 then [0x0020] else []
  else [uc]

/-- The cells with a line feed behind a carriage return left out. -/
def joinCrlf : List ℤ → List ℤ
  | [] => []
  | [uc] => [uc]
  | uc :: next :: rest =>
    if uc = 0x000D ∧ next = 0x000A then uc :: joinCrlf rest else uc :: joinCrlf (next :: rest)

def newlines (options : Utf8procOption) (l : List ℤ) : List ℤ :=
  (joinCrlf l).flatMap (newlineCell options)

theorem newlineCell_length_le (options : Utf8procOption) (uc : ℤ) :
    (newlineCell options uc).length ≤ 1 := by
  unfold newlineCell
  split_ifs <;> simp

/-- `out` has been written and `rest` is still to be read; the cells between them are free. -/
structure Compacting (out gap rest tail : List ℤ) (s : NlfState) : Prop where
  buffer : s.buffer = out ++ gap ++ rest ++ tail
  wpos : s.wpos = out.length
  rpos : s.rpos = out.length + gap.length

section Loop

variable {options : Utf8procOption} {out gap rest tail : List ℤ} {s : NlfState} {uc : ℤ}

/-- The written cell is the first of the free cells, or one that has just been read. -/
theorem store_compacted (out gap rest tail : List ℤ) {used : List ℤ} (hused : used ≠ []) (v : ℤ) :
    ∃ gap', gap'.length + 1 = gap.length + used.length ∧
      store (out ++ gap ++ (used ++ rest) ++ tail) out.length v =
        .ok (out ++ [v] ++ gap' ++ rest ++ tail) := by
  obtain ⟨g, gap', hg⟩ : ∃ g gap', gap ++ used = g :: gap' :=
    List.exists_cons_of_ne_nil (by simp [hused])
  refine ⟨gap', ?_, ?_⟩
  · have h := congrArg List.length hg
    rw [List.length_append, List.length_cons] at h
    exact h.symm
  · have h := store_append out (gap' ++ rest ++ tail) g v
    have hold : out ++ gap ++ (used ++ rest) ++ tail = out ++ g :: (gap' ++ rest ++ tail) := by
      calc
        out ++ gap ++ (used ++ rest) ++ tail = out ++ (gap ++ used) ++ rest ++ tail := by simp
        _ = out ++ g :: (gap' ++ rest ++ tail) := by simp [hg]
    rw [hold, h]
    simp

/-- The tests at the head of the loop, as far as they depend on the cell alone. -/
theorem nlfBody_cell {length : ℤ} {s : NlfState} (hlt : s.rpos < length)
    (huc : load s.buffer s.rpos = .ok uc) {following : ℤ} {rpos : ℕ}
    (hfollowing : (if uc = 0x000D ∧ s.rpos < length - 1 then load s.buffer (s.rpos + 1)
      else .ok 0) = .ok following)
    (hrpos : (if uc = 0x000D ∧ s.rpos < length - 1 ∧ following = 0x000A then s.rpos + 1
      else s.rpos) = rpos) :
    nlfBody length options s =
      match newlineCell options uc with
      | [] => .ok (.next { s with rpos := rpos + 1 })
      | v :: _ => store s.buffer s.wpos v >>= fun buffer =>
        .ok (.next { rpos := rpos + 1, wpos := s.wpos + 1, buffer := buffer }) := by
  have hjoin (f : ℤ → Exec (Step NlfState (ℤ × List ℤ))) :
      (if uc = 0x000D ∧ s.rpos < length - 1 then load s.buffer (s.rpos + 1) >>= f
        else (.ok 0 : Exec ℤ) >>= f) = f following := by
    rw [← ok_bind following f, ← hfollowing]
    split_ifs <;> rfl
  rw [nlfBody, if_pos hlt, huc, ok_bind]
  dsimp only
  rw [hjoin]
  simp only [hrpos]
  have hnewline : (uc = 0x000A ∨ uc = 0x000D ∨ uc = 0x0085 ∨
      hasOption options utf8procStripcc ∧ (uc = 0x000B ∨ uc = 0x000C)) ↔
        IsNewline options uc := Iff.rfl
  have hstripped : (hasOption options utf8procStripcc ∧
      (uc < 0x0020 ∨ uc ≥ 0x007F ∧ uc < 0x00A0)) ↔ IsStripped options uc := Iff.rfl
  simp only [hnewline, hstripped]
  unfold newlineCell
  by_cases h : IsNewline options uc
  · rw [if_pos h, if_pos h]
  rw [if_neg h, if_neg h]
  by_cases h' : IsStripped options uc
  · rw [if_pos h', if_pos h']
    by_cases htab : uc = 0x0009
    · rw [if_pos htab, if_pos htab]
    · rw [if_neg htab, if_neg htab]
  · rw [if_neg h', if_neg h']

/-- What is read in one iteration: a cell, or a carriage return with its line feed. -/
def Reads (uc : ℤ) (used rest : List ℤ) : Prop :=
  (used = [uc] ∧ (uc = 0x000D → ∀ next ∈ rest.head?, next ≠ 0x000A)) ∨
    (uc = 0x000D ∧ used = [uc, 0x000A])

theorem nlfBody_reads {used : List ℤ} (hs : Compacting out gap (used ++ rest) tail s)
    (hused : Reads uc used rest) {length : ℤ} (hlength : length = s.rpos + (used ++ rest).length) :
    nlfBody length options s =
      match newlineCell options uc with
      | [] => .ok (.next { s with rpos := s.rpos + used.length })
      | v :: _ => store s.buffer s.wpos v >>= fun buffer =>
        .ok (.next { rpos := s.rpos + used.length, wpos := s.wpos + 1, buffer := buffer }) := by
  have hload (before : List ℤ) {v : ℤ} {l : List ℤ} (h : used ++ rest = before ++ v :: l) :
      load s.buffer (s.rpos + before.length) = .ok v := by
    have hat := load_append_left (out ++ gap ++ before) (l ++ tail) v
    rw [List.length_append, List.length_append, ← hs.rpos] at hat
    rw [hs.buffer, h, ← hat]
    simp
  rcases hused with ⟨rfl, hnext⟩ | ⟨rfl, rfl⟩
  · have huc : load s.buffer s.rpos = .ok uc := hload [] rfl
    simp only [List.length_append, List.length_singleton] at hlength
    by_cases hcr : uc = 0x000D ∧ s.rpos < length - 1
    · cases rest with
      | nil =>
        simp only [List.length_nil] at hlength
        omega
      | cons next rest =>
        have hne : next ≠ 0x000A := hnext hcr.1 next rfl
        have hfollowing : load s.buffer (s.rpos + 1) = .ok next := hload [uc] rfl
        exact nlfBody_cell (by omega) huc (by rw [if_pos hcr, hfollowing])
          (if_neg fun h => hne h.2.2)
    · exact nlfBody_cell (by omega) huc (if_neg hcr) (if_neg fun h => hcr ⟨h.1, h.2.1⟩)
  · have huc : load s.buffer s.rpos = .ok 0x000D := hload [] rfl
    have hfollowing : load s.buffer (s.rpos + 1) = .ok 0x000A := hload [0x000D] rfl
    simp only [List.length_append, List.length_cons, List.length_nil] at hlength
    exact nlfBody_cell (by omega) huc (by rw [if_pos ⟨rfl, by omega⟩, hfollowing])
      (if_pos ⟨rfl, by omega, rfl⟩)

theorem nlfBody_next {used : List ℤ} (hs : Compacting out gap (used ++ rest) tail s)
    (hused : Reads uc used rest) {length : ℤ} (options : Utf8procOption)
    (hlength : length = s.rpos + (used ++ rest).length) :
    ∃ u gap', nlfBody length options s = .ok (.next u) ∧
      Compacting (out ++ newlineCell options uc) gap' rest tail u ∧
      u.rpos = s.rpos + used.length := by
  have hne : used ≠ [] := by
    rcases hused with ⟨rfl, _⟩ | ⟨_, rfl⟩ <;> exact List.cons_ne_nil _ _
  have hrpos := hs.rpos
  have hwpos := hs.wpos
  have hcell := newlineCell_length_le options uc
  rw [nlfBody_reads hs hused hlength]
  cases hn : newlineCell options uc with
  | nil =>
    refine ⟨_, gap ++ used, rfl, ⟨?_, ?_, ?_⟩, rfl⟩
    · rw [hs.buffer]
      simp
    · rw [List.append_nil, hwpos]
    · simp only [List.append_nil, List.length_append]
      omega
  | cons v more =>
    obtain rfl : more = [] := by
      rw [hn] at hcell
      exact List.length_eq_zero_iff.mp (by simpa using hcell)
    obtain ⟨gap', hgap, hstore⟩ := store_compacted out gap rest tail hne v
    rw [← hs.buffer, ← hwpos] at hstore
    refine ⟨{ rpos := s.rpos + used.length, wpos := s.wpos + 1
              buffer := out ++ [v] ++ gap' ++ rest ++ tail }, gap', ?_, ⟨rfl, ?_, ?_⟩, rfl⟩
    · dsimp only
      rw [hstore, ok_bind]
    · simp [hwpos]
    · simp only [List.length_append, List.length_singleton]
      omega

/-- The loop ends with what `rest` becomes behind `out`, and with free cells after it. -/
def Ends (options : Utf8procOption) (out rest tail : List ℤ) (s : NlfState) (n : ℕ) : Prop :=
  ∃ gap', gap'.length + (out ++ newlines options rest).length = s.rpos + rest.length ∧
    run (nlfBody (s.rpos + rest.length : ℕ) options) (n + 1) s =
      .ok (((out ++ newlines options rest).length : ℕ),
        out ++ newlines options rest ++ gap' ++ tail)

theorem ends_nil {n : ℕ} (hs : Compacting out gap [] tail s) : Ends options out [] tail s n := by
  have hrpos := hs.rpos
  refine ⟨gap, ?_, ?_⟩
  · simp only [newlines, joinCrlf, List.flatMap_nil, List.append_nil, List.length_nil]
    omega
  · apply run_done
    rw [nlfBody, if_neg (by simp), hs.wpos, hs.buffer]
    simp [newlines, joinCrlf]

/-- One iteration before a run of the loop. -/
theorem ends_step (used : List ℤ) {n : ℕ} (hs : Compacting out gap (used ++ rest) tail s)
    (hused : Reads uc used rest)
    (hnewlines : newlines options (used ++ rest) = newlineCell options uc ++ newlines options rest)
    (hrest : ∀ {out gap s}, Compacting out gap rest tail s → Ends options out rest tail s n) :
    Ends options out (used ++ rest) tail s (n + 1) := by
  have hlength : ((s.rpos + (used ++ rest).length : ℕ) : ℤ) = s.rpos + (used ++ rest).length := by
    push_cast
    rfl
  obtain ⟨u, gap', hu, hI, hrpos⟩ := nlfBody_next hs hused options hlength
  obtain ⟨gap'', hlen, hr⟩ := hrest hI
  have htotal : u.rpos + rest.length = s.rpos + (used ++ rest).length := by
    rw [hrpos, List.length_append]
    omega
  rw [htotal, List.append_assoc, ← hnewlines] at hlen
  rw [htotal, List.append_assoc, ← hnewlines] at hr
  exact ⟨gap'', hlen, (run_next hu _).trans hr⟩

/-- The loop from any of its states, with a bound on the iterations that suffices. -/
theorem ends_of_compacting {n : ℕ} (hn : rest.length ≤ n)
    (hs : Compacting out gap rest tail s) : Ends options out rest tail s n := by
  induction rest using joinCrlf.induct generalizing out gap s n with
  | case1 => exact ends_nil hs
  | case2 uc =>
    obtain ⟨n, rfl⟩ : ∃ m, n = m + 1 := ⟨n - 1, by simp only [List.length_singleton] at hn; omega⟩
    exact ends_step [uc] hs (Or.inl ⟨rfl, fun _ _ h => nomatch h⟩)
      (by simp [newlines, joinCrlf]) ends_nil
  | case3 uc next rest h ih =>
    obtain ⟨n, rfl⟩ : ∃ m, n = m + 1 := ⟨n - 1, by simp only [List.length_cons] at hn; omega⟩
    obtain ⟨rfl, rfl⟩ := h
    exact ends_step [0x000D, 0x000A] hs (Or.inr ⟨rfl, rfl⟩)
      (by simp [newlines, joinCrlf])
      (ih (by simp only [List.length_cons] at hn; omega))
  | case4 uc next rest h ih =>
    obtain ⟨n, rfl⟩ : ∃ m, n = m + 1 := ⟨n - 1, by simp only [List.length_cons] at hn; omega⟩
    refine ends_step [uc] hs (Or.inl ⟨rfl, ?_⟩) ?_
      (ih (by simp only [List.length_cons] at hn ⊢; omega))
    · rintro hcr x hx rfl
      exact h ⟨hcr, by simpa using hx⟩
    · rw [List.singleton_append, newlines, joinCrlf, if_neg h, List.flatMap_cons]
      rfl

end Loop

/-- The loop on a whole buffer. -/
theorem newlines_run (options : Utf8procOption) (l tail : List ℤ) :
    ∃ gap, gap.length + (newlines options l).length = l.length ∧
      run (nlfBody l.length options) (l.length + 1)
          { rpos := 0, wpos := 0, buffer := l ++ tail } =
        .ok ((newlines options l).length, newlines options l ++ gap ++ tail) := by
  have hentry : Compacting [] [] l tail { rpos := 0, wpos := 0, buffer := l ++ tail } :=
    ⟨rfl, rfl, rfl⟩
  have h : Ends options [] l tail _ l.length := ends_of_compacting le_rfl hentry
  simpa [Ends] using h

end LeoUTF8.NewlineNormalization
