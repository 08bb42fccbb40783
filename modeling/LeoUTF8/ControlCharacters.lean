import LeoUTF8.WellFormedOutput

set_option autoImplicit false

/-!
# Control characters in what is delivered

The conversions of newlines and control characters come before composition, so this must not
bring any back.
-/
namespace LeoUTF8.ControlCharacters
open HeapBlocks ScalarEncoding EngineTables EngineCompose EngineMap StarterComposition
open CodePointMapping CompositionCorrectness TableAssumptions MapCorrectness OptionMapping
open OptionPass NewlineNormalization OptionEncoding OptionMaps WellFormedOutput

def IsControl (c : ℕ) : Prop := c < 0x0020 ∨ 0x007F ≤ c ∧ c < 0x00A0

instance (c : ℕ) : Decidable (IsControl c) := inferInstanceAs (Decidable (_ ∨ _))

/-- No listed composite is a control character. -/
def PlainComposites (t : Utf8procData) : Prop := ∀ a b p, Listed t a b p → ¬ IsControl p

/-- What may still stand in a text after the conversions. -/
structure Converted (options : Utf8procOption) (c : ℕ) : Prop where
  newline : c = 0x000D ∨ c = 0x0085 → ¬ Newlines options
  linefeed : c = 0x000A → Newlines options →
    hasOption options utf8procNlf2ls = true ∧ hasOption options utf8procNlf2ps = true
  control : IsControl c → hasOption options utf8procStripcc = true → c = 0x000A

theorem composite_not_control {t : Utf8procData} (plain : PlainComposites t) {a b p : ℕ}
    (h : composite t a b = some p) : ¬ IsControl p := by
  rcases Option.or_eq_some_iff.mp h with h | ⟨_, h⟩
  · have hsyllable : 0xAC00 ≤ p := by
      unfold hangulComposite at h
      split_ifs at h with hlv hlvt
      · obtain rfl := Option.some.inj h
        omega
      · obtain rfl := Option.some.inj h
        have hrange := hlvt.1
        unfold IsHangulSyllable at hrange
        omega
    unfold IsControl
    omega
  · exact plain a b p (tableComposite_listed h)

theorem converted_of_not_control {options : Utf8procOption} {c : ℕ} (h : ¬ IsControl c) :
    Converted options c := by
  unfold IsControl at h
  constructor
  · rintro (rfl | rfl)
    · exact absurd h (by decide)
    · exact absurd h (by decide)
  · rintro rfl
    exact absurd h (by decide)
  · exact fun hcontrol => absurd hcontrol h

theorem converted_replacement {options : Utf8procOption} {c : ℕ} (h : nlfReplacement options = c) :
    Converted options c := by
  unfold nlfReplacement at h
  split_ifs at h with hls hps hps
  · obtain rfl : c = 0x000A := by omega
    constructor
    · intro hc
      exact absurd hc (by decide)
    · exact fun _ _ => ⟨hls, hps⟩
    · exact fun _ _ => rfl
  all_goals
    apply converted_of_not_control
    unfold IsControl
    omega

/-- A cell that the conversions leave as it is. -/
theorem converted_of_kept {options : Utf8procOption} {c : ℕ}
    (hnewline : Newlines options → ¬ IsNewline options c)
    (hstripped : Newlines options → ¬ IsStripped options c) : Converted options c := by
  constructor
  · intro hc hnewlines
    apply hnewline hnewlines
    rcases hc with rfl | rfl
    · exact Or.inr (Or.inl rfl)
    · exact Or.inr (Or.inr (Or.inl rfl))
  · rintro rfl hnewlines
    exact absurd (Or.inl rfl) (hnewline hnewlines)
  · intro hcontrol hstripcc
    apply absurd _ (hstripped (newlines_of_stripcc hstripcc))
    refine ⟨hstripcc, ?_⟩
    unfold IsControl at hcontrol
    omega

theorem newlines_converted {options : Utf8procOption} {l : List ℤ} :
    ∀ v ∈ newlines options l, ∀ c : ℕ, v = c → Converted options c := by
  intro v hv c hc
  subst hc
  obtain ⟨u, _, hv⟩ := List.mem_flatMap.mp hv
  unfold newlineCell at hv
  split_ifs at hv with hnewline hstripped htab
  · exact converted_replacement (List.mem_singleton.mp hv).symm
  · apply converted_of_not_control
    have hspace : (c : ℤ) = 0x0020 := List.mem_singleton.mp hv
    unfold IsControl
    omega
  · cases hv
  · obtain rfl : (c : ℤ) = u := List.mem_singleton.mp hv
    exact converted_of_kept (fun _ => hnewline) fun _ => hstripped

theorem mappedCells_converted {t : Utf8procData} (plain : PlainComposites t)
    {options : Utf8procOption} {customFunc : Option (ℤ → ℤ)} {l : List UInt8} :
    ∀ v ∈ mappedCells t options customFunc l, ∀ c : ℕ, v = c → Converted options c := by
  have hstage (l : List ℤ) : ∀ v ∈ (if Newlines options then newlines options l else l),
      ∀ c : ℕ, v = c → Converted options c := by
    by_cases hnewlines : Newlines options
    · rw [if_pos hnewlines]
      exact newlines_converted
    · rw [if_neg hnewlines]
      intro v _ c _
      exact converted_of_kept (absurd · hnewlines) (absurd · hnewlines)
  unfold mappedCells normalizedCells
  simp only
  by_cases hcompose : hasOption options utf8procCompose
  · rw [if_pos hcompose]
    intro v hv c hc
    obtain ⟨d, hd, rfl⟩ := List.mem_map.mp hv
    obtain rfl : d = c := by omega
    apply compose_forall _ _ (fun _ _ _ _ _ hp =>
      converted_of_not_control (composite_not_control plain hp)) _ d hd
    intro e he
    obtain ⟨u, hu, rfl⟩ := List.mem_map.mp he
    obtain ⟨hu, hnonneg⟩ := List.mem_filter.mp hu
    apply hstage _ u hu
    exact (Int.toNat_of_nonneg (by simpa using hnonneg)).symm
  · rw [if_neg hcompose]
    exact hstage _

/-- Whatever the options and the text, what a call delivers has no carriage return and no next
line after a conversion of newlines, a line feed only where it is what newlines are converted to,
and after stripping no other control character, although composition comes later. -/
theorem delivers_converted_text {rt : Runtime} (tables : OptionTables rt.data)
    (scalars : ScalarComposites rt.data) (plain : PlainComposites rt.data)
    {options : Utf8procOption} {mem : List UInt8} {strlen : ℤ}
    (readable : Readable options mem strlen) {customFunc : Option (ℤ → ℤ)}
    (hcustom : ScalarFunction customFunc) {heap after : Heap} {n : ℤ} {a : Address}
    (h : utf8procMapCustom rt heap mem strlen options customFunc = .ok (n, some a, after)) :
    ∃ cs block, Owned heap after a block ∧ (textBytes cs ++ [0]) <+: block ∧
      n = (textBytes cs).length ∧ ∀ c, some c ∈ cs → IsScalar c ∧ Converted options c := by
  obtain ⟨_, htext, block, howned, hholds, hn⟩ :=
    delivered_text tables scalars readable hcustom h rfl
  refine ⟨_, block, howned, hholds, hn, ?_⟩
  intro c hc
  refine ⟨cellText_isScalar htext c hc, ?_⟩
  exact mappedCells_converted plain _ (mem_cellText hc) c rfl

theorem acute_plainComposites : PlainComposites acuteData := by
  intro a b p h
  obtain ⟨_, _, rfl⟩ := acute_listed.mp h
  decide

/-- A tab, a bell and a newline among letters. -/
theorem delivers_converted_text_acute :
    ∃ (n : ℤ) (a : Address) (after : Heap) (cs : List (Option ℕ)) (block : List UInt8),
      utf8procMapCustom smallRuntime (fun _ => none) [0x65, 0xCC, 0x81, 0x09, 0x07, 0x0D, 0x0A] 7
          (utf8procStripcc ||| utf8procCompose) none = .ok (n, some a, after) ∧
      (textBytes cs ++ [0]) <+: block ∧
      ∀ c, some c ∈ cs → IsScalar c ∧ Converted (utf8procStripcc ||| utf8procCompose) c := by
  have tables : OptionTables smallRuntime.data := acute_optionTables
  have readable : Readable (utf8procStripcc ||| utf8procCompose)
      [0x65, 0xCC, 0x81, 0x09, 0x07, 0x0D, 0x0A] 7 := by decide
  obtain ⟨n, a, after, h⟩ := utf8procMapCustom_succeeds tables readable (fun _ => none) none
    (by decide +kernel) (by decide +kernel)
  obtain ⟨cs, block, _, hholds, _, hconverted⟩ := delivers_converted_text tables
    acute_scalarComposites acute_plainComposites readable (fun f hf => by cases hf) h
  exact ⟨n, a, after, cs, block, h, hholds, hconverted⟩

end LeoUTF8.ControlCharacters
