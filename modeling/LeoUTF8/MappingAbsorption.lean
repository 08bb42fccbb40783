import LeoUTF8.ReferenceMapping
import LeoUTF8.WellFormedOutput

set_option autoImplicit false

/-!
# Mapping what has been mapped

Mapping a result again, with the same options or with others that map more, gives what these give
for the text itself: each mapping is idempotent, and the compatibility forms absorb the canonical
ones. What has to hold of the tables is stated for the two sets of options.
-/
namespace LeoUTF8.MappingAbsorption
open HeapBlocks ScalarEncoding EngineTables EngineDecompose EngineMap RecursiveExpansion RunSorting
open StarterComposition CodePointMapping DecompositionCorrectness CompositionCorrectness
open TableAssumptions MapCorrectness OutputEncoding OptionMapping OptionPass NewlineNormalization
open OptionMaps ReferenceMapping WellFormedOutput

/-- A code point that stands for itself. -/
def Stands (t : Utf8procData) (options : Utf8procOption) (c : ℕ) : Prop :=
  codeEntry t options c = none ∧ codeTerminal t options c = [c]

/-- What composition can make of code points that stand for themselves. -/
inductive Composable (t : Utf8procData) (options : Utf8procOption) : ℕ → Prop where
  | stands {c : ℕ} (hc : c < 0x110000) (h : Stands t options c) : Composable t options c
  | composed {a b p : ℕ} (ha : Composable t options a) (hb : Composable t options b)
      (h : composite t a b = some p) : Composable t options p

/-- Options that differ in the normal form only, where the later may add `UTF8PROC_COMPAT`. -/
structure Continues (first later : Utf8procOption) : Prop where
  flat : Flat first
  later_flat : Flat later
  nullterm : hasOption later utf8procNullterm = hasOption first utf8procNullterm
  ignore : hasOption later utf8procIgnore = hasOption first utf8procIgnore
  rejectna : hasOption later utf8procRejectna = hasOption first utf8procRejectna
  stripna : hasOption later utf8procStripna = hasOption first utf8procStripna
  stripmark : hasOption later utf8procStripmark = hasOption first utf8procStripmark
  casefold : hasOption later utf8procCasefold = hasOption first utf8procCasefold
  canonical : Canonical later ↔ Canonical first
  compat : hasOption first utf8procCompat = true → hasOption later utf8procCompat = true

/-- What the tables have to say: jamo stand for themselves, a composite maps to what its parts
map to, and the later options do not replace marks that the first ones keep. -/
structure AbsorbingTables (t : Utf8procData) (first later : Utf8procOption) : Prop where
  hangul : HangulInert t
  jamo : ∀ c, IsConjoiningJamo c → Stands t later c ∧ (t.property c).category ≠ .cn
  composites : hasOption first utf8procCompose = true → ∀ a b p, Composable t first a →
    Composable t first b → Listed t a b p → (t.property p).category ≠ .cn ∧
      ∀ xs ys, FullMapping t first [a] xs → FullMapping t first [b] ys →
        FullMapping t first [p] (xs ++ ys)
  marks : ∀ c < 0x110000, 0 < combiningClass t c → codeEntry t first c = none →
    codeEntry t later c = none

section Mapping

variable {t : Utf8procData} {options : Utf8procOption}

theorem codeEntry_hasEntry {c : ℕ} {bs : List ℕ} (h : codeEntry t options c = some bs) :
    HasEntry t c bs := by
  unfold codeEntry at h
  split_ifs at h
  · exact Or.inl h
  · exact Or.inr (mappingEntry_compat h)

/-- A code point is a syllable, left out, or stands for itself where it has no entry. -/
theorem codeTerminal_cases {c : ℕ} (h : codeEntry t options c = none) :
    (IsSyllable ⟨options, c⟩ ∧ codeTerminal t options c = hangulJamo c) ∨
      ((Dropped t ⟨options, c⟩ ∨ Stripped t ⟨options, c⟩) ∧ codeTerminal t options c = []) ∨
        Stands t options c := by
  by_cases hsyllable : IsSyllable ⟨options, c⟩
  · exact Or.inl ⟨hsyllable, if_pos hsyllable⟩
  by_cases hout : Dropped t ⟨options, c⟩ ∨ Stripped t ⟨options, c⟩
  · refine Or.inr (Or.inl ⟨hout, ?_⟩)
    rw [codeTerminal, if_neg hsyllable, if_pos hout]
  · refine Or.inr (Or.inr ⟨h, ?_⟩)
    rw [codeTerminal, if_neg hsyllable, if_neg hout]

variable (tables : OptionTables t) (flat : Flat options)
include tables flat

theorem mapping_entry {c : ℕ} (hc : c < 0x110000) {bs : List ℕ}
    (h : codeEntry t options c = some bs) :
    mapping t options c = bs.flatMap (mapping t options) := by
  have hone := fullMapping_codes flat tables (List.forall_mem_singleton.mpr hc)
  have hbs := fullMapping_codes flat tables fun b hb =>
    (hasEntry_isScalar (codeEntry_hasEntry h) b hb).lt
  rw [List.flatMap_singleton] at hone
  have hsame := hone.unique (.entry h hbs .nil)
  rwa [List.append_nil] at hsame

theorem mapping_terminal {c : ℕ} (hc : c < 0x110000) (h : codeEntry t options c = none) :
    mapping t options c = codeTerminal t options c := by
  have hone := fullMapping_codes flat tables (List.forall_mem_singleton.mpr hc)
  rw [List.flatMap_singleton] at hone
  have hsame := hone.unique (.terminal h .nil)
  rwa [List.append_nil] at hsame

theorem mapping_stands {c : ℕ} (hc : c < 0x110000) (h : Stands t options c) :
    mapping t options c = [c] := by
  rw [mapping_terminal tables flat hc h.1, h.2]

end Mapping

section Continues

variable {t : Utf8procData} {first later : Utf8procOption} (continues : Continues first later)
include continues

theorem isSyllable_later (c : ℕ) : IsSyllable ⟨later, c⟩ ↔ IsSyllable ⟨first, c⟩ :=
  and_congr_left' continues.canonical

theorem dropped_later (c : ℕ) : Dropped t ⟨later, c⟩ ↔ Dropped t ⟨first, c⟩ := by
  simp only [Dropped, continues.ignore, continues.stripna]

theorem stripped_later (c : ℕ) : Stripped t ⟨later, c⟩ ↔ Stripped t ⟨first, c⟩ := by
  simp only [Stripped, continues.stripmark]

theorem rejected_later (c : ℕ) : Rejected t ⟨later, c⟩ ↔ Rejected t ⟨first, c⟩ := by
  simp only [Rejected, isSyllable_later continues, continues.rejectna]

theorem codeTerminal_later (c : ℕ) : codeTerminal t later c = codeTerminal t first c := by
  simp only [codeTerminal, isSyllable_later continues, dropped_later continues,
    stripped_later continues]

theorem codeEntry_later {c : ℕ} {bs : List ℕ} (h : codeEntry t first c = some bs) :
    codeEntry t later c = some bs := by
  rw [codeEntry] at h ⊢
  simp only [isSyllable_later continues, dropped_later continues, stripped_later continues,
    continues.casefold, continues.canonical]
  split_ifs at h ⊢
  · exact h
  · unfold mappingEntry at h ⊢
    split_ifs at h with hentry
    rw [if_pos ⟨hentry.1, hentry.2.imp_right continues.compat⟩]
    exact h

theorem stands_first {c : ℕ} (h : Stands t later c) : Stands t first c := by
  refine ⟨?_, codeTerminal_later continues c ▸ h.2⟩
  by_contra hentry
  obtain ⟨bs, hbs⟩ := Option.ne_none_iff_exists'.mp hentry
  have := codeEntry_later continues hbs
  rw [h.1] at this
  cases this

end Continues

section Absorption

variable {t : Utf8procData} (tables : OptionTables t) {first later : Utf8procOption}
  (continues : Continues first later) (absorbing : AbsorbingTables t first later)
include tables continues absorbing

/-- What is mapped consists of code points that stand for themselves and are not refused. -/
theorem mapped_stands {cs : List ℕ} (hcs : ∀ c ∈ cs, Accepted t ⟨first, c⟩) :
    ∀ x ∈ cs.flatMap (mapping t first), Accepted t ⟨first, x⟩ ∧ Stands t first x := by
  refine (fullMapping_codes continues.flat tables fun c hc => (hcs c hc).1).forall ?_ ?_ hcs
  · intro a bs ha h b hb
    exact ⟨(hasEntry_isScalar (codeEntry_hasEntry h) b hb).lt, fun hrejected =>
      tables.assigned a ha.1 bs (codeEntry_hasEntry h) b hb hrejected.2.2⟩
  · intro a ha h x hx
    rcases codeTerminal_cases h with ⟨hsyllable, hjamo⟩ | ⟨hout, hnil⟩ | hstands
    · rw [hjamo] at hx
      have hconjoining := hangulJamo_conjoining hsyllable.2 x hx
      obtain ⟨hstands, hassigned⟩ := absorbing.jamo x hconjoining
      refine ⟨⟨?_, fun hrejected => hassigned hrejected.2.2⟩, stands_first continues hstands⟩
      unfold IsConjoiningJamo at hconjoining
      simp only
      omega
    · rw [hnil] at hx
      cases hx
    · rw [hstands.2, List.mem_singleton] at hx
      rw [hx]
      exact ⟨ha, hstands⟩

/-- The later mapping absorbs the first one. -/
theorem mapping_mapping {cs : List ℕ} (hcs : ∀ c ∈ cs, c < 0x110000) :
    (cs.flatMap (mapping t first)).flatMap (mapping t later) = cs.flatMap (mapping t later) := by
  refine (fullMapping_codes continues.flat tables hcs).flatMap_eq (p := (· < 0x110000)) _
    (fun a bs _ h b hb => (hasEntry_isScalar (codeEntry_hasEntry h) b hb).lt) ?_ ?_ hcs
  · exact fun a bs ha h =>
      mapping_entry tables continues.later_flat ha (codeEntry_later continues h)
  · intro a ha h
    rcases codeTerminal_cases h with ⟨hsyllable, hjamo⟩ | ⟨hout, hnil⟩ | hstands
    · have hnone : codeEntry t later a = none :=
        if_pos (Or.inl ((isSyllable_later continues a).mpr hsyllable))
      rw [mapping_terminal tables continues.later_flat ha hnone, codeTerminal_later continues,
        hjamo]
      refine (flatMap_singletons fun x hx => ?_).symm
      have hconjoining := hangulJamo_conjoining hsyllable.2 x hx
      refine mapping_stands tables continues.later_flat ?_ (absorbing.jamo x hconjoining).1
      unfold IsConjoiningJamo at hconjoining
      omega
    · have hnone : codeEntry t later a = none := by
        refine if_pos (Or.inr ?_)
        rwa [dropped_later continues, stripped_later continues]
      rw [mapping_terminal tables continues.later_flat ha hnone, codeTerminal_later continues,
        hnil]
      rfl
    · rw [hstands.2, List.flatMap_singleton]

variable (hcompose : hasOption first utf8procCompose = true)

include hcompose in
theorem mapping_hangul {a b p : ℕ} (h : hangulComposite a b = some p) :
    IsHangulSyllable p ∧ p < 0x110000 ∧
      mapping t first p = mapping t first a ++ mapping t first b := by
  have hcanonical := canonical_of_compose hcompose
  have hsyllable {c : ℕ} (hc : IsHangulSyllable c) :
      mapping t first c = expansion t .nfd c := by
    have hlt : c < 0x110000 := by
      unfold IsHangulSyllable at hc
      omega
    rw [expansion_of_syllable hc, mapping_terminal tables continues.flat hlt
      (if_pos (Or.inl ⟨hcanonical, hc⟩)), codeTerminal, if_pos ⟨hcanonical, hc⟩]
  have hjamo {c : ℕ} (hc : IsConjoiningJamo c) : mapping t first c = expansion t .nfd c := by
    have hlt : c < 0x110000 := by
      unfold IsConjoiningJamo at hc
      omega
    rw [expansion_of_unmapped (unmapped_of_jamo absorbing.hangul hc), mapping_stands tables
      continues.flat hlt (stands_first continues (absorbing.jamo c hc).1)]
  have hexpansion := expansion_hangulComposite absorbing.hangul h
  unfold hangulComposite at h
  split_ifs at h with hlv hlvt
  · obtain rfl := Option.some.inj h
    obtain ⟨ha, ha', hb, hb'⟩ := hlv
    have hp : IsHangulSyllable (0xAC00 + ((a - 0x1100) * 21 + (b - 0x1161)) * 28) := by
      unfold IsHangulSyllable
      omega
    refine ⟨hp, by unfold IsHangulSyllable at hp; omega, ?_⟩
    rw [hsyllable hp, hexpansion, hjamo (Or.inl ⟨ha, ha'⟩), hjamo (Or.inr (Or.inl ⟨hb, hb'⟩))]
  · obtain rfl := Option.some.inj h
    obtain ⟨ha, _, hb, hb'⟩ := hlvt
    have hp : IsHangulSyllable (a + (b - 0x11A7)) := by
      unfold IsHangulSyllable at ha ⊢
      omega
    refine ⟨hp, by unfold IsHangulSyllable at hp; omega, ?_⟩
    rw [hsyllable hp, hexpansion, hsyllable ha, hjamo (Or.inr (Or.inr ⟨hb, hb'⟩))]

include hcompose in
/-- A composite of composable code points maps to what they map to, and is not refused. -/
theorem mapping_composite {a b p : ℕ} (ha : Composable t first a) (hb : Composable t first b)
    (hla : a < 0x110000) (hlb : b < 0x110000) (h : composite t a b = some p) :
    Accepted t ⟨first, p⟩ ∧ mapping t first p = mapping t first a ++ mapping t first b := by
  rw [composite, Option.or_eq_some_iff] at h
  rcases h with h | ⟨_, h⟩
  · obtain ⟨hsyllable, hlt, hp⟩ := mapping_hangul tables continues absorbing hcompose h
    have hcanonical := canonical_of_compose hcompose
    exact ⟨⟨hlt, fun hrejected => hrejected.1 ⟨hcanonical, hsyllable⟩⟩, hp⟩
  · have hlp := tableComposite_lt h
    obtain ⟨hassigned, hfull⟩ :=
      absorbing.composites hcompose a b p ha hb (tableComposite_listed h)
    have hone {c : ℕ} (hc : c < 0x110000) : FullMapping t first [c] (mapping t first c) := by
      have hsingle := fullMapping_codes continues.flat tables (List.forall_mem_singleton.mpr hc)
      rwa [List.flatMap_singleton] at hsingle
    exact ⟨⟨hlp, fun hrejected => hassigned hrejected.2.2⟩,
      (hone hlp).unique (hfull _ _ (hone hla) (hone hlb))⟩

/-- What the first call delivers is composable, stands for itself or is composed. -/
theorem finished_spec {xs : List ℕ}
    (hxs : ∀ x ∈ xs, Accepted t ⟨first, x⟩ ∧ Stands t first x) :
    ∀ y ∈ finished t first xs, Composable t first y ∧ Accepted t ⟨first, y⟩ := by
  have hordered : ∀ x ∈ ordered t first xs, Composable t first x ∧ Accepted t ⟨first, x⟩ := by
    intro x hx
    have hmem : x ∈ xs := by
      unfold ordered at hx
      split_ifs at hx
      · exact (mem_sortRuns _).mp hx
      · exact hx
    exact ⟨.stands (hxs x hmem).1.1 (hxs x hmem).2, (hxs x hmem).1⟩
  unfold finished
  by_cases hcompose : hasOption first utf8procCompose
  · rw [if_pos hcompose]
    apply compose_forall (p := fun y => Composable t first y ∧ Accepted t ⟨first, y⟩)
    · intro a b p ha hb hp
      exact ⟨.composed ha.1 hb.1 hp,
        (mapping_composite tables continues absorbing hcompose ha.1 hb.1 ha.2.1 hb.2.1 hp).1⟩
    · exact hordered
  · rw [if_neg hcompose]
    exact hordered

/-- Code points that stand for themselves may be ordered before they are mapped. -/
theorem ordered_mapping {xs : List ℕ}
    (hxs : ∀ x ∈ xs, Accepted t ⟨first, x⟩ ∧ Stands t first x) :
    sortRuns (combiningClass t) ((sortRuns (combiningClass t) xs).flatMap (mapping t later)) =
      sortRuns (combiningClass t) (xs.flatMap (mapping t later)) := by
  apply sortRuns_flatMap_sortRuns
  intro x hx hclass
  obtain ⟨⟨hlt, _⟩, hnone, hself⟩ := hxs x hx
  apply mapping_stands tables continues.later_flat hlt
  exact ⟨absorbing.marks x hlt hclass hnone, (codeTerminal_later continues x).trans hself⟩

/-- Mapping and ordering undoes composition. -/
theorem ordered_composed (nonneg : NonnegativeClasses t)
    (hcompose : hasOption first utf8procCompose = true) {xs : List ℕ}
    (hxs : ∀ x ∈ xs, Accepted t ⟨first, x⟩ ∧ Stands t first x) :
    sortRuns (combiningClass t)
        ((composition t (sortRuns (combiningClass t) xs)).flatMap (mapping t first)) =
      sortRuns (combiningClass t) xs := by
  have hpair : ∀ a b p, Composable t first a ∧ Accepted t ⟨first, a⟩ →
      Composable t first b ∧ Accepted t ⟨first, b⟩ → composite t a b = some p →
        (Composable t first p ∧ Accepted t ⟨first, p⟩) ∧
          mapping t first p = mapping t first a ++ mapping t first b := by
    intro a b p ha hb hp
    obtain ⟨haccepted, hmapping⟩ :=
      mapping_composite tables continues absorbing hcompose ha.1 hb.1 ha.2.1 hb.2.1 hp
    exact ⟨⟨.composed ha.1 hb.1 hp, haccepted⟩, hmapping⟩
  have hsorted : ∀ x ∈ sortRuns (combiningClass t) xs,
      (Composable t first x ∧ Accepted t ⟨first, x⟩) ∧ mapping t first x = [x] ∧
        0 ≤ combiningClass t x := by
    intro x hx
    obtain ⟨haccepted, hself⟩ := hxs x ((mem_sortRuns _).mp hx)
    exact ⟨⟨.stands haccepted.1 hself, haccepted⟩,
      mapping_stands tables continues.flat haccepted.1 hself, nonneg x haccepted.1⟩
  calc
    _ = sortRuns (combiningClass t) (sortRuns (combiningClass t) xs) :=
      sortRuns_flatMap_compose _ _ hpair hsorted
    _ = sortRuns (combiningClass t) xs := sortRuns_idem _ _

/-- Mapping and ordering what the first call delivers is mapping and ordering the text. -/
theorem ordered_absorbed (nonneg : NonnegativeClasses t) {cs : List ℕ}
    (hcs : ∀ c ∈ cs, Accepted t ⟨first, c⟩) :
    ordered t later ((finished t first (cs.flatMap (mapping t first))).flatMap (mapping t later)) =
      ordered t later (cs.flatMap (mapping t later)) := by
  have habsorbed := mapping_mapping tables continues absorbing fun c hc => (hcs c hc).1
  have hstands := mapped_stands tables continues absorbing hcs
  generalize cs.flatMap (mapping t first) = xs at *
  by_cases hcanonical : Canonical first
  · have hlater : Canonical later := continues.canonical.mpr hcanonical
    have hsorted := ordered_mapping tables continues absorbing hstands
    simp only [ordered, if_pos hlater]
    have hys := finished_spec tables continues absorbing hstands
    unfold finished ordered at hys ⊢
    rw [if_pos hcanonical] at hys ⊢
    by_cases hcompose : hasOption first utf8procCompose
    · rw [if_pos hcompose] at hys ⊢
      have hcodes : ∀ y ∈ composition t (sortRuns (combiningClass t) xs), Accepted t ⟨first, y⟩ :=
        fun y hy => (hys y hy).2
      have hundone := ordered_composed tables continues absorbing nonneg hcompose hstands
      generalize composition t (sortRuns (combiningClass t) xs) = ys at *
      calc
        sortRuns (combiningClass t) (ys.flatMap (mapping t later)) =
            sortRuns (combiningClass t)
              ((ys.flatMap (mapping t first)).flatMap (mapping t later)) := by
          rw [mapping_mapping tables continues absorbing fun y hy => (hcodes y hy).1]
        _ = sortRuns (combiningClass t) ((sortRuns (combiningClass t)
            (ys.flatMap (mapping t first))).flatMap (mapping t later)) :=
          (ordered_mapping tables continues absorbing
            (mapped_stands tables continues absorbing hcodes)).symm
        _ = sortRuns (combiningClass t) (xs.flatMap (mapping t later)) := by rw [hundone, hsorted]
        _ = sortRuns (combiningClass t) (cs.flatMap (mapping t later)) := by rw [habsorbed]
    · rw [if_neg hcompose, hsorted, habsorbed]
  · have hcompose : ¬ hasOption first utf8procCompose = true :=
      fun h => hcanonical (canonical_of_compose h)
    rw [finished, if_neg hcompose, ordered, ordered, ordered, if_neg hcanonical, habsorbed]

end Absorption

section Calls

variable {t : Utf8procData} {options : Utf8procOption}

theorem not_refused_of_accepted {c : ℕ} (h : Accepted t ⟨options, c⟩) :
    ¬ Refused t options (c : ℤ) := by
  obtain ⟨hlt, hassigned⟩ := h
  unfold Refused
  rw [Int.toNat_natCast]
  rintro (hneg | hhigh | hrejected)
  · omega
  · exact absurd hhigh (by simp only at hlt; omega)
  · exact hassigned hrejected

theorem finished_forall {p : ℕ → Prop} (hpair : ∀ a b c, composite t a b = some c → p c)
    {xs : List ℕ} (hxs : ∀ x ∈ xs, p x) : ∀ y ∈ finished t options xs, p y := by
  have hordered : ∀ x ∈ ordered t options xs, p x := by
    unfold ordered
    split_ifs
    · exact fun x hx => hxs x ((mem_sortRuns _).mp hx)
    · exact hxs
  unfold finished
  split_ifs
  · exact compose_forall _ _ (fun a b c _ _ hp => hpair a b c hp) hordered
  · exact hordered

theorem finished_isScalar (tables : OptionTables t) (scalars : ScalarComposites t) {cs : List ℕ}
    (hcs : ∀ c ∈ cs, IsScalar c) :
    ∀ y ∈ finished t options (cs.flatMap (mapping t options)), IsScalar y := by
  apply finished_forall fun _ _ _ hp => composite_isScalar scalars hp
  intro x hx
  obtain ⟨c, hc, hx⟩ := List.mem_flatMap.mp hx
  obtain ⟨i, hi, rfl⟩ := List.mem_map.mp hx
  exact items_isScalar tables (hcs c hc) i hi

variable {pf : Platform} {first later : Utf8procOption}

theorem refused_later (continues : Continues first later) (uc : ℤ) :
    Refused t later uc ↔ Refused t first uc := by
  simp only [Refused, rejected_later continues]

/-- The later options make the same of the text and of what the first ones deliver for it. -/
theorem pass_absorbed (tables : OptionTables t) (continues : Continues first later)
    (absorbing : AbsorbingTables t first later) (nonneg : NonnegativeClasses t)
    (scalars : ScalarComposites t) {customFunc : Option (ℤ → ℤ)}
    (hcustom : ScalarFunction customFunc) {l : List UInt8}
    (accepted : ∀ uc ∈ inputValues customFunc l, ¬ Refused t first uc)
    (hrest : (decode l).2 = []) {ys : List ℕ}
    (hys : ys = finished t first
      (((inputValues customFunc l).map Int.toNat).flatMap (mapping t first))) :
    decomposedCells t later (inputValues none (encodeAll ys)) =
        decomposedCells t later (inputValues customFunc l) ∧
      passError pf t later none (encodeAll ys) = passError pf t later customFunc l := by
  have hcs : ∀ c ∈ (inputValues customFunc l).map Int.toNat, Accepted t ⟨first, c⟩ := by
    intro c hc
    obtain ⟨uc, huc, rfl⟩ := List.mem_map.mp hc
    exact (accepted_of_not_refused (accepted uc huc)).1
  have haccepted : ∀ uc ∈ inputValues customFunc l, ¬ Refused t later uc :=
    fun uc huc h => accepted uc huc ((refused_later continues uc).mp h)
  have hfinished := finished_spec tables continues absorbing
    (mapped_stands tables continues absorbing hcs)
  rw [← hys] at hfinished
  have hscalar : ∀ y ∈ ys, IsScalar y := by
    rw [hys]
    apply finished_isScalar tables scalars
    intro c hc
    obtain ⟨uc, huc, rfl⟩ := List.mem_map.mp hc
    exact values_isScalar hcustom accepted uc huc
  have hdecode := decode_encodeAll hscalar
  have hvalues : inputValues none (encodeAll ys) = ys.map Nat.cast := by
    rw [inputValues, hdecode]
    rfl
  have haccepted' : ∀ uc ∈ inputValues none (encodeAll ys), ¬ Refused t later uc := by
    intro uc huc
    rw [hvalues] at huc
    obtain ⟨y, hy, rfl⟩ := List.mem_map.mp huc
    rw [refused_later continues]
    exact not_refused_of_accepted (hfinished y hy).2
  have hcells : decomposedCells t later (inputValues none (encodeAll ys)) =
      decomposedCells t later (inputValues customFunc l) := by
    rw [decomposedCells_flat continues.later_flat tables haccepted',
      decomposedCells_flat continues.later_flat tables haccepted, hvalues, List.map_map,
      show Int.toNat ∘ (Nat.cast : ℕ → ℤ) = id from funext Int.toNat_natCast, List.map_id, hys,
      ordered_absorbed tables continues absorbing nonneg hcs]
  refine ⟨hcells, ?_⟩
  have hcount : cellCount t later none (encodeAll ys) = cellCount t later customFunc l := by
    rw [cellCount, ← decomposedCells_length, hcells, decomposedCells_length, cellCount]
  rw [passError_of_accepted haccepted' (by rw [hdecode]), passError_of_accepted haccepted hrest,
    hcount]

end Calls

/-- What a call with the first options delivers, and a call with the later ones for that. -/
theorem delivered_absorbed {rt : Runtime} (tables : OptionTables rt.data)
    (scalars : ScalarComposites rt.data) (nonneg : NonnegativeClasses rt.data)
    {first later : Utf8procOption} (continues : Continues first later)
    (absorbing : AbsorbingTables rt.data first later) (hfirst : ¬ Newlines first)
    {mem : List UInt8} {strlen : ℤ} (readable : Readable first mem strlen)
    {customFunc : Option (ℤ → ℤ)} (hcustom : ScalarFunction customFunc) {heap after : Heap} {n : ℤ}
    {a : Address}
    (h : utf8procMapCustom rt heap mem strlen first customFunc = .ok (n, some a, after))
    {cs ys : List ℕ}
    (hcs : cs = (inputValues customFunc (inputText first mem strlen)).map Int.toNat)
    (hys : ys = finished rt.data first (cs.flatMap (mapping rt.data first))) :
    (∀ c ∈ cs, c < 0x110000) ∧
      mappedBytes rt.data first customFunc (inputText first mem strlen) = encodeAll ys ∧
      ∃ block, Owned heap after a block ∧ (encodeAll ys ++ [0]) <+: block ∧
        n = (encodeAll ys).length ∧
        ∀ mem' strlen', Readable later mem' strlen' → inputText later mem' strlen' = encodeAll ys →
          ∀ heap', utf8procMapCustom rt heap' mem' strlen' later none =
            utf8procMapCustom rt heap' mem strlen later customFunc := by
  subst hcs
  obtain ⟨block, hn, hdelivered, herror⟩ := utf8procMapCustom_delivers tables readable h
  obtain ⟨_, accepted, _, hrest⟩ := accepted_of_passError herror
  have hsame : inputText later mem strlen = inputText first mem strlen := by
    rw [inputText, inputText, continues.nullterm]
  have hreadable : Readable later mem strlen := by
    rw [Readable, continues.nullterm]
    exact readable
  have hlt : ∀ c ∈ (inputValues customFunc (inputText first mem strlen)).map Int.toNat,
      c < 0x110000 := by
    intro c hc
    obtain ⟨uc, huc, rfl⟩ := List.mem_map.mp hc
    exact (accepted_of_not_refused (accepted uc huc)).1.1
  have hbytes := (mappedBytes_flat continues.flat tables accepted hfirst
    (fullMapping_codes continues.flat tables hlt)).2
  rw [← hys] at hbytes
  rw [hbytes] at hn hdelivered
  refine ⟨hlt, hbytes, block, hdelivered.owned, hdelivered.holds, hn, ?_⟩
  intro mem' strlen' hreadable' hinput heap'
  obtain ⟨hcells, herror'⟩ := @pass_absorbed _ rt.platform _ _ tables continues absorbing nonneg
    scalars _ hcustom _ accepted hrest _ hys
  apply mapCustom_congr tables hreadable hreadable' fun _ _ _ => rfl
  · rw [hinput, hsame, herror']
  · intro _
    rw [hinput, hsame, hcells]

section Acute

def foldedCompose : Utf8procOption := utf8procCompose ||| utf8procCasefold

def foldedCompat : Utf8procOption :=
  EngineTables.utf8procDecompose ||| utf8procCompat ||| utf8procCasefold

theorem acute_continues : Continues foldedCompose foldedCompat where
  flat := ⟨by decide, by decide⟩
  later_flat := ⟨by decide, by decide⟩
  nullterm := by decide
  ignore := by decide
  rejectna := by decide
  stripna := by decide
  stripmark := by decide
  casefold := by decide
  canonical := by decide
  compat := by decide

/-- The small table replaces nothing but A and é. -/
theorem acute_stands {options : Utf8procOption} (hignore : hasOption options utf8procIgnore = false)
    (hstripmark : hasOption options utf8procStripmark = false) {c : ℕ} (hA : c ≠ 0x41)
    (he : c ≠ 0xE9) (hsyllable : ¬ IsHangulSyllable c) : Stands acuteData options c := by
  constructor
  · by_contra hsome
    obtain ⟨bs, hbs⟩ := Option.ne_none_iff_exists'.mp hsome
    rcases acute_hasEntry (codeEntry_hasEntry hbs) with ⟨h, _⟩ | ⟨h, _⟩
    · exact hA h
    · exact he h
  · rw [codeTerminal, if_neg fun h => hsyllable h.2, if_neg]
    rintro ((⟨h, _⟩ | ⟨_, h⟩) | ⟨h, _⟩)
    · exact absurd h (by simp [hignore])
    · rw [acute_property] at h
      cases h
    · exact absurd h (by simp [hstripmark])

theorem acute_absorbs {first later : Utf8procOption}
    (hfirst : hasOption first utf8procIgnore = false ∧ hasOption first utf8procStripmark = false)
    (hlater : hasOption later utf8procIgnore = false ∧ hasOption later utf8procStripmark = false)
    (hentry : codeEntry acuteData first 0xE9 = some [0x65, 0x301]) :
    AbsorbingTables acuteData first later where
  hangul := acute_hangulInert
  jamo := by
    intro c hc
    have hrange : c ≠ 0x41 ∧ c ≠ 0xE9 ∧ ¬ IsHangulSyllable c := by
      unfold IsConjoiningJamo at hc
      unfold IsHangulSyllable
      omega
    refine ⟨acute_stands hlater.1 hlater.2 hrange.1 hrange.2.1 hrange.2.2, ?_⟩
    rw [acute_property]
    exact Category.noConfusion
  composites := by
    intro _ a b p _ _ h
    obtain ⟨rfl, rfl, rfl⟩ := acute_listed.mp h
    constructor
    · rw [acute_property]
      exact Category.noConfusion
    intro xs ys hxs hys
    have hself {c : ℕ} (h : Stands acuteData first c) :
        FullMapping acuteData first [c] (codeTerminal acuteData first c ++ []) :=
      .terminal h.1 .nil
    have he : Stands acuteData first 0x65 :=
      acute_stands hfirst.1 hfirst.2 (by decide) (by decide) (by decide)
    have hacute : Stands acuteData first 0x301 :=
      acute_stands hfirst.1 hfirst.2 (by decide) (by decide) (by decide)
    rw [hxs.unique (hself he), hys.unique (hself hacute), he.2, hacute.2]
    have hp := Expands.entry hentry ((hself he).append (hself hacute)) .nil
    rwa [he.2, hacute.2, List.append_nil] at hp
  marks := by
    intro c _ hclass _
    rw [acute_combiningClass] at hclass
    split_ifs at hclass with hc
    · rw [hc]
      exact (acute_stands hlater.1 hlater.2 (by decide) (by decide) (by decide)).1
    · omega

theorem acute_absorbing : AbsorbingTables acuteData foldedCompose foldedCompat :=
  acute_absorbs (by decide) (by decide) (by decide +kernel)

end Acute

end LeoUTF8.MappingAbsorption
