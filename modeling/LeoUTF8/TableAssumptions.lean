import LeoUTF8.CompositionCorrectness

set_option autoImplicit false

/-!
# What the results assume of the tables

Named assumptions on the Unicode data, what follows from them for single code points,
and a small table that satisfies them.
-/
namespace LeoUTF8.TableAssumptions
open ScalarEncoding EngineTables EngineCompose RecursiveExpansion StarterComposition
open CodePointMapping CompositionCorrectness

/-- The full canonical decomposition of a sequence of code points, in table order. -/
abbrev FullDecomposition (t : Utf8procData) : List ℕ → List ℕ → Prop :=
  Expands (entry t .nfd) (terminal .nfd)

/-- The combining classes of Unicode are 0 to 254; the field that holds them is signed. -/
def NonnegativeClasses (t : Utf8procData) : Prop := ∀ c < 0x110000, 0 ≤ combiningClass t c

/-- The jamo that take part in the composition of Hangul syllables. -/
def IsConjoiningJamo (c : ℕ) : Prop :=
  (0x1100 ≤ c ∧ c < 0x1100 + 19) ∨ (0x1161 ≤ c ∧ c < 0x1161 + 21) ∨ (0x11A7 < c ∧ c < 0x11A7 + 28)

/-- Conjoining jamo and Hangul syllables have class zero and no decomposition in the table. -/
structure HangulInert (t : Utf8procData) : Prop where
  class_zero : ∀ c, IsConjoiningJamo c ∨ IsHangulSyllable c → combiningClass t c = 0
  no_entry : ∀ c, IsConjoiningJamo c ∨ IsHangulSyllable c → decompositionEntry t c = none

/-- The composition table lists `p` for the pair of `a` and `b`. -/
def Listed (t : Utf8procData) (a b p : ℕ) : Prop :=
  (t.property a).combIndex.val < 0x3FF ∧ ∃ k < (t.property a).combLength.val,
    t.combinationsSecond ((t.property a).combIndex.val + k) = b ∧
      (t.combinationsCombined ((t.property a).combIndex.val + k)).val = p

def ScalarComposites (t : Utf8procData) : Prop := ∀ a b p, Listed t a b p → IsScalar p

/-- A listed pair decomposes like what it composes to, and both start with a starter. -/
structure CompositionsDecompose (t : Utf8procData) : Prop where
  decomposes : ∀ a b p, a < 0x110000 → b < 0x110000 → Listed t a b p →
    ∀ xs ys, FullDecomposition t [a] xs → FullDecomposition t [b] ys →
      FullDecomposition t [p] (xs ++ ys)
  starters : ∀ a b p, Listed t a b p → combiningClass t a = 0 ∧ combiningClass t p = 0

/-- The composition table against the primary composites of the Unicode Standard. -/
structure PrimaryComposites (t : Utf8procData) (primary : ℕ → ℕ → Option ℕ) : Prop where
  starters : ∀ a b p, primary a b = some p → combiningClass t a = 0 ∧ combiningClass t p = 0
  ascending : ∀ a < 0x110000, (t.property a).combIndex.val < 0x3FF →
    ∀ i j, i < j → j < (t.property a).combLength.val →
      t.combinationsSecond ((t.property a).combIndex.val + i) <
        t.combinationsSecond ((t.property a).combIndex.val + j)
  exact : ∀ a b p, a < 0x110000 → b < 0x110000 → (Listed t a b p ↔ primary a b = some p)
  issecond : ∀ a b p, a < 0x110000 → b < 0x110000 → Listed t a b p → (t.property b).combIssecond
  index : ∀ a < 0x110000, (t.property a).combIndex = 0x3FF ↔ ∀ b, primary a b = none

/-- U+0000 has class zero, stands for itself, is in no composition, and nothing else maps to it. -/
structure NulInert (t : Utf8procData) : Prop where
  class_zero : combiningClass t 0 = 0
  no_entry : ∀ T, entry t T 0 = none
  not_mapped : ∀ T c bs, entry t T c = some bs → 0 ∉ bs
  not_listed : ∀ a b p, Listed t a b p → a ≠ 0 ∧ b ≠ 0 ∧ p ≠ 0

section Search

variable (t : Utf8procData) (idx : ℕ) (c : ℤ)

theorem searchSecond_some {n off : ℕ} {z : ℤ} (h : searchSecond t idx c n off = some z) :
    ∃ k < n, t.combinationsSecond (idx + (off + k)) = c ∧
      z = (t.combinationsCombined (idx + (off + k))).val := by
  induction n generalizing off with
  | zero => simp [searchSecond] at h
  | succ n ih =>
    simp only [searchSecond] at h
    split_ifs at h with hlt heq
    · obtain rfl := Option.some.inj h
      exact ⟨0, Nat.succ_pos n, heq.symm, rfl⟩
    · obtain ⟨k, hk, hsecond, hz⟩ := ih h
      have hoff : off + (k + 1) = off + 1 + k := by omega
      exact ⟨k + 1, by omega, by rw [hoff, hsecond], by rw [hoff, hz]⟩

/-- In an ascending list the search does not stop before the entry it is for. -/
theorem searchSecond_ascending {n off : ℕ}
    (ascending : ∀ i j, i < j → j < n →
      t.combinationsSecond (idx + (off + i)) < t.combinationsSecond (idx + (off + j)))
    {k : ℕ} (hk : k < n) (hc : t.combinationsSecond (idx + (off + k)) = c) :
    searchSecond t idx c n off = some ((t.combinationsCombined (idx + (off + k))).val : ℤ) := by
  induction n generalizing off k with
  | zero => omega
  | succ n ih =>
    simp only [searchSecond]
    cases k with
    | zero =>
      rw [Nat.add_zero] at hc
      rw [if_neg (by omega), if_pos hc.symm, Nat.add_zero]
    | succ k =>
      have hlt := ascending 0 (k + 1) (Nat.succ_pos k) hk
      rw [Nat.add_zero, hc] at hlt
      have hoff (i : ℕ) : off + (i + 1) = off + 1 + i := by omega
      rw [if_neg (by omega), if_neg (by omega), hoff k]
      refine ih (fun i j hij hj => ?_) (show k < n by omega) (by rw [← hoff]; exact hc)
      have := ascending (i + 1) (j + 1) (by omega) (by omega)
      rwa [hoff i, hoff j] at this

end Search

theorem tableComposite_listed {t : Utf8procData} {a b p : ℕ} (h : tableComposite t a b = some p) :
    Listed t a b p := by
  unfold tableComposite at h
  simp only at h
  split_ifs at h with hcond
  obtain ⟨z, hz, rfl⟩ := Option.map_eq_some_iff.mp h
  obtain ⟨k, hk, hsecond, rfl⟩ := searchSecond_some t _ _ hz
  rw [Nat.zero_add] at hsecond ⊢
  exact ⟨hcond.1, k, hk, hsecond, (Int.toNat_natCast _).symm⟩

/-- The search, cut short by the order and by the largest second, finds the primary composites. -/
theorem tableComposite_eq_primary {t : Utf8procData} {primary : ℕ → ℕ → Option ℕ}
    (h : PrimaryComposites t primary) {a b : ℕ} (ha : a < 0x110000) (hb : b < 0x110000) :
    tableComposite t a b = primary a b := by
  cases hp : primary a b with
  | none =>
    cases hc : tableComposite t a b with
    | none => rfl
    | some p =>
      rw [(h.exact a b p ha hb).mp (tableComposite_listed hc)] at hp
      cases hp
  | some p =>
    have hlisted := (h.exact a b p ha hb).mpr hp
    obtain ⟨hidx, k, hk, hsecond, hcombined⟩ := hlisted
    have hascending := h.ascending a ha hidx
    have hmax : (b : ℤ) ≤ t.combinationsSecond
        ((t.property a).combIndex.val + (t.property a).combLength.val - 1) := by
      obtain ⟨n, hn⟩ : ∃ n, (t.property a).combLength.val = n + 1 :=
        ⟨(t.property a).combLength.val - 1, by omega⟩
      rw [hn, ← Nat.add_assoc, Nat.add_sub_cancel, ← hsecond]
      rcases Nat.lt_or_ge k n with hlt | hge
      · exact (hascending k n hlt (by omega)).le
      · rw [show k = n by omega]
    have hsearch : searchSecond t (t.property a).combIndex.val b (t.property a).combLength.val 0 =
        some ((t.combinationsCombined ((t.property a).combIndex.val + (0 + k))).val : ℤ) :=
      searchSecond_ascending t _ _ (by simpa using hascending) hk
        (by rw [Nat.zero_add]; exact hsecond)
    rw [Nat.zero_add, hcombined] at hsearch
    unfold tableComposite
    simp only
    rw [if_pos ⟨hidx, h.issecond a b p ha hb (by exact ⟨hidx, k, hk, hsecond, hcombined⟩), hmax⟩,
      hsearch, Option.map_some, Int.toNat_natCast]

theorem hangulJamo_conjoining {c : ℕ} (hc : IsHangulSyllable c) :
    ∀ x ∈ hangulJamo c, IsConjoiningJamo x := by
  unfold IsHangulSyllable at hc
  intro x hx
  unfold IsConjoiningJamo
  simp only [hangulJamo, List.cons_append, List.nil_append, List.mem_cons] at hx
  rcases hx with rfl | rfl | hx
  · omega
  · omega
  · split_ifs at hx with h0
    · simp at hx
    · rw [List.mem_singleton] at hx
      omega

theorem entry_nfd (t : Utf8procData) (c : ℕ) :
    entry t .nfd c = if IsHangulSyllable c then none else decompositionEntry t c := rfl

theorem unmapped_of_jamo {t : Utf8procData} (inert : HangulInert t) {c : ℕ}
    (hc : IsConjoiningJamo c) : Unmapped t .nfd c := by
  have hsyllable : ¬ IsHangulSyllable c := by
    unfold IsConjoiningJamo at hc
    unfold IsHangulSyllable
    omega
  constructor
  · rw [entry_nfd, if_neg hsyllable]
    exact inert.no_entry c (Or.inl hc)
  · rw [terminal, if_neg fun h => hsyllable h.2]

theorem terminal_unmapped {t : Utf8procData} (inert : HangulInert t) (c : ℕ)
    (h : entry t .nfd c = none) : ∀ x ∈ terminal .nfd c, Unmapped t .nfd x := by
  by_cases hs : IsHangulSyllable c
  · rw [terminal, if_pos ⟨rfl, hs⟩]
    exact fun x hx => unmapped_of_jamo inert (hangulJamo_conjoining hs x hx)
  · have hself : terminal .nfd c = [c] := if_neg fun hc => hs hc.2
    rw [hself]
    intro x hx
    obtain rfl := List.mem_singleton.mp hx
    exact ⟨h, hself⟩

theorem expansion_of_syllable {t : Utf8procData} {c : ℕ} (hc : IsHangulSyllable c) :
    expansion t .nfd c = hangulJamo c := by
  have hnone : entry t .nfd c = none := by rw [entry_nfd, if_pos hc]
  rw [expansion_of_none hnone, terminal, if_pos ⟨rfl, hc⟩]

theorem expansion_hangulComposite {t : Utf8procData} (inert : HangulInert t) {a b p : ℕ}
    (h : hangulComposite a b = some p) :
    expansion t .nfd p = expansion t .nfd a ++ expansion t .nfd b := by
  unfold hangulComposite at h
  split_ifs at h with hlv hlvt
  · obtain rfl := Option.some.inj h
    have hp : IsHangulSyllable (0xAC00 + ((a - 0x1100) * 21 + (b - 0x1161)) * 28) := by
      unfold IsHangulSyllable
      omega
    rw [expansion_of_syllable hp,
      expansion_of_unmapped (unmapped_of_jamo inert (Or.inl ⟨hlv.1, hlv.2.1⟩)),
      expansion_of_unmapped (unmapped_of_jamo inert (Or.inr (Or.inl hlv.2.2)))]
    have hl : 0x1100 + ((a - 0x1100) * 21 + (b - 0x1161)) * 28 / 588 = a := by omega
    have hv : 0x1161 + ((a - 0x1100) * 21 + (b - 0x1161)) * 28 % 588 / 28 = b := by omega
    have ht : ((a - 0x1100) * 21 + (b - 0x1161)) * 28 % 28 = 0 := by omega
    simp only [hangulJamo, Nat.add_sub_cancel_left, hl, hv, ht, if_true]
    rfl
  · obtain rfl := Option.some.inj h
    obtain ⟨ha, ha0, hb, hb'⟩ := hlvt
    have hp : IsHangulSyllable (a + (b - 0x11A7)) := by
      unfold IsHangulSyllable at ha ⊢
      omega
    rw [expansion_of_syllable hp, expansion_of_syllable ha,
      expansion_of_unmapped (unmapped_of_jamo inert (Or.inr (Or.inr ⟨hb, hb'⟩)))]
    unfold IsHangulSyllable at ha
    have hl : (a + (b - 0x11A7) - 0xAC00) / 588 = (a - 0xAC00) / 588 := by omega
    have hv : (a + (b - 0x11A7) - 0xAC00) % 588 / 28 = (a - 0xAC00) % 588 / 28 := by omega
    have ht : 0x11A7 + (a + (b - 0x11A7) - 0xAC00) % 28 = b := by omega
    have ht0 : (a + (b - 0x11A7) - 0xAC00) % 28 ≠ 0 := by omega
    simp only [hangulJamo, hl, hv, ht, ht0, ha0, if_true, if_false]
    simp

/-- Every composite of the code decomposes like the pair it is made of. -/
theorem expansion_composite {t : Utf8procData} (terminates : Terminates (entry t .nfd))
    (inert : HangulInert t) (compositions : CompositionsDecompose t) {a b p : ℕ}
    (ha : a < 0x110000) (hb : b < 0x110000) (h : composite t a b = some p) :
    p < 0x110000 ∧ expansion t .nfd p = expansion t .nfd a ++ expansion t .nfd b := by
  refine ⟨composite_lt h, ?_⟩
  unfold composite at h
  rcases Option.or_eq_some_iff.mp h with h | ⟨_, h⟩
  · exact expansion_hangulComposite inert h
  · have hone {c : ℕ} (hc : c < 0x110000) : FullDecomposition t [c] (expansion t .nfd c) := by
      have hexp : ∀ d ∈ [c], Expandable t .nfd d := by
        simpa using expandable_of_terminates terminates hc
      simpa using expands_expansions hexp
    have hp := compositions.decomposes a b p ha hb (tableComposite_listed h) _ _ (hone ha) (hone hb)
    exact (hone (tableComposite_lt h)).unique hp

section Acute

/-- The small table: é decomposes to e and U+0301 and is composed of them; A folds to a. -/
def acuteProperty (c : ℕ) : Utf8procProperty where
  category := .ll
  combiningClass := if c = 0x301 then 230 else 0
  decompType := 0
  decompSeqindex := if c = 0xE9 then 0x4000 else uint16Max
  casefoldSeqindex := if c = 0x41 then 2 else uint16Max
  combIndex := if c = 0x65 then 0 else 0x3FF
  combLength := if c = 0x65 then 1 else 0
  combIssecond := c = 0x301
  ignorable := false
  boundclass := 1
  indicConjunctBreak := 0

def acuteData : Utf8procData where
  sequences := fun i => if i = 0 then 0x65 else if i = 1 then 0x301 else 0x61
  stage1table := fun i => 256 * i
  stage2table := id
  properties := acuteProperty
  combinationsSecond := fun _ => 0x301
  combinationsCombined := fun _ => 0xE9

theorem acute_property (c : ℕ) : acuteData.property c = acuteProperty c := by
  have hlow : c &&& 0xFF = c % 256 := Nat.and_two_pow_sub_one_eq_mod c 8
  have hc : 256 * (c >>> 8) + (c &&& 0xFF) = c := by
    rw [hlow, Nat.shiftRight_eq_div_pow]
    omega
  change acuteProperty (256 * (c >>> 8) + (c &&& 0xFF)) = _
  rw [hc]

theorem acute_combiningClass (c : ℕ) :
    combiningClass acuteData c = if c = 0x301 then 230 else 0 := by
  rw [combiningClass, acute_property]
  rfl

theorem acute_decompositionEntry (c : ℕ) :
    decompositionEntry acuteData c = if c = 0xE9 then some [0x65, 0x301] else none := by
  rw [decompositionEntry, acute_property, acuteProperty]
  by_cases h : c = 0xE9
  · simp only [h, if_true]
    decide
  · simp [h]

theorem acute_foldEntry (c : ℕ) :
    foldEntry acuteData c = if c = 0x41 then some [0x61] else none := by
  rw [foldEntry, acute_property, acuteProperty]
  by_cases h : c = 0x41
  · simp only [h, if_true]
    decide
  · simp [h]

theorem acute_listed {a b p : ℕ} :
    Listed acuteData a b p ↔ a = 0x65 ∧ b = 0x301 ∧ p = 0xE9 := by
  rw [Listed, acute_property, acuteProperty]
  by_cases h : a = 0x65
  · have hcombined (k : ℕ) : ((acuteData.combinationsCombined k).val = p) ↔ p = 0xE9 := eq_comm
    have hsecond (k : ℕ) : acuteData.combinationsSecond k = (b : ℤ) ↔ b = 0x301 := by
      change (0x301 : ℤ) = b ↔ _
      omega
    simp [h, hcombined, hsecond]
  · simp [h]

theorem acute_entry_canonical {T : Transform} (hT : T.canonical = true) {c : ℕ} {bs : List ℕ}
    (h : entry acuteData T c = some bs) : c = 0xE9 ∧ bs = [0x65, 0x301] := by
  rw [entry, if_pos hT, acute_decompositionEntry] at h
  split_ifs at h with _ hc
  exact ⟨hc, (Option.some.inj h).symm⟩

theorem acute_entry_fold {c : ℕ} {bs : List ℕ} (h : entry acuteData .caseFold c = some bs) :
    c = 0x41 ∧ bs = [0x61] := by
  change foldEntry acuteData c = some bs at h
  rw [acute_foldEntry] at h
  split_ifs at h with hc
  exact ⟨hc, (Option.some.inj h).symm⟩

theorem acute_terminates (T : Transform) : Terminates (entry acuteData T) := by
  apply terminates_of_rank _ (fun c => if c = 0xE9 ∨ c = 0x41 then 1 else 0)
  intro c bs h b hb
  cases hT : T.canonical with
  | true =>
    obtain ⟨rfl, rfl⟩ := acute_entry_canonical hT h
    rcases List.mem_pair.mp hb with rfl | rfl <;> decide
  | false =>
    obtain rfl : T = .caseFold := by cases T <;> first | rfl | cases hT
    obtain ⟨rfl, rfl⟩ := acute_entry_fold h
    obtain rfl := List.mem_singleton.mp hb
    decide

theorem acute_nonnegative : NonnegativeClasses acuteData := by
  intro c _
  rw [acute_combiningClass]
  split_ifs <;> omega

theorem acute_hangulInert : HangulInert acuteData := by
  have hrange (c : ℕ) (h : IsConjoiningJamo c ∨ IsHangulSyllable c) : 0x1100 ≤ c := by
    unfold IsConjoiningJamo IsHangulSyllable at h
    omega
  constructor
  · intro c h
    have := hrange c h
    rw [acute_combiningClass, if_neg (by omega)]
  · intro c h
    have := hrange c h
    rw [acute_decompositionEntry, if_neg (by omega)]

theorem acute_fullDecomposition {c : ℕ} {xs : List ℕ} (hc : c ≠ 0xE9) (hs : ¬ IsHangulSyllable c)
    (h : FullDecomposition acuteData [c] xs) : xs = [c] := by
  have hnone : entry acuteData .nfd c = none := by
    rw [entry_nfd, if_neg hs, acute_decompositionEntry, if_neg hc]
  have hself : FullDecomposition acuteData [c] (terminal .nfd c ++ []) := .terminal hnone .nil
  rw [h.unique hself, terminal, if_neg fun h => hs h.2]
  rfl

theorem acute_scalarComposites : ScalarComposites acuteData := by
  intro a b p h
  obtain ⟨rfl, rfl, rfl⟩ := acute_listed.mp h
  decide

theorem acute_compositionsDecompose : CompositionsDecompose acuteData := by
  constructor
  · intro a b p _ _ h xs ys hx hy
    obtain ⟨rfl, rfl, rfl⟩ := acute_listed.mp h
    have hsub : ¬ IsHangulSyllable 0x65 ∧ ¬ IsHangulSyllable 0x301 := by decide
    obtain rfl := acute_fullDecomposition (by decide) hsub.1 hx
    obtain rfl := acute_fullDecomposition (by decide) hsub.2 hy
    have hentry : entry acuteData .nfd 0xE9 = some [0x65, 0x301] := by
      rw [entry_nfd, acute_decompositionEntry]
      decide
    have hp := Expands.entry hentry (hx.append hy) .nil
    rwa [List.append_nil] at hp
  · intro a b p h
    obtain ⟨rfl, rfl, rfl⟩ := acute_listed.mp h
    rw [acute_combiningClass, acute_combiningClass]
    decide

def acutePrimary (a b : ℕ) : Option ℕ := if a = 0x65 ∧ b = 0x301 then some 0xE9 else none

theorem acute_primaryComposites : PrimaryComposites acuteData acutePrimary := by
  have hprimary {a b p : ℕ} : acutePrimary a b = some p ↔ a = 0x65 ∧ b = 0x301 ∧ p = 0xE9 := by
    unfold acutePrimary
    split_ifs with h
    · simp [h, eq_comm]
    · simp only [false_iff]
      exact fun hc => h ⟨hc.1, hc.2.1⟩
  constructor
  · intro a b p h
    obtain ⟨rfl, rfl, rfl⟩ := hprimary.mp h
    rw [acute_combiningClass, acute_combiningClass]
    decide
  · intro a _ _ i j hij hj
    rw [acute_property, acuteProperty] at hj
    simp only at hj
    split_ifs at hj
    · simp at hj
      omega
    · simp at hj
  · intro a b p _ _
    rw [acute_listed, hprimary]
  · intro a b p _ _ h
    obtain ⟨rfl, rfl, rfl⟩ := acute_listed.mp h
    rw [acute_property]
    rfl
  · intro a _
    rw [acute_property, acuteProperty]
    by_cases h : a = 0x65
    · subst h
      constructor
      · intro hidx
        exact absurd hidx (by decide)
      · intro hnone
        exact absurd (hnone 0x301) (by decide)
    · simp [h, acutePrimary]

theorem acute_nulInert : NulInert acuteData := by
  constructor
  · rw [acute_combiningClass]
    rfl
  · intro T
    cases hentry : entry acuteData T 0 with
    | none => rfl
    | some bs =>
      cases hT : T.canonical with
      | true => exact absurd (acute_entry_canonical hT hentry).1 (by decide)
      | false =>
        obtain rfl : T = .caseFold := by cases T <;> first | rfl | cases hT
        exact absurd (acute_entry_fold hentry).1 (by decide)
  · intro T c bs hentry
    cases hT : T.canonical with
    | true =>
      rw [(acute_entry_canonical hT hentry).2]
      decide
    | false =>
      obtain rfl : T = .caseFold := by cases T <;> first | rfl | cases hT
      rw [(acute_entry_fold hentry).2]
      decide
  · intro a b p h
    obtain ⟨rfl, rfl, rfl⟩ := acute_listed.mp h
    decide

end Acute

end LeoUTF8.TableAssumptions
