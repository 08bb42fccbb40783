import LeoUTF8.DecompositionPass
import LeoUTF8.EngineCompose
import LeoUTF8.StarterComposition

set_option autoImplicit false

/-! # The composition loop against composition with the last starter -/
namespace LeoUTF8.CompositionCorrectness
open BoundedLoop CellStorage EngineTables EngineDecompose EngineCompose StarterComposition
open CodePointMapping DecompositionCorrectness DecompositionPass

/-- The Hangul syllable that two code points compose to. -/
def hangulComposite (a b : ℕ) : Option ℕ :=
  if 0x1100 ≤ a ∧ a < 0x1100 + 19 ∧ 0x1161 ≤ b ∧ b < 0x1161 + 21 then
    some (0xAC00 + ((a - 0x1100) * 21 + (b - 0x1161)) * 28)
  else if IsHangulSyllable a ∧ (a - 0xAC00) % 28 = 0 ∧ 0x11A7 < b ∧ b < 0x11A7 + 28 then
    some (a + (b - 0x11A7))
  else none

def tableComposite (t : Utf8procData) (a b : ℕ) : Option ℕ :=
  let idx := (t.property a).combIndex.val
  let len := (t.property a).combLength.val
  if idx < 0x3FF ∧ (t.property b).combIssecond ∧ (b : ℤ) ≤ t.combinationsSecond (idx + len - 1) then
    (searchSecond t idx b len 0).map Int.toNat
  else none

def composite (t : Utf8procData) (a b : ℕ) : Option ℕ :=
  (hangulComposite a b).or (tableComposite t a b)

theorem searchSecond_codePoint (t : Utf8procData) (idx : ℕ) (c : ℤ) (n off : ℕ) :
    ∀ z ∈ searchSecond t idx c n off, 0 ≤ z ∧ z < 0x110000 := by
  induction n generalizing off with
  | zero => simp [searchSecond]
  | succ n ih =>
    intro z hz
    simp only [searchSecond] at hz
    split_ifs at hz
    · simp at hz
    · obtain rfl : ((t.combinationsCombined (idx + off)).val : ℤ) = z := by simpa using hz
      have := (t.combinationsCombined (idx + off)).isLt
      omega
    · exact ih _ z hz

theorem map_toNat_searchSecond (t : Utf8procData) (idx : ℕ) (c : ℤ) (n off : ℕ) :
    ((searchSecond t idx c n off).map Int.toNat).map (fun p : ℕ => (p : ℤ)) =
      searchSecond t idx c n off := by
  cases h : searchSecond t idx c n off with
  | none => rfl
  | some z =>
    have hz := searchSecond_codePoint t idx c n off z h
    simp [hz.1]

theorem hangulComposite_lt {a b p : ℕ} (h : hangulComposite a b = some p) : p < 0x110000 := by
  unfold hangulComposite IsHangulSyllable at h
  split_ifs at h <;>
  · obtain rfl := Option.some.inj h
    omega

theorem tableComposite_lt {t : Utf8procData} {a b p : ℕ} (h : tableComposite t a b = some p) :
    p < 0x110000 := by
  unfold tableComposite at h
  simp only at h
  split_ifs at h
  obtain ⟨z, hz, rfl⟩ := Option.map_eq_some_iff.mp h
  have := searchSecond_codePoint t _ _ _ _ z hz
  omega

theorem composite_lt {t : Utf8procData} {a b p : ℕ} (h : composite t a b = some p) :
    p < 0x110000 := by
  unfold composite at h
  rcases Option.or_eq_some_iff.mp h with h | ⟨_, h⟩
  · exact hangulComposite_lt h
  · exact tableComposite_lt h

/-- The cached property is that of the starter. -/
def Cached (t : Utf8procData) (a : ℕ) (sp : Option Utf8procProperty) : Prop :=
  ∀ property ∈ sp, property = t.property a

theorem combine_hangul {t : Utf8procData} {a b p : ℕ} (h : hangulComposite a b = some p)
    (sp : Option Utf8procProperty) (property : Utf8procProperty) :
    combine t a sp b property = .ok (some (p : ℤ), none) := by
  unfold hangulComposite IsHangulSyllable at h
  rw [combine]
  simp only [hangulLBase, hangulLCount, hangulVBase, hangulVCount, hangulSBase, hangulSCount,
    hangulTBase, hangulTCount]
  split_ifs at h with hlv hlvt
  · obtain rfl := Option.some.inj h
    rw [if_pos (by omega)]
    congr 3
    push_cast
    omega
  · obtain rfl := Option.some.inj h
    rw [if_neg (by omega), if_pos (by omega)]
    congr 3
    omega

theorem combine_cached {t : Utf8procData} {a : ℕ} (ha : a < 0x110000)
    {sp : Option Utf8procProperty} (hsp : Cached t a sp) (b : ℤ) (property : Utf8procProperty) :
    combine t a sp b property = combine t a (some (t.property a)) b property := by
  cases sp with
  | some cached => rw [hsp cached rfl]
  | none =>
    unfold combine
    simp only [unsafeGetProperty_natCast t ha]

theorem combine_table {t : Utf8procData} {a b : ℕ} (h : hangulComposite a b = none) :
    combine t a (some (t.property a)) b (t.property b) =
      .ok ((tableComposite t a b).map (fun p : ℕ => (p : ℤ)),
        if tableComposite t a b = none then some (t.property a) else none) := by
  unfold hangulComposite IsHangulSyllable at h
  rw [combine]
  simp only [hangulLBase, hangulLCount, hangulVBase, hangulVCount, hangulSBase, hangulSCount,
    hangulTBase, hangulTCount]
  split_ifs at h with hlv hlvt
  rw [if_neg (by omega), if_neg (by omega), tableComposite, ok_bind]
  by_cases h1 : (t.property a).combIndex.val < 0x3FF ∧ (t.property b).combIssecond
  · rw [if_pos h1]
    by_cases h2 : (b : ℤ) ≤
        t.combinationsSecond ((t.property a).combIndex.val + (t.property a).combLength.val - 1)
    · rw [if_pos h2, if_pos ⟨h1.1, h1.2, h2⟩, map_toNat_searchSecond]
      cases searchSecond t (t.property a).combIndex.val b (t.property a).combLength.val 0 <;> rfl
    · rw [if_neg h2, if_neg fun hc => h2 hc.2.2]
      rfl
  · rw [if_neg h1, if_neg fun hc => h1 ⟨hc.1, hc.2.1⟩]
    rfl

theorem combine_eq {t : Utf8procData} {a b : ℕ} (ha : a < 0x110000)
    {sp : Option Utf8procProperty} (hsp : Cached t a sp) :
    ∃ sp', combine t a sp b (t.property b) =
        .ok ((composite t a b).map (fun p : ℕ => (p : ℤ)), sp') ∧
      (composite t a b = none → Cached t a sp') ∧ (composite t a b ≠ none → sp' = none) := by
  cases h : hangulComposite a b with
  | some p =>
    have hc : composite t a b = some p := by rw [composite, h, Option.some_or]
    refine ⟨none, ?_, by simp [hc], fun _ => rfl⟩
    rw [combine_hangul h, hc]
    rfl
  | none =>
    have hc : composite t a b = tableComposite t a b := by rw [composite, h, Option.none_or]
    refine ⟨_, by rw [combine_cached ha hsp, combine_table h, hc], ?_, ?_⟩
    · intro hn property hp
      rw [← hc, if_pos hn] at hp
      exact (Option.some.inj hp).symm
    · intro hn
      rw [← hc, if_neg hn]

/-- The loop has kept `z` and `rest` is still to be read; the cells between them are free. -/
structure Compacted (t : Utf8procData) (tail : List ℤ) (z : Kept ℕ) (gap : List ℤ)
    (rest : List ℕ) (s : ComposeState) : Prop where
  buffer : s.buffer = int32s z.codes ++ gap ++ int32s rest ++ tail
  wpos : s.wpos = z.codes.length
  rpos : s.rpos = z.codes.length + gap.length
  starter : s.starter = z.starter.map fun _ => z.before.length
  cached : ∀ a ∈ z.starter, Cached t a s.starterProperty
  maxClass : s.maxCombiningClass = markClass (combiningClass t) z.marks
  codes : ∀ c ∈ z.codes, c < 0x110000
  unread : ∀ c ∈ rest, c < 0x110000

section Loop

variable {t : Utf8procData} {tail gap : List ℤ} {z : Kept ℕ} {c : ℕ} {rest : List ℕ}
  {s : ComposeState}

theorem tryCombine_some (hs : Compacted t tail z gap (c :: rest) s) {p : ℕ}
    (h : z.combined (combiningClass t) (composite t) c = some p) :
    tryCombine t c (t.property c) s = .ok (true, { s with
      buffer := int32s { z with starter := some p }.codes ++ gap ++ int32s (c :: rest) ++ tail
      starterProperty := none }) := by
  obtain ⟨a, ha, hlt, hp⟩ := combined_eq_some _ _ h
  have hmax := hs.maxClass
  have hstarter := hs.starter
  rw [ha, Option.map_some] at hstarter
  have hbuffer (x : ℕ) :
      int32s { z with starter := some x }.codes ++ gap ++ int32s (c :: rest) ++ tail =
        int32s z.before ++ (x : ℤ) :: (int32s z.marks ++ gap ++ int32s (c :: rest) ++ tail) := by
    simp [Kept.codes]
  have hold : s.buffer =
      int32s z.before ++ (a : ℤ) :: (int32s z.marks ++ gap ++ int32s (c :: rest) ++ tail) := by
    rw [hs.buffer, ← hbuffer, ← ha]
  have hload := load_append_left (int32s z.before)
    (int32s z.marks ++ gap ++ int32s (c :: rest) ++ tail) (a : ℤ)
  have hstore := store_append (int32s z.before)
    (int32s z.marks ++ gap ++ int32s (c :: rest) ++ tail) (a : ℤ) (p : ℤ)
  rw [int32s_length] at hload hstore
  have hac : a < 0x110000 := hs.codes a (by simp [Kept.codes, ha])
  obtain ⟨sp', hcombine, _, hnone⟩ := combine_eq (b := c) hac (hs.cached a ha)
  obtain rfl := hnone (by rw [hp]; exact Option.some_ne_none p)
  rw [tryCombine, hstarter]
  simp only
  rw [if_pos (by rw [hmax]; exact hlt), hold, hload, ok_bind, hcombine, ok_bind, hp]
  simp only [Option.map_some]
  rw [hstore, ok_bind, hbuffer]

theorem tryCombine_none (hs : Compacted t tail z gap (c :: rest) s)
    (h : z.combined (combiningClass t) (composite t) c = none) :
    ∃ sp', tryCombine t c (t.property c) s = .ok (false, { s with starterProperty := sp' }) ∧
      ∀ a ∈ z.starter, Cached t a sp' := by
  have hcached := hs.cached
  obtain ⟨rpos, wpos, buffer, starter, starterProperty, maxCombiningClass⟩ := s
  obtain rfl : starter = _ := hs.starter
  obtain rfl : maxCombiningClass = _ := hs.maxClass
  cases ha : z.starter with
  | none => exact ⟨starterProperty, rfl, by simp⟩
  | some a =>
    rw [ha] at hcached
    rw [tryCombine, Option.map_some]
    simp only
    by_cases hlt : combiningClass t c > markClass (combiningClass t) z.marks
    · have hp : composite t a c = none := by
        rw [combined_of_some _ _ ha, if_pos hlt] at h
        exact h
      have hold : buffer =
          int32s z.before ++ (a : ℤ) :: (int32s z.marks ++ gap ++ int32s (c :: rest) ++ tail) := by
        obtain rfl : buffer = _ := hs.buffer
        simp [Kept.codes, ha]
      have hload := load_append_left (int32s z.before)
        (int32s z.marks ++ gap ++ int32s (c :: rest) ++ tail) (a : ℤ)
      rw [int32s_length, ← hold] at hload
      have hac : a < 0x110000 := hs.codes a (by simp [Kept.codes, ha])
      obtain ⟨sp', hcombine, hsp', _⟩ := combine_eq (b := c) hac (hcached a rfl)
      refine ⟨sp', ?_, ?_⟩
      · rw [if_pos (show (t.property c).combiningClass > _ from hlt), hload, ok_bind]
        simp only at hcombine
        rw [hcombine, ok_bind, hp]
        rfl
      · intro x hx
        obtain rfl : a = x := by simpa using hx
        exact hsp' hp
    · exact ⟨starterProperty, if_neg hlt, hcached⟩

theorem store_kept (codes rest : List ℕ) (gap tail : List ℤ) (c : ℕ) :
    ∃ gap', gap'.length = gap.length ∧
      store (int32s codes ++ gap ++ int32s (c :: rest) ++ tail) codes.length (c : ℤ) =
        .ok (int32s (codes ++ [c]) ++ gap' ++ int32s rest ++ tail) := by
  -- the cell written to is the first free cell, or the one just read
  obtain ⟨g, gap', hg⟩ : ∃ g gap', gap ++ [(c : ℤ)] = g :: gap' :=
    List.exists_cons_of_ne_nil (by simp)
  refine ⟨gap', ?_, ?_⟩
  · have h := congrArg List.length hg
    simpa using h.symm
  · have h := store_append (int32s codes) (gap' ++ int32s rest ++ tail) g (c : ℤ)
    rw [int32s_length] at h
    have hold : int32s codes ++ gap ++ int32s (c :: rest) ++ tail =
        int32s codes ++ g :: (gap' ++ int32s rest ++ tail) := by
      calc
        int32s codes ++ gap ++ int32s (c :: rest) ++ tail =
            int32s codes ++ (gap ++ [(c : ℤ)]) ++ int32s rest ++ tail := by simp
        _ = int32s codes ++ g :: (gap' ++ int32s rest ++ tail) := by simp [hg]
    rw [hold, h]
    simp

theorem composeBody_next (hs : Compacted t tail z gap (c :: rest) s) (length : ℕ)
    (hlength : s.rpos < length) :
    ∃ u gap', composeBody t length s = .ok (.next u) ∧
      Compacted t tail (z.push (combiningClass t) (composite t) c) gap' rest u ∧
      u.rpos = s.rpos + 1 := by
  have hc : c < 0x110000 := hs.unread c List.mem_cons_self
  have hrest : ∀ x ∈ rest, x < 0x110000 := fun x hx => hs.unread x (List.mem_cons_of_mem c hx)
  have hcodes := push_codes_forall (combiningClass t) (composite t) (p := fun x => x < 0x110000)
    (fun _ _ _ _ _ hp => composite_lt hp) hs.codes hc
  have hload : load s.buffer s.rpos = .ok (c : ℤ) := by
    have h := load_append_left (int32s z.codes ++ gap) (int32s rest ++ tail) (c : ℤ)
    rw [List.length_append, int32s_length, ← hs.rpos] at h
    rw [hs.buffer, ← h]
    simp
  rw [composeBody, if_pos (by omega), hload, ok_bind, if_neg (Int.natCast_nonneg c).not_gt,
    unsafeGetProperty_natCast t hc, ok_bind]
  cases h : z.combined (combiningClass t) (composite t) c with
  | some p =>
    rw [push_combined _ _ h] at hcodes ⊢
    rw [tryCombine_some hs h, ok_bind]
    obtain ⟨a, ha, _⟩ := combined_eq_some _ _ h
    have hlen : ({ z with starter := some p } : Kept ℕ).codes.length = z.codes.length := by
      simp [Kept.codes, ha]
    refine ⟨_, gap ++ [(c : ℤ)], rfl, ?_, rfl⟩
    constructor
    · simp
    · exact hs.wpos.trans hlen.symm
    · have hrpos := hs.rpos
      simp only [hlen, List.length_append, List.length_singleton]
      omega
    · have hstarter := hs.starter
      rw [ha] at hstarter
      exact hstarter
    · intro x _ property hproperty
      simp at hproperty
    · exact hs.maxClass
    · exact hcodes
    · exact hrest
  | none =>
    obtain ⟨sp', htry, hcached⟩ := tryCombine_none hs h
    obtain ⟨gap', hgap, hstore⟩ := store_kept z.codes rest gap tail c
    rw [← hs.buffer, ← hs.wpos] at hstore
    have hrpos := hs.rpos
    rw [htry, ok_bind]
    simp only [Bool.false_eq_true, if_false, hstore, ok_bind]
    by_cases h0 : combiningClass t c = 0
    · rw [push_starter _ _ h h0] at hcodes ⊢
      refine ⟨_, gap', if_neg (not_not.mpr h0), ?_, rfl⟩
      constructor
      · simp [Kept.codes]
      · simp [Kept.codes, hs.wpos, Nat.add_assoc]
      · simp [Kept.codes, hrpos, hgap]
        omega
      · simp [hs.wpos]
      · intro x _ property hproperty
        simp at hproperty
      · rfl
      · exact hcodes
      · exact hrest
    · rw [push_mark _ _ h h0] at hcodes ⊢
      refine ⟨_, gap', if_pos h0, ?_, rfl⟩
      constructor
      · simp [Kept.codes]
      · simp [Kept.codes, hs.wpos, Nat.add_assoc]
      · simp [Kept.codes, hrpos, hgap]
        omega
      · exact hs.starter
      · exact hcached
      · rw [markClass_append, ← hs.maxClass]
        rfl
      · exact hcodes
      · exact hrest

/-- The loop from any of its states: what is still to be read is pushed to the end. -/
theorem composeBody_run {z' : Kept ℕ}
    (hz' : rest.foldl (Kept.push (combiningClass t) (composite t)) z = z')
    (hs : Compacted t tail z gap rest s) :
    ∃ gap', gap'.length + z'.codes.length = s.rpos + rest.length ∧
      run (composeBody t (s.rpos + rest.length : ℕ)) (rest.length + 1) s =
        .ok ((z'.codes.length : ℤ), int32s z'.codes ++ gap' ++ tail) := by
  induction rest generalizing z gap s with
  | nil =>
    obtain rfl : z = z' := hz'
    refine ⟨gap, ?_, ?_⟩
    · rw [hs.rpos, List.length_nil]
      omega
    · apply run_done
      rw [composeBody, if_neg (by simp), hs.wpos, hs.buffer]
      simp
  | cons c rest ih =>
    obtain ⟨u, gap', hu, hI, hrpos⟩ := composeBody_next hs (s.rpos + (c :: rest).length) (by simp)
    obtain ⟨gap'', hlen, hr⟩ := ih hz' hI
    have htotal : u.rpos + rest.length = s.rpos + (c :: rest).length := by
      rw [hrpos, List.length_cons]
      omega
    rw [htotal] at hlen hr
    exact ⟨gap'', hlen, (run_next hu _).trans hr⟩

end Loop

def composition (t : Utf8procData) (l : List ℕ) : List ℕ :=
  compose (combiningClass t) (composite t) l

theorem composition_lt {t : Utf8procData} {l : List ℕ} (hl : ∀ c ∈ l, c < 0x110000) :
    ∀ c ∈ composition t l, c < 0x110000 :=
  compose_forall _ _ (fun _ _ _ _ _ hp => composite_lt hp) hl

/-- The loop ends with the composition, followed by cells of no meaning. -/
theorem compose_run (t : Utf8procData) (tail : List ℤ) {l : List ℕ}
    (hl : ∀ c ∈ l, c < 0x110000) :
    ∃ gap, gap.length + (composition t l).length = l.length ∧
      run (composeBody t l.length) (l.length + 1)
        { rpos := 0, wpos := 0, buffer := int32s l ++ tail, starter := none,
          starterProperty := none, maxCombiningClass := -1 } =
        .ok ((composition t l).length, int32s (composition t l) ++ gap ++ tail) := by
  let entry : ComposeState :=
    { rpos := 0, wpos := 0, buffer := int32s l ++ tail, starter := none, starterProperty := none,
      maxCombiningClass := -1 }
  have hentry : Compacted t tail Kept.empty [] l entry :=
    ⟨by simp [Kept.codes, Kept.empty, entry], rfl, rfl, rfl, by simp [Kept.empty], rfl,
      by simp [Kept.codes, Kept.empty], hl⟩
  have h := composeBody_run rfl hentry
  simpa [entry, composition, compose] using h

end LeoUTF8.CompositionCorrectness
