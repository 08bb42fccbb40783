import LeoUTF8.MapCorrectness

set_option autoImplicit false

/-!
# Embedded NULs

U+0000 separates what stands on its sides, so a function for NUL-terminated text is the
byte-length function cut at the first NUL.
-/
namespace LeoUTF8.NulBoundaries
open BoundedLoop HeapBlocks ScalarEncoding RunSorting RecursiveExpansion StarterComposition
open EngineTables EngineMap CoreFunctions CodePointMapping DecompositionPass
open CompositionCorrectness EncodingCorrectness TableAssumptions MapCorrectness

theorem encodeAll_cons_zero (cs : List ℕ) : encodeAll (0 :: cs) = 0 :: encodeAll cs := rfl

section CodePoints

variable {t : Utf8procData} {T : Transform}

theorem hangulComposite_zero_left (b : ℕ) : hangulComposite 0 b = none := by
  rw [hangulComposite, if_neg (by omega), if_neg (by unfold IsHangulSyllable; omega)]

theorem hangulComposite_zero_right (a : ℕ) : hangulComposite a 0 = none := by
  rw [hangulComposite, if_neg (by omega), if_neg (by omega)]

theorem tableComposite_ne_zero (nul : NulInert t) {a b p : ℕ} (h : tableComposite t a b = some p) :
    a ≠ 0 ∧ b ≠ 0 ∧ p ≠ 0 :=
  nul.not_listed a b p (tableComposite_listed h)

theorem composite_zero_left (nul : NulInert t) (b : ℕ) : composite t 0 b = none := by
  rw [composite, hangulComposite_zero_left, Option.none_or, Option.eq_none_iff_forall_ne_some]
  exact fun p h => (tableComposite_ne_zero nul h).1 rfl

theorem composite_zero_right (nul : NulInert t) (a : ℕ) : composite t a 0 = none := by
  rw [composite, hangulComposite_zero_right, Option.none_or, Option.eq_none_iff_forall_ne_some]
  exact fun p h => (tableComposite_ne_zero nul h).2.1 rfl

theorem composite_ne_zero (hlisted : ∀ a b p, Listed t a b p → p ≠ 0) {a b p : ℕ}
    (h : composite t a b = some p) : p ≠ 0 := by
  rcases Option.or_eq_some_iff.mp h with h | ⟨_, h⟩
  · unfold hangulComposite IsHangulSyllable at h
    split_ifs at h <;>
    · obtain rfl := Option.some.inj h
      omega
  · exact hlisted a b p (tableComposite_listed h)

theorem expansion_zero (nul : NulInert t) : expansion t T 0 = [0] := by
  rw [expansion_of_none (nul.no_entry T), terminal, if_neg]
  unfold IsHangulSyllable
  omega

theorem zero_not_mem_terminal {c : ℕ} (hc : c ≠ 0) : 0 ∉ terminal T c := by
  unfold terminal
  split_ifs with h
  · intro h0
    have := (hangulJamo_scalar h.2 0 h0).1
    omega
  · simpa using hc.symm

theorem zero_not_mem_expansions (nul : NulInert t) {cs : List ℕ}
    (hcs : ∀ c ∈ cs, Expandable t T c) (h : 0 ∉ cs) : 0 ∉ expansions t T cs := by
  intro h0
  obtain ⟨c, hc, h0⟩ := List.mem_flatMap.mp h0
  have hc0 : c ≠ 0 := fun h' => h (h' ▸ hc)
  refine expand_forall _ _ (p := (· ≠ 0)) (q := (· ≠ 0)) ?_ ?_ (hcs c hc) hc0 0 h0 rfl
  · exact fun a bs _ hbs b hb hb0 => nul.not_mapped T a bs hbs (hb0 ▸ hb)
  · exact fun a ha _ x hx hx0 => zero_not_mem_terminal ha (hx0 ▸ hx)

theorem zero_not_mem_transformed (nul : NulInert t) {cs : List ℕ}
    (hcs : ∀ c ∈ cs, Expandable t T c) (h : 0 ∉ cs) : 0 ∉ transformed t T cs := by
  have hne : ∀ c ∈ transformed t T cs, c ≠ 0 := by
    apply transformed_forall
    · exact fun _ _ _ _ _ hp => composite_ne_zero (fun a b p h => (nul.not_listed a b p h).2.2) hp
    · exact fun c hc hc0 => zero_not_mem_expansions nul hcs h (hc0 ▸ hc)
  exact fun h0 => hne 0 h0 rfl

/-- Reordering and composition do not look past U+0000. -/
theorem transformed_append_zero (nul : NulInert t) (cs ds : List ℕ) :
    transformed t T (cs ++ 0 :: ds) = transformed t T cs ++ 0 :: transformed t T ds := by
  have hexpansions : expansions t T (cs ++ 0 :: ds) =
      expansions t T cs ++ 0 :: expansions t T ds := by
    rw [expansions_append, expansions_cons, expansion_zero nul]
    rfl
  have hdecomposition : decomposition t T (cs ++ 0 :: ds) =
      decomposition t T cs ++ 0 :: decomposition t T ds := by
    unfold decomposition
    split_ifs
    · rw [hexpansions, sortRuns_append_barrier _ nul.class_zero.le]
    · exact hexpansions
  unfold transformed
  split_ifs
  · rw [hdecomposition, composition, compose_boundary _ _ nul.class_zero (composite_zero_left nul)
      (composite_zero_right nul)]
    rfl
  · exact hdecomposition

end CodePoints

section Calls

variable {rt : Runtime} {T : Transform} {heap after : Heap} {a b y z w : List UInt8}

theorem nul_free (nul : NulInert rt.data) (ha : TransformOutput rt.platform rt.data T a y)
    (h : 0 ∉ a) : 0 ∉ y := by
  obtain ⟨cs, hcs, rfl, rfl⟩ := ha.codes
  rw [zero_mem_encodeAll fun c hc => (hcs c hc).2.lt] at h
  rw [zero_mem_encodeAll (transformed_lt hcs)]
  exact zero_not_mem_transformed nul (fun c hc => (hcs c hc).1) h

/-- What is computed for the bytes before a NUL does not depend on those after it. -/
theorem nul_prefix (nul : NulInert rt.data) {cs : List ℕ} (hcs : ∀ c ∈ cs, IsScalar c)
    (h : TransformOutput rt.platform rt.data T (encodeAll cs ++ 0 :: b) w) :
    ∃ ds, b = encodeAll ds ∧
      w = encodeAll (transformed rt.data T cs) ++ 0 :: encodeAll (transformed rt.data T ds) := by
  obtain ⟨es, hes, hsum, rfl⟩ := h.codes
  have hcs0 : ∀ c ∈ cs ++ [0], IsScalar c := by
    intro c hc
    rcases List.mem_append.mp hc with hc | hc
    · exact hcs c hc
    · rw [List.mem_singleton.mp hc]
      decide
  have hsplit : encodeAll es = encodeAll (cs ++ [0]) ++ b := by
    rw [← hsum, encodeAll_append, List.append_assoc]
    rfl
  obtain ⟨ds, _, rfl, hds⟩ := encodeAll_split (fun e he => (hes e he).2) hcs0 hsplit
  refine ⟨ds, hds, ?_⟩
  rw [List.append_assoc, List.singleton_append, transformed_append_zero nul, encodeAll_append,
    encodeAll_cons_zero]

theorem nul_append (nul : NulInert rt.data) (ha : TransformOutput rt.platform rt.data T a y)
    (hb : TransformOutput rt.platform rt.data T b z)
    (hab : TransformOutput rt.platform rt.data T (a ++ 0 :: b) w) : w = y ++ 0 :: z := by
  obtain ⟨cs, hcs, rfl, rfl⟩ := ha.codes
  obtain ⟨ds, hds, rfl, rfl⟩ := hb.codes
  obtain ⟨es, hes, hsum, rfl⟩ := hab.codes
  have hsplit : encodeAll es = encodeAll cs ++ encodeAll (0 :: ds) := hsum.symm
  obtain ⟨gs, hgs, rfl, htail⟩ :=
    encodeAll_split (fun e he => (hes e he).2) (fun c hc => (hcs c hc).2) hsplit
  have hzero : ∀ d ∈ 0 :: ds, d < 0x110000 := by
    rintro d (_ | ⟨_, hd⟩)
    · decide
    · exact (hds d hd).2.lt
  obtain rfl := encodeAll_injective hzero (fun g hg => (hgs g hg).lt) htail
  rw [transformed_append_zero nul, encodeAll_append, encodeAll_cons_zero]

/-- The function for NUL-terminated text is the byte-length function on the bytes before the
first NUL, for every outcome of the allocations. -/
theorem textFunction_eq (T : Transform) (rt : Runtime) (heap : Heap) {text : List UInt8}
    (htext : 0 ∉ text) (rest : List UInt8) (o : Outputs) :
    textFunction T rt heap (some (text ++ 0 :: rest)) o =
      bytesFunction T rt heap (some (text ++ 0 :: rest)) text.length o := by
  rw [textFunction_some, strlen_append_nul htext, ok_bind]

/-- The text that a caller receives: it ends at `n`, where `strlen` finds its end. -/
structure Received (o' : Outputs) (after : Heap) (n : ℕ) (y : List UInt8) : Prop where
  outLen : ∀ v, o'.outLen = some v → v = n
  block : ∃ a block, o'.out = some (some a) ∧ after a = some block ∧ strlen block = .ok n ∧
    block.take n = y

theorem textFunction_received (nul : NulInert rt.data) {text rest : List UInt8} {o o' : Outputs}
    (htext : 0 ∉ text)
    (h : textFunction T rt heap (some (text ++ 0 :: rest)) o = .ok (.ok, o', after)) :
    ∃ cs, (∀ c ∈ cs, IsScalar c) ∧ text = encodeAll cs ∧
      0 ∉ encodeAll (transformed rt.data T cs) ∧
      Received o' after (encodeAll (transformed rt.data T cs)).length
        (encodeAll (transformed rt.data T cs)) := by
  rw [textFunction_eq T rt heap htext] at h
  have hsuccess := bytesFunction_success (by simp) h
  rw [List.take_left] at hsuccess
  have hcs := decoded hsuccess.expandable
  have hdecode : text = encodeAll (decode text).1 := by
    have hspec := (decode_spec text).2.1
    rwa [wellFormed_iff_decode.mp hsuccess.valid, List.append_nil] at hspec
  have hfree : 0 ∉ encodeAll (transformed rt.data T (decode text).1) := by
    rw [zero_mem_encodeAll (transformed_lt hcs)]
    apply zero_not_mem_transformed nul hsuccess.expandable
    rwa [← zero_mem_encodeAll fun c hc => (hcs c hc).2.lt, ← hdecode]
  obtain ⟨a, block, rfl, hdelivered⟩ := hsuccess.delivered
  obtain ⟨junk, hjunk⟩ := hdelivered.holds
  rw [List.append_assoc] at hjunk
  obtain ⟨value, hvalue⟩ := Option.ne_none_iff_exists'.mp hsuccess.out
  refine ⟨(decode text).1, fun c hc => (hcs c hc).2, hdecode, hfree, ?_, a, block, ?_,
    hdelivered.owned.live, ?_, ?_⟩
  · intro v hv
    obtain ⟨_, _, rfl⟩ := Option.map_eq_some_iff.mp hv
    rfl
  · simp [Outputs.setOut, Outputs.setOutLen, hvalue]
  · rw [← hjunk]
    exact strlen_append_nul hfree junk
  · rw [← hjunk]
    exact List.take_left

end Calls

/-- A NUL splits the result where it splits the input, and none appears elsewhere. So the text
functions return the result for the bytes before the first NUL, which is the result for the whole
buffer up to its first NUL. -/
theorem nul_boundary (rt : Runtime) (nul : NulInert rt.data) (T : Transform) :
    (∀ a b y z w, TransformOutput rt.platform rt.data T a y →
      TransformOutput rt.platform rt.data T b z →
      TransformOutput rt.platform rt.data T (a ++ 0 :: b) w → w = y ++ 0 :: z) ∧
    (∀ a y, TransformOutput rt.platform rt.data T a y → 0 ∉ a → 0 ∉ y) ∧
    ∀ (heap : Heap) (text rest : List UInt8) (o : Outputs), 0 ∉ text →
      textFunction T rt heap (some (text ++ 0 :: rest)) o =
        bytesFunction T rt heap (some (text ++ 0 :: rest)) text.length o ∧
      ∀ o' after, textFunction T rt heap (some (text ++ 0 :: rest)) o = .ok (.ok, o', after) →
        ∃ n y, Received o' after n y ∧
          (∀ y', TransformOutput rt.platform rt.data T text y' → y' = y) ∧
          ∀ w, TransformOutput rt.platform rt.data T (text ++ 0 :: rest) w →
            w.takeWhile (· ≠ 0) = y := by
  refine ⟨fun a b y z w ha hb hab => nul_append nul ha hb hab,
    fun a y ha h => nul_free nul ha h, fun heap text rest o htext => ?_⟩
  refine ⟨textFunction_eq T rt heap htext rest o, fun o' after h => ?_⟩
  obtain ⟨cs, hcs, rfl, hfree, hreceived⟩ := textFunction_received nul htext h
  refine ⟨_, _, hreceived, ?_, ?_⟩
  · intro y' hy
    rw [hy.result.2.2, resultBytes, resultCodes, decode_encodeAll hcs]
  · intro w hw
    obtain ⟨ds, _, rfl⟩ := nul_prefix nul hcs hw
    have hall : ∀ x ∈ encodeAll (transformed rt.data T cs), decide (x ≠ 0) = true := by
      intro x hx
      rw [decide_eq_true_iff]
      rintro rfl
      exact hfree hx
    rw [List.takeWhile_append_of_pos hall, List.takeWhile_cons, if_neg (by simp), List.append_nil]

theorem nul_boundary_acute :
    ∃ w, TransformOutput .leopardPPC acuteData .nfc [0x65, 0x00, 0xCC, 0x81] w ∧
      w = [0x65] ++ 0 :: [0xCC, 0x81] := by
  have hletter : TransformOutput .leopardPPC acuteData .nfc [0x65] [0x65] :=
    acute_transformOutput [0x65] (by decide +kernel)
  have haccent : TransformOutput .leopardPPC acuteData .nfc [0xCC, 0x81] [0xCC, 0x81] :=
    acute_transformOutput [0x301] (by decide +kernel)
  have hwhole : TransformOutput .leopardPPC acuteData .nfc [0x65, 0x00, 0xCC, 0x81]
      [0x65, 0x00, 0xCC, 0x81] :=
    acute_transformOutput [0x65, 0x0, 0x301] (by decide +kernel)
  exact ⟨_, hwhole,
    (nul_boundary smallRuntime acute_nulInert .nfc).1 _ _ _ _ _ hletter haccent hwhole⟩

end LeoUTF8.NulBoundaries
