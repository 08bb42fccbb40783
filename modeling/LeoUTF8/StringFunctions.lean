import LeoUTF8.MappingAbsorption
import LeoUTF8.NulTerminatedMaps

set_option autoImplicit false

/-!
# The functions for NUL-terminated text

The validator and the counter of LeoUTF8Core stop where the transforms stop, at the first NUL, and
what a transform returns can be handed to them as it is. The five normal forms of utf8proc take
each other's results in the same way.
-/
namespace LeoUTF8.StringFunctions
open BoundedLoop CellStorage HeapBlocks ScalarEncoding EngineTables EngineMap EngineInterface
open CoreFunctions RecursiveExpansion CodePointMapping CompositionCorrectness TableAssumptions
open EncodingCorrectness
open MapCorrectness ValidatorLanguage CodepointCounting OutputEncoding NulBoundaries OptionMapping
open OptionPass NewlineNormalization OptionMaps ReferenceMapping MappingAbsorption

section Judgement

variable (pf : Platform) {text : List UInt8} (htext : 0 ∉ text) (rest : List UInt8)
include htext

theorem leoUTF8Validate_text : leoUTF8Validate pf (some (text ++ 0 :: rest)) =
    leoUTF8ValidateBytes pf (some (text ++ 0 :: rest)) text.length := by
  change (do leoUTF8ValidateBytes pf _ (← strlen (text ++ 0 :: rest))) = _
  rw [strlen_append_nul htext, ok_bind]

theorem leoUTF8CodepointCount_text (count : Option ℕ) :
    leoUTF8CodepointCount pf (some (text ++ 0 :: rest)) count =
      leoUTF8CodepointCountBytes pf (some (text ++ 0 :: rest)) text.length count := by
  change (do leoUTF8CodepointCountBytes pf _ (← strlen (text ++ 0 :: rest)) count) = _
  rw [strlen_append_nul htext, ok_bind]

omit htext in
theorem leoUTF8ValidateBytes_left (behind : List UInt8) :
    leoUTF8ValidateBytes pf (some (text ++ behind)) text.length =
      leoUTF8ValidateBytes pf (some text) text.length := by
  by_cases hmax : text.length ≤ pf.longMax
  · rw [leoUTF8ValidateBytes_eq (by simp) hmax, leoUTF8ValidateBytes_eq le_rfl hmax,
      List.take_left, List.take_length]
  · rw [leoUTF8ValidateBytes_long _ (by omega), leoUTF8ValidateBytes_long _ (by omega)]

omit htext in
theorem leoUTF8CodepointCountBytes_left (behind : List UInt8) (count : Option ℕ) :
    leoUTF8CodepointCountBytes pf (some (text ++ behind)) text.length count =
      leoUTF8CodepointCountBytes pf (some text) text.length count := by
  cases count with
  | none => rfl
  | some old =>
    by_cases hmax : text.length ≤ pf.longMax
    · rw [leoUTF8CodepointCountBytes_eq (by simp) hmax, leoUTF8CodepointCountBytes_eq le_rfl hmax,
        List.take_left, List.take_length]
    · rw [leoUTF8CodepointCountBytes_long _ (by omega),
        leoUTF8CodepointCountBytes_long _ (by omega)]

end Judgement

/-- The code points that a transform of NUL-terminated text returns, before a NUL of their own. -/
theorem textFunction_codes {rt : Runtime} (nul : NulInert rt.data)
    (scalars : ScalarComposites rt.data) {T : Transform} {text : List UInt8} (htext : 0 ∉ text)
    {rest : List UInt8} {heap after : Heap} {o o' : Outputs}
    (h : textFunction T rt heap (some (text ++ 0 :: rest)) o = .ok (.ok, o', after)) :
    leoUTF8ValidateBytes rt.platform (some text) text.length = .ok .ok ∧
      ∃ codes count a block, codes = resultCodes rt.data T text ∧ (∀ c ∈ codes, IsScalar c) ∧
        0 ∉ encodeAll codes ∧ o' = (o.setOut (some a)).setOutLen (encodeAll codes).length ∧
        o.out ≠ none ∧ Owned heap after a block ∧
        OutputEncoded rt codes count (encodeAll codes).length block := by
  obtain ⟨cs, hcs, rfl, hfree, _⟩ := textFunction_received nul htext h
  rw [textFunction_eq T rt heap htext] at h
  have hlen : (encodeAll cs).length ≤ (encodeAll cs ++ 0 :: rest).length := by simp
  have hsuccess := bytesFunction_success hlen h
  rw [List.take_left] at hsuccess
  obtain ⟨hmax, _, _⟩ := expandable_of_ok hlen h
  have hscalar : ∀ c ∈ resultCodes rt.data T (encodeAll cs), IsScalar c :=
    transformed_isScalar scalars (decoded hsuccess.expandable)
  have hcodes : resultCodes rt.data T (encodeAll cs) = transformed rt.data T cs := by
    rw [resultCodes, decode_encodeAll hcs]
  obtain ⟨a, block, houtputs, hdelivered⟩ := hsuccess.delivered
  have hencoded := outputEncoded hscalar hsuccess.count (resultCodes_length_le _ _ _)
    hdelivered.holds
  refine ⟨?_, _, _, a, block, rfl, hscalar, by rwa [hcodes], houtputs, hsuccess.out,
    hdelivered.owned, hencoded⟩
  rw [leoUTF8ValidateBytes_eq le_rfl hmax, List.take_length, validity_eq_ok.mpr ⟨cs, hcs, rfl⟩]

/-- The validator and the counter judge a NUL-terminated text by the bytes before its NUL. A
transform succeeds only for what the validator accepts, and returns NUL-terminated text that the
validator accepts and whose code points the counter counts. -/
theorem strings_judged_alike (rt : Runtime) (nul : NulInert rt.data)
    (scalars : ScalarComposites rt.data) (text : List UInt8) (htext : 0 ∉ text)
    (rest : List UInt8) :
    leoUTF8Validate rt.platform (some (text ++ 0 :: rest)) =
        leoUTF8ValidateBytes rt.platform (some text) text.length ∧
      (∀ count, leoUTF8CodepointCount rt.platform (some (text ++ 0 :: rest)) count =
        leoUTF8CodepointCountBytes rt.platform (some text) text.length count) ∧
      ∀ T heap o o' after, textFunction T rt heap (some (text ++ 0 :: rest)) o =
          .ok (.ok, o', after) →
        leoUTF8Validate rt.platform (some (text ++ 0 :: rest)) = .ok .ok ∧
        ∃ a block codes, o'.out = some (some a) ∧ after a = some block ∧
          codes = resultCodes rt.data T text ∧ (∀ c ∈ codes, IsScalar c) ∧
          (encodeAll codes ++ [0]) <+: block ∧ 0 ∉ encodeAll codes ∧
          leoUTF8Validate rt.platform (some block) = .ok .ok ∧
          ∀ old, leoUTF8CodepointCount rt.platform (some block) (some old) =
            .ok (.ok, some codes.length) := by
  have hvalidate := (leoUTF8Validate_text rt.platform htext rest).trans
    (leoUTF8ValidateBytes_left rt.platform (0 :: rest))
  refine ⟨hvalidate, fun count => (leoUTF8CodepointCount_text rt.platform htext rest count).trans
    (leoUTF8CodepointCountBytes_left rt.platform (0 :: rest) count), ?_⟩
  intro T heap o o' after h
  obtain ⟨hvalid, codes, count, a, block, hresult, hcodes, hfree, rfl, hout, howned, hencoded⟩ :=
    textFunction_codes nul scalars htext h
  obtain ⟨junk, hjunk⟩ := hencoded.holds
  rw [List.append_assoc, List.singleton_append] at hjunk
  obtain ⟨value, hvalue⟩ := Option.ne_none_iff_exists'.mp hout
  refine ⟨hvalidate.trans hvalid, a, block, codes, ?_, howned.live, hresult, hcodes,
    hencoded.holds, hfree, ?_, fun old => ?_⟩
  · simp [Outputs.setOut, Outputs.setOutLen, hvalue]
  · rw [← hjunk, leoUTF8Validate_text rt.platform hfree, hjunk, hencoded.validates]
  · rw [← hjunk, leoUTF8CodepointCount_text rt.platform hfree, hjunk, hencoded.counts old]

/-- The accent behind the NUL is not looked at. -/
theorem strings_judged_alike_acute :
    leoUTF8CodepointCount smallRuntime.platform (some [0x65, 0xCC, 0x81, 0x00, 0xCC]) (some 9) =
      .ok (.ok, some 2) := by
  have hcounted : leoUTF8CodepointCountBytes smallRuntime.platform (some [0x65, 0xCC, 0x81]) 3
      (some 9) = .ok (.ok, some 2) := by
    decide +kernel
  exact ((strings_judged_alike smallRuntime acute_nulInert acute_scalarComposites
    [0x65, 0xCC, 0x81] (by decide) [0xCC]).2.1 (some 9)).trans hcounted

inductive StringForm where
  | nfd | nfc | nfkd | nfkc | nfkcCasefold
  deriving DecidableEq, Repr

def StringForm.options : StringForm → Utf8procOption
  | nfd => utf8procNullterm ||| utf8procStable ||| EngineTables.utf8procDecompose
  | nfc => utf8procNullterm ||| utf8procStable ||| utf8procCompose
  | nfkd => utf8procNullterm ||| utf8procStable ||| EngineTables.utf8procDecompose |||
    utf8procCompat
  | nfkc => utf8procNullterm ||| utf8procStable ||| utf8procCompose ||| utf8procCompat
  | nfkcCasefold => utf8procNullterm ||| utf8procStable ||| utf8procCompose ||| utf8procCompat |||
    utf8procCasefold ||| utf8procIgnore

/-- The function of utf8proc for the form. -/
def StringForm.call : StringForm → Runtime → Heap → List UInt8 → Exec (Option Address × Heap)
  | nfd => utf8procNFD
  | nfc => utf8procNFC
  | nfkd => utf8procNFKD
  | nfkc => utf8procNFKC
  | nfkcCasefold => utf8procNFKCCasefold

/-- The forms that a form may be applied to without a difference. -/
def StringForm.absorbs : StringForm → List StringForm
  | nfd | nfc => [nfd, nfc]
  | nfkd | nfkc => [nfd, nfc, nfkd, nfkc]
  | nfkcCasefold => [nfkcCasefold]

namespace StringForm

theorem call_eq (f : StringForm) (rt : Runtime) (heap : Heap) (str : List UInt8) :
    f.call rt heap str = mapNullterm rt heap str f.options := by
  cases f <;> rfl

theorem nullterm (f : StringForm) : hasOption f.options utf8procNullterm = true := by
  cases f <;> decide

theorem no_newlines (f : StringForm) : ¬ Newlines f.options := by
  cases f <;> decide

theorem flat (f : StringForm) : Flat f.options := by
  constructor
  · cases f <;> decide
  · cases f <;> decide

theorem continues {f g : StringForm} (h : g ∈ f.absorbs) : Continues g.options f.options where
  flat := g.flat
  later_flat := f.flat
  nullterm := f.nullterm.trans g.nullterm.symm
  ignore := by revert h; cases f <;> cases g <;> decide
  rejectna := by cases f <;> cases g <;> decide
  stripna := by cases f <;> cases g <;> decide
  stripmark := by cases f <;> cases g <;> decide
  casefold := by revert h; cases f <;> cases g <;> decide
  canonical := by cases f <;> cases g <;> decide
  compat := by revert h; cases f <;> cases g <;> decide

end StringForm

/-- No entry and no composite of the tables makes a NUL. -/
structure NulFreeTables (t : Utf8procData) : Prop where
  entries : ∀ c bs, HasEntry t c bs → 0 ∉ bs
  composites : ∀ a b p, Listed t a b p → p ≠ 0

/-- What is mapped, ordered and composed has no NUL if the text has none. -/
theorem finished_nul_free {t : Utf8procData} (tables : OptionTables t) (nulFree : NulFreeTables t)
    {options : Utf8procOption} (flat : Flat options) {cs : List ℕ}
    (hcs : ∀ c ∈ cs, c < 0x110000) (hnul : 0 ∉ cs) :
    0 ∉ finished t options (cs.flatMap (mapping t options)) := by
  have hmapped : ∀ x ∈ cs.flatMap (mapping t options), x ≠ 0 := by
    refine (fullMapping_codes flat tables hcs).forall (p := (· ≠ 0)) ?_ ?_
      fun c hc hc0 => hnul (hc0 ▸ hc)
    · intro a bs _ h b hb hb0
      exact nulFree.entries a bs (codeEntry_hasEntry h) (hb0 ▸ hb)
    · intro a ha h x hx
      rcases codeTerminal_cases h with ⟨hsyllable, hjamo⟩ | ⟨_, hnil⟩ | hstands
      · rw [hjamo] at hx
        have hconjoining := hangulJamo_conjoining hsyllable.2 x hx
        unfold IsConjoiningJamo at hconjoining
        omega
      · rw [hnil] at hx
        cases hx
      · rw [hstands.2, List.mem_singleton] at hx
        rwa [hx]
  have hfinished := @finished_forall t options (· ≠ 0)
    (fun _ _ _ hp => composite_ne_zero nulFree.composites hp) _ hmapped
  exact fun h => hfinished 0 h rfl

theorem values_text (text : List UInt8) :
    (inputValues none text).map Int.toNat = (decode text).1 := by
  rw [inputValues, List.map_map]
  exact List.map_id _

theorem decode_nul_free {text : List UInt8} (htext : 0 ∉ text) : 0 ∉ (decode text).1 := by
  obtain ⟨hscalar, hsplit, _⟩ := decode_spec text
  intro h
  apply htext
  rw [hsplit]
  exact List.mem_append_left _ ((zero_mem_encodeAll fun d hd => (hscalar d hd).lt).mpr h)

theorem inputText_text {options : Utf8procOption}
    (hnull : hasOption options utf8procNullterm = true) {text : List UInt8} (htext : 0 ∉ text)
    (rest : List UInt8) (strlen : ℤ) : inputText options (text ++ 0 :: rest) strlen = text := by
  rw [inputText, if_pos hnull, LineCutting.takeWhile_line htext]

/-- The normal forms of NUL-terminated text absorb one another: what one form has returned, handed
on as it is, has the same form as the text itself. NFKC_Casefold is idempotent. -/
theorem string_forms_absorb (rt : Runtime) (tables : OptionTables rt.data)
    (scalars : ScalarComposites rt.data) (nonneg : NonnegativeClasses rt.data)
    (nulFree : NulFreeTables rt.data) {f g : StringForm} (hfg : g ∈ f.absorbs)
    (absorbing : AbsorbingTables rt.data g.options f.options) (text : List UInt8)
    (htext : 0 ∉ text) (rest : List UInt8) {heap after : Heap} {a : Address}
    (h : g.call rt heap (text ++ 0 :: rest) = .ok (some a, after)) :
    utf8procFree after (some a) = heap ∧
      ∃ block, after a = some block ∧ 0 ∈ block ∧
        ∀ heap', f.call rt heap' block = f.call rt heap' (text ++ 0 :: rest) := by
  rw [g.call_eq, mapNullterm] at h
  obtain ⟨⟨n, ptr, after'⟩, hmap, hreturn⟩ := bind_eq_ok h
  obtain ⟨rfl, rfl⟩ : ptr = some a ∧ after' = after := by simpa using hreturn
  have hreadable : Readable g.options (text ++ 0 :: rest) 0 := by
    rw [Readable, if_pos g.nullterm]
    simp
  obtain ⟨hlt, -, block, howned, hholds, -, hlater⟩ := delivered_absorbed tables scalars nonneg
    (StringForm.continues hfg) absorbing g.no_newlines hreadable (fun _ hf => by cases hf) hmap
    rfl rfl
  rw [inputText_text g.nullterm htext, values_text] at hlt hholds hlater
  have hfree := finished_nul_free tables nulFree g.flat hlt (decode_nul_free htext)
  have hscalar : ∀ y ∈ finished rt.data g.options _, IsScalar y :=
    finished_isScalar tables scalars (decode_spec text).1
  generalize finished rt.data g.options _ = ys at *
  rw [← zero_mem_encodeAll fun y hy => (hscalar y hy).lt] at hfree
  refine ⟨?_, block, howned.live, ?_, fun heap' => ?_⟩
  · rw [howned.2]
    exact Heap.free_put howned.1 block
  · exact hholds.subset (by simp)
  · obtain ⟨junk, hjunk⟩ := hholds
    rw [List.append_assoc, List.singleton_append] at hjunk
    have hreadable' : Readable f.options block 0 := by
      rw [Readable, if_pos f.nullterm, ← hjunk]
      simp
    have hinput : inputText f.options block 0 = encodeAll ys := by
      rw [← hjunk, inputText_text f.nullterm hfree]
    rw [f.call_eq, f.call_eq, mapNullterm, mapNullterm, utf8procMap, utf8procMap,
      hlater block 0 hreadable' hinput heap']

theorem acute_nulFreeTables : NulFreeTables acuteData := by
  constructor
  · intro c bs h
    rcases acute_hasEntry h with ⟨_, rfl⟩ | ⟨_, rfl⟩
    · decide
    · decide
  · intro a b p h
    obtain ⟨_, _, rfl⟩ := acute_listed.mp h
    decide

/-- NFKD of a composed letter, as NFC has returned it. -/
theorem string_forms_absorb_acute :
    ∃ a after block, utf8procNFC smallRuntime (fun _ => none) [0x65, 0xCC, 0x81, 0x00, 0x41] =
        .ok (some a, after) ∧ after a = some block ∧
      utf8procNFKD smallRuntime (fun _ => none) block =
        utf8procNFKD smallRuntime (fun _ => none) [0x65, 0xCC, 0x81, 0x00, 0x41] := by
  have tables : OptionTables smallRuntime.data := acute_optionTables
  have readable : Readable StringForm.nfc.options [0x65, 0xCC, 0x81, 0x00, 0x41] 0 := by decide
  have absorbing : AbsorbingTables smallRuntime.data StringForm.nfc.options
      StringForm.nfkd.options := acute_absorbs (by decide) (by decide) (by decide +kernel)
  obtain ⟨n, a, after, hmap⟩ := utf8procMapCustom_succeeds tables readable (fun _ => none) none
    (by decide +kernel) (by decide +kernel)
  have h : StringForm.nfc.call smallRuntime (fun _ => none) [0x65, 0xCC, 0x81, 0x00, 0x41] =
      .ok (some a, after) := by
    rw [StringForm.call_eq, mapNullterm, utf8procMap, hmap]
    rfl
  obtain ⟨_, block, hblock, _, hsame⟩ := string_forms_absorb smallRuntime tables
    acute_scalarComposites acute_nonnegative acute_nulFreeTables (f := .nfkd) (g := .nfc)
    (by decide) absorbing [0x65, 0xCC, 0x81] (by decide) [0x41] h
  exact ⟨a, after, block, h, hblock, hsame fun _ => none⟩

end LeoUTF8.StringFunctions
