import LeoUTF8.ReferenceMapping

set_option autoImplicit false

/-!
# Options that the mapping of code points does not look at

Without `UTF8PROC_NULLTERM` or `UTF8PROC_CHARBOUND` the same values are refused, and the same
code points come of the others.
-/
namespace LeoUTF8.NeutralOptions
open ScalarEncoding EngineTables EngineGraphemes EngineDecompose RecursiveExpansion
open CodePointMapping OptionMapping OptionPass ReferenceMapping

def without (m options : Utf8procOption) : Utf8procOption := options &&& ~~~ m

theorem hasOption_without (m options : Utf8procOption) :
    hasOption (without m options) m = false := by
  have h : without m options &&& m = 0 := by
    rw [without, UInt32.and_assoc, UInt32.not_and_self, UInt32.and_zero]
  rw [hasOption, h]
  rfl

theorem hasOption_kept {m flags : Utf8procOption} (h : ~~~ m &&& flags = flags)
    (options : Utf8procOption) : hasOption (without m options) flags = hasOption options flags := by
  rw [hasOption, without, UInt32.and_assoc, h]
  rfl

/-- None of the options that say what a code point becomes. -/
structure Neutral (m : Utf8procOption) : Prop where
  canonical : ~~~ m &&& (utf8procCompose ||| utf8procDecompose) =
    utf8procCompose ||| utf8procDecompose
  ignore : ~~~ m &&& utf8procIgnore = utf8procIgnore
  rejectna : ~~~ m &&& utf8procRejectna = utf8procRejectna
  stripna : ~~~ m &&& utf8procStripna = utf8procStripna
  lump : ~~~ m &&& utf8procLump = utf8procLump
  nlf2ls : ~~~ m &&& utf8procNlf2ls = utf8procNlf2ls
  nlf2ps : ~~~ m &&& utf8procNlf2ps = utf8procNlf2ps
  stripmark : ~~~ m &&& utf8procStripmark = utf8procStripmark
  casefold : ~~~ m &&& utf8procCasefold = utf8procCasefold
  compat : ~~~ m &&& utf8procCompat = utf8procCompat

theorem neutral_nullterm : Neutral utf8procNullterm := by constructor <;> decide

theorem neutral_charbound : Neutral utf8procCharbound := by constructor <;> decide

/-- The item without the option. -/
def itemWithout (m : Utf8procOption) (i : Item) : Item :=
  ⟨without m i.options, i.code⟩

section Items

variable {m : Utf8procOption} (neutral : Neutral m) (t : Utf8procData) (i : Item)
include neutral

theorem canonical_without (options : Utf8procOption) :
    Canonical (without m options) ↔ Canonical options := by
  rw [Canonical, hasOption_kept neutral.canonical]
  rfl

theorem isSyllable_without : IsSyllable (itemWithout m i) ↔ IsSyllable i :=
  and_congr_left' (canonical_without neutral i.options)

theorem dropped_without : Dropped t (itemWithout m i) ↔ Dropped t i := by
  simp only [Dropped, itemWithout, hasOption_kept neutral.ignore, hasOption_kept neutral.stripna]

theorem stripped_without : Stripped t (itemWithout m i) ↔ Stripped t i := by
  simp only [Stripped, itemWithout, hasOption_kept neutral.stripmark]

theorem lumped_without : lumped t (itemWithout m i) = lumped t i := by
  simp only [lumped, itemWithout, lumpReplacement, hasOption_kept neutral.lump,
    hasOption_kept neutral.nlf2ls, hasOption_kept neutral.nlf2ps]

theorem itemEntry_without :
    itemEntry t (itemWithout m i) = (itemEntry t i).map (List.map (itemWithout m)) := by
  have hlump : without m i.options &&& ~~~ utf8procLump =
      without m (i.options &&& ~~~ utf8procLump) := by
    rw [without, without, UInt32.and_assoc, UInt32.and_assoc, UInt32.and_comm (~~~ m)]
  have hmap (o : Option (List ℕ)) : o.map (List.map (Item.mk (without m i.options))) =
      (o.map (List.map (Item.mk i.options))).map (List.map (itemWithout m)) := by
    cases o with
    | none => rfl
    | some bs => simp [itemWithout, Function.comp_def]
  rw [itemEntry, itemEntry, lumped_without neutral]
  simp only [isSyllable_without neutral, dropped_without neutral, stripped_without neutral]
  by_cases hout : IsSyllable i ∨ Dropped t i
  · rw [if_pos hout, if_pos hout]
    rfl
  rw [if_neg hout, if_neg hout]
  cases lumped t i with
  | some replacement =>
    simp only [itemWithout, hlump]
    rfl
  | none =>
    simp only [itemWithout, hasOption_kept neutral.casefold, hasOption_kept neutral.compat,
      canonical_without neutral, hmap]
    split_ifs <;> rfl

theorem itemTerminal_without :
    itemTerminal t (itemWithout m i) = (itemTerminal t i).map (itemWithout m) := by
  have hnone : without m 0 = 0 := UInt32.zero_and
  rw [itemTerminal, itemTerminal]
  simp only [isSyllable_without neutral, dropped_without neutral, stripped_without neutral]
  split_ifs
  · rw [List.map_map]
    congr 1
    funext c
    simp [itemWithout, hnone]
  · rfl
  · rfl

theorem refused_without (options : Utf8procOption) (uc : ℤ) :
    Refused t (without m options) uc ↔ Refused t options uc := by
  have hsyllable := isSyllable_without neutral ⟨options, uc.toNat⟩
  simp only [itemWithout] at hsyllable
  simp only [Refused, Rejected, hsyllable, hasOption_kept neutral.rejectna]

omit i in
/-- The items of a text are the same up to the option. -/
theorem allItems_without {t : Utf8procData} (tables : OptionTables t) {options : Utf8procOption}
    {us : List ℤ} (accepted : ∀ uc ∈ us, ¬ Refused t options uc) :
    allItems t (without m options) us = (allItems t options us).map (itemWithout m) := by
  have haccepted : ∀ uc ∈ us, ¬ Refused t (without m options) uc := by
    simpa only [refused_without neutral] using accepted
  have hmapped := (expands_allItems tables accepted).map (itemWithout m) (p := fun _ => True)
    (fun i _ => itemEntry_without neutral t i) (fun i _ _ => itemTerminal_without neutral t i)
    (fun _ _ _ _ _ _ => trivial) (fun _ _ => trivial)
  rw [List.map_map] at hmapped
  exact (expands_allItems tables haccepted).unique hmapped

end Items

end LeoUTF8.NeutralOptions
