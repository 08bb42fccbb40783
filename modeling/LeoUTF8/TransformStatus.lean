import LeoUTF8.MapCorrectness

set_option autoImplicit false

/-!
# The status of a transform

A transform and the validator scan their input independently. They agree on what is
valid, and the second pass of the engine repeats the first.
-/
namespace LeoUTF8.TransformStatus
open BoundedLoop HeapBlocks RecursiveExpansion ScalarEncoding
open EngineTables EngineDecompose EngineMap CoreFunctions
open CodePointMapping DecompositionCorrectness DecompositionPass
open TableAssumptions ValidatorLanguage MapCorrectness

/-- The errors that the options of the transforms cannot cause. -/
def Unreachable (rc : ℤ) : Prop := rc = utf8procErrorNotassigned ∨ rc = utf8procErrorInvalidopts

theorem not_unreachable {rc : ℤ} (h : utf8procErrorInvalidutf8 ≤ rc) : ¬ Unreachable rc := by
  unfold utf8procErrorInvalidutf8 at h
  unfold Unreachable utf8procErrorNotassigned utf8procErrorInvalidopts
  omega

theorem not_unreachable_natCast (n : ℕ) : ¬ Unreachable n :=
  not_unreachable (le_trans (by decide) (Int.natCast_nonneg n))

def FillingAgrees (rt : Runtime) (T : Transform) (mem : List UInt8) (length : ℕ) : Prop :=
  ∃ rc counted,
    utf8procDecomposeCustom rt.platform rt.data mem length none 0 T.options none =
      .ok (rc, counted) ∧ ¬ Unreachable rc ∧
    (0 ≤ rc → ∀ array : List ℤ, array.length = rc → ∃ filled,
      utf8procDecomposeCustom rt.platform rt.data mem length (some array) rc T.options none =
        .ok (rc, filled))

theorem fillingAgrees {rt : Runtime} {T : Transform} {mem : List UInt8} {length : ℕ}
    (expandable : ∀ c ∈ (decode (mem.take length)).1, Expandable rt.data T c)
    (hlen : length ≤ mem.length) : FillingAgrees rt T mem length := by
  obtain ⟨rc, counted, hcounting, hrc⟩ := counting_pass expandable hlen
  refine ⟨rc, counted, hcounting, ?_⟩
  by_cases hover : rt.platform.codepointMax < runningCount rt.data T (mem.take length)
  · rw [if_pos hover] at hrc
    rw [hrc]
    exact ⟨not_unreachable (by decide), fun h => absurd h (by decide)⟩
  rw [if_neg hover] at hrc
  by_cases hrest : (decode (mem.take length)).2 = []
  · rw [if_pos hrest] at hrc
    rw [hrc]
    refine ⟨not_unreachable_natCast _, fun _ array harray => ?_⟩
    exact ⟨_, filling_pass expandable hlen (by omega) hrest (by exact_mod_cast harray)⟩
  · rw [if_neg hrest] at hrc
    rw [hrc]
    exact ⟨not_unreachable (by decide), fun h => absurd h (by decide)⟩

theorem utf8procMap_reachable {rt : Runtime} {T : Transform} (heap : Heap) {mem : List UInt8}
    {length : ℕ} (expandable : ∀ c ∈ (decode (mem.take length)).1, Expandable rt.data T c)
    (hlen : length ≤ mem.length) :
    ∃ r, utf8procMap rt heap mem length T.options = .ok r ∧ ¬ Unreachable r.1 := by
  obtain ⟨r, hr, houtcome⟩ := utf8procMap_outcome heap expandable hlen
  refine ⟨r, hr, ?_⟩
  unfold MapOutcome at houtcome
  split_ifs at houtcome with hover hrest
  · rw [houtcome]
    exact not_unreachable (show _ ≤ utf8procErrorOverflow by decide)
  · cases hmalloc : rt.allocator.malloc heap (4 * runningCount rt.data T (mem.take length) + 1) with
    | none =>
      rw [hmalloc] at houtcome
      rw [houtcome]
      exact not_unreachable (show _ ≤ utf8procErrorNomem by decide)
    | some _ =>
      rw [hmalloc] at houtcome
      obtain ⟨a, block, hrc, _⟩ := houtcome
      rw [hrc]
      exact not_unreachable_natCast _
  · rw [houtcome]
    exact not_unreachable (le_refl utf8procErrorInvalidutf8)

/-- Overflow, validity and the allocation decide the status, in this order. -/
theorem bytesFunction_status (rt : Runtime) (T : Transform) (heap : Heap) (mem : List UInt8)
    (length : ℕ) (o : Outputs) (terminates : Terminates (entry rt.data T))
    (hlen : length ≤ mem.length) (hmax : length ≤ rt.platform.longMax) (hout : o.out ≠ none) :
    (∃ status o' after, bytesFunction T rt heap (some mem) length o = .ok (status, o', after) ∧
      status = if rt.platform.codepointMax < runningCount rt.data T (mem.take length) then .error
        else if leoUTF8ValidateBytes rt.platform (some mem) length = .ok .invalid then .invalid
        else if rt.allocator.malloc heap
            (mapSize rt.platform (runningCount rt.data T (mem.take length))) = none then .noMemory
        else .ok) ∧
    FillingAgrees rt T mem length ∧
    ∃ r, utf8procMap rt heap mem length T.options = .ok r ∧ ¬ Unreachable r.1 := by
  have expandable := expandable_decode terminates (mem.take length)
  refine ⟨?_, fillingAgrees expandable hlen, utf8procMap_reachable heap expandable hlen⟩
  obtain ⟨⟨status, o', after⟩, hcall, houtcome⟩ :=
    bytesFunction_outcome heap expandable hlen hmax hout
  refine ⟨status, o', after, hcall, ?_⟩
  have hinvalid : leoUTF8ValidateBytes rt.platform (some mem) length = .ok .invalid ↔
      (decode (mem.take length)).2 ≠ [] := by
    rw [leoUTF8ValidateBytes_eq hlen hmax, Except.ok.injEq, validity_eq_invalid,
      wellFormed_iff_decode]
  unfold CallOutcome at houtcome
  by_cases hover : rt.platform.codepointMax < runningCount rt.data T (mem.take length)
  · rw [if_pos hover] at houtcome ⊢
    exact congrArg Prod.fst houtcome
  rw [if_neg hover] at houtcome ⊢
  rw [mapSize_eq (by omega)]
  by_cases hrest : (decode (mem.take length)).2 = []
  swap
  · rw [if_neg hrest] at houtcome
    rw [if_pos (hinvalid.mpr hrest)]
    exact congrArg Prod.fst houtcome
  rw [if_pos hrest] at houtcome
  rw [if_neg (mt hinvalid.mp (not_not_intro hrest))]
  cases hmalloc : rt.allocator.malloc heap (4 * runningCount rt.data T (mem.take length) + 1) with
  | none =>
    rw [hmalloc] at houtcome
    rw [if_pos rfl]
    exact congrArg Prod.fst houtcome
  | some a =>
    rw [hmalloc] at houtcome
    obtain ⟨_, _, _, hr, _⟩ := houtcome
    rw [if_neg (by simp)]
    exact congrArg Prod.fst hr

theorem bytesFunction_status_truncated :
    ∃ status o' after, bytesFunction .nfd smallRuntime (fun _ => none) (some [0x61, 0xC3]) 2
        { out := some none, outLen := none } = .ok (status, o', after) ∧ status = .invalid := by
  obtain ⟨⟨status, o', after, hcall, hstatus⟩, _⟩ := bytesFunction_status smallRuntime .nfd
    (fun _ => none) [0x61, 0xC3] 2 { out := some none, outLen := none } (acute_terminates .nfd)
    (by decide) (by decide) (by simp)
  refine ⟨status, o', after, hcall, ?_⟩
  rw [hstatus, if_neg (by decide +kernel), if_pos (by decide +kernel)]

end LeoUTF8.TransformStatus
