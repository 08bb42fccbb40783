import LeoUTF8.EngineInterface
import LeoUTF8.OptionMaps

set_option autoImplicit false

/-!
# The errors of a call

Several things may be wrong with a call at once. The options are looked at first, then the text
up to the first value that is refused, and the ill-formed part of the text comes last.
-/
namespace LeoUTF8.MapErrors
open BoundedLoop HeapBlocks ScalarEncoding EngineTables EngineMap EngineInterface OptionMapping
open OptionPass OptionMaps MapCorrectness

/-- What a call complains of, if anything. -/
inductive Complaint where
  | options
  | tooLong
  | refusedValue
  | illFormed
  | memory
  deriving DecidableEq

def Complaint.code : Complaint → ℤ
  | options => utf8procErrorInvalidopts
  | tooLong => utf8procErrorOverflow
  | refusedValue => utf8procErrorNotassigned
  | illFormed => utf8procErrorInvalidutf8
  | memory => utf8procErrorNomem

/-- The conditions of the complaints; of those that hold the first one counts. -/
def Complaint.Holds (rt : Runtime) (heap : Heap) (options : Utf8procOption)
    (customFunc : Option (ℤ → ℤ)) (l : List UInt8) : Complaint → Prop
  | .options => InvalidOptions options
  | tooLong => rt.platform.codepointMax <
      (cellsOf rt.data options (acceptedValues rt.data options (inputValues customFunc l))).length
  | refusedValue => ∃ uc ∈ inputValues customFunc l, Refused rt.data options uc
  | illFormed => ¬ WellFormed l
  | memory => rt.allocator.malloc heap (4 * cellCount rt.data options customFunc l + 1) = none

def complaints : List Complaint := [.options, .tooLong, .refusedValue, .illFormed, .memory]

theorem code_injective {c d : Complaint} (h : c.code = d.code) : c = d := by
  cases c <;> cases d <;> first | rfl | exact absurd h (by decide)

theorem code_neg (c : Complaint) : c.code < 0 := by
  cases c <;> decide

/-- Every code has a message of its own. -/
theorem errmsg_injective {c d : Complaint} (h : utf8procErrmsg c.code = utf8procErrmsg d.code) :
    c = d := by
  cases c <;> cases d <;> first | rfl | exact absurd h (by decide)

theorem errmsg_of_nonneg {rc : ℤ} (h : 0 ≤ rc) :
    utf8procErrmsg rc = "An unknown error occurred while processing UTF-8 data." := by
  have hne (c : Complaint) : rc ≠ c.code := by
    have hneg := code_neg c
    omega
  rw [utf8procErrmsg, if_neg (show rc ≠ utf8procErrorNomem from hne .memory),
    if_neg (show rc ≠ utf8procErrorOverflow from hne .tooLong),
    if_neg (show rc ≠ utf8procErrorInvalidutf8 from hne .illFormed),
    if_neg (show rc ≠ utf8procErrorNotassigned from hne .refusedValue),
    if_neg (show rc ≠ utf8procErrorInvalidopts from hne .options)]

theorem errmsg_code (c : Complaint) : utf8procErrmsg c.code ≠ utf8procErrmsg 0 := by
  cases c <;> decide

/-- The complaints that are looked for before this one. -/
def Complaint.earlier (c : Complaint) : List Complaint := complaints.takeWhile (· ≠ c)

/-- The first complaint that holds. -/
structure First (rt : Runtime) (heap : Heap) (options : Utf8procOption)
    (customFunc : Option (ℤ → ℤ)) (l : List UInt8) (c : Complaint) : Prop where
  holds : c.Holds rt heap options customFunc l
  before : ∀ d ∈ c.earlier, ¬ d.Holds rt heap options customFunc l

theorem exists_first {α : Type} [DecidableEq α] {p : α → Prop} {cs : List α}
    (h : ∃ c ∈ cs, p c) : ∃ c, p c ∧ ∀ d ∈ cs.takeWhile (· ≠ c), ¬ p d := by
  induction cs with
  | nil => simp at h
  | cons c cs ih =>
    by_cases hc : p c
    · exact ⟨c, hc, by simp⟩
    · obtain ⟨d, hd, hbefore⟩ := ih (by simpa [hc] using h)
      have hne : c ≠ d := by
        rintro rfl
        exact hc hd
      refine ⟨d, hd, ?_⟩
      rw [List.takeWhile_cons_of_pos (by simpa using hne)]
      exact List.forall_mem_cons.mpr ⟨hc, hbefore⟩

section First

variable {rt : Runtime} {heap : Heap} {options : Utf8procOption} {customFunc : Option (ℤ → ℤ)}
  {l : List UInt8}

theorem First.unique {c d : Complaint} (h : First rt heap options customFunc l c)
    (h' : First rt heap options customFunc l d) : c = d := by
  have hordered : c = d ∨ c ∈ d.earlier ∨ d ∈ c.earlier := by
    cases c <;> cases d <;> decide
  rcases hordered with heq | hearlier | hearlier
  · exact heq
  · exact absurd h.holds (h'.before c hearlier)
  · exact absurd h'.holds (h.before d hearlier)

/-- One of the complaints is the first, or none holds. -/
theorem first_or_none (rt : Runtime) (heap : Heap) (options : Utf8procOption)
    (customFunc : Option (ℤ → ℤ)) (l : List UInt8) :
    (∃ c, First rt heap options customFunc l c) ∨
      ∀ c : Complaint, ¬ c.Holds rt heap options customFunc l := by
  by_cases hsome : ∃ c ∈ complaints, c.Holds rt heap options customFunc l
  · left
    obtain ⟨c, hc, hbefore⟩ := exists_first hsome
    exact ⟨c, hc, hbefore⟩
  · right
    intro c hc
    apply hsome
    exact ⟨c, by cases c <;> decide, hc⟩

/-- The pass over the text ends with the first complaint, unless it is about memory. -/
theorem passError_first {c : Complaint} (h : First rt heap options customFunc l c)
    (hc : c ≠ .memory) : passError rt.platform rt.data options customFunc l = some c.code := by
  have hbefore (d : Complaint) (hd : d ∈ c.earlier) := h.before d hd
  have hholds := h.holds
  cases c with
  | options => exact if_pos hholds
  | tooLong => exact (if_neg (hbefore .options (by decide))).trans (if_pos hholds)
  | refusedValue =>
    exact ((if_neg (hbefore .options (by decide))).trans
      (if_neg (hbefore .tooLong (by decide)))).trans (if_pos hholds)
  | illFormed =>
    exact (((if_neg (hbefore .options (by decide))).trans
      (if_neg (hbefore .tooLong (by decide)))).trans
      (if_neg (hbefore .refusedValue (by decide)))).trans
      (if_neg (mt wellFormed_iff_decode.mpr hholds))
  | memory => exact absurd rfl hc

theorem passError_none (h : ∀ d ∈ Complaint.memory.earlier,
    ¬ d.Holds rt heap options customFunc l) :
    passError rt.platform rt.data options customFunc l = none := by
  have hwell : WellFormed l := not_not.mp (h .illFormed (by decide))
  exact (((if_neg (h .options (by decide))).trans (if_neg (h .tooLong (by decide)))).trans
    (if_neg (h .refusedValue (by decide)))).trans (if_pos (wellFormed_iff_decode.mp hwell))

/-- A call that complains returns the code of the first complaint. -/
theorem outcome_first {r : ℤ × Option Address × Heap}
    (h : OptionOutcome rt heap options customFunc l r) {c : Complaint}
    (hfirst : First rt heap options customFunc l c) : r.1 = c.code := by
  by_cases hmemory : c = .memory
  · subst hmemory
    rw [OptionOutcome, passError_none hfirst.before] at h
    dsimp only at h
    rw [show rt.allocator.malloc heap _ = none from hfirst.holds] at h
    exact congrArg Prod.fst h
  · rw [OptionOutcome, passError_first hfirst hmemory] at h
    exact congrArg Prod.fst h

theorem outcome_none {r : ℤ × Option Address × Heap}
    (h : OptionOutcome rt heap options customFunc l r)
    (hnone : ∀ c : Complaint, ¬ c.Holds rt heap options customFunc l) : 0 ≤ r.1 := by
  rw [OptionOutcome, passError_none fun d _ => hnone d] at h
  dsimp only at h
  obtain ⟨a, ha⟩ := Option.ne_none_iff_exists'.mp (hnone .memory)
  rw [ha] at h
  obtain ⟨_, _, hlength, _⟩ := h
  omega

end First

/-- The return value is negative for a complaint, and then the pointer is null and the heap as it
was; it is that of the first complaint that holds, and so is the message. -/
theorem map_custom_complains {rt : Runtime} (tables : OptionTables rt.data)
    {options : Utf8procOption} {mem : List UInt8} {strlen : ℤ}
    (readable : Readable options mem strlen) (customFunc : Option (ℤ → ℤ)) (heap : Heap)
    {l : List UInt8} (hl : inputText options mem strlen = l) :
    ∃ rc ptr after, utf8procMapCustom rt heap mem strlen options customFunc =
        .ok (rc, ptr, after) ∧
      (∀ c : Complaint, (rc = c.code ↔ First rt heap options customFunc l c) ∧
        (utf8procErrmsg rc = utf8procErrmsg c.code ↔ First rt heap options customFunc l c)) ∧
      (rc < 0 ↔ ∃ c : Complaint, c.Holds rt heap options customFunc l) ∧
      (rc < 0 → ptr = none ∧ after = heap) ∧
      (0 ≤ rc → ∃ a block, ptr = some a ∧ Owned heap after a block) := by
  obtain ⟨⟨rc, ptr, after⟩, hcall, houtcome⟩ :=
    utf8procMapCustom_outcome tables readable heap customFunc
  rw [hl] at houtcome
  refine ⟨rc, ptr, after, hcall, ?_, ?_, ?_⟩
  · intro c
    rcases first_or_none rt heap options customFunc l with ⟨d, hfirst⟩ | hnone
    · obtain rfl : rc = d.code := outcome_first houtcome hfirst
      have hsame (h : c = d) : First rt heap options customFunc l c := h ▸ hfirst
      constructor
      · exact ⟨fun h => hsame (code_injective h.symm), fun h => congrArg _ (hfirst.unique h)⟩
      · refine ⟨fun h => hsame (errmsg_injective h.symm), fun h => ?_⟩
        rw [hfirst.unique h]
    · have hnonneg : 0 ≤ rc := outcome_none houtcome hnone
      have hnot : ¬ First rt heap options customFunc l c := fun h => hnone c h.holds
      have hneg := code_neg c
      constructor
      · exact iff_of_false (by omega) hnot
      · rw [errmsg_of_nonneg hnonneg, ← errmsg_of_nonneg le_rfl]
        exact iff_of_false (errmsg_code c).symm hnot
  · rcases first_or_none rt heap options customFunc l with ⟨d, hfirst⟩ | hnone
    · obtain rfl : rc = d.code := outcome_first houtcome hfirst
      exact iff_of_true (code_neg d) ⟨d, hfirst.holds⟩
    · exact iff_of_false (not_lt.mpr (outcome_none houtcome hnone)) fun h => h.elim hnone
  · rcases houtcome.null_or_owned with ⟨hneg, hptr, hafter⟩ | ⟨a, block, hnonneg, hptr, howned⟩
    · exact ⟨fun _ => ⟨hptr, hafter⟩, fun h => by omega⟩
    · exact ⟨fun h => by omega, fun _ => ⟨a, block, hptr, howned⟩⟩

/-- A value that is refused before bytes that are ill-formed. -/
theorem map_custom_complains_refused :
    utf8procMapCustom smallRuntime (fun _ => none) [0x65, 0xFF] 2 utf8procCompose
      (some fun _ => -1) = .ok (utf8procErrorNotassigned, none, fun _ => none) := by
  have tables : OptionTables smallRuntime.data := acute_optionTables
  have readable : Readable utf8procCompose [0x65, 0xFF] 2 := by decide
  obtain ⟨rc, ptr, after, hcall, hcode, _, hfailed, _⟩ := map_custom_complains tables readable
    (some fun _ => -1) (fun _ => none) rfl
  have hfirst : First smallRuntime (fun _ => none) utf8procCompose (some fun _ => -1)
      (inputText utf8procCompose [0x65, 0xFF] 2) .refusedValue := by
    refine ⟨⟨-1, by decide +kernel, Or.inl (by decide)⟩, ?_⟩
    intro d hd
    rcases List.mem_pair.mp hd with rfl | rfl
    · change ¬ InvalidOptions utf8procCompose
      decide
    · unfold Complaint.Holds
      decide +kernel
  obtain rfl : rc = utf8procErrorNotassigned := (hcode .refusedValue).1.mpr hfirst
  obtain ⟨rfl, rfl⟩ := hfailed (by decide)
  exact hcall

end LeoUTF8.MapErrors
