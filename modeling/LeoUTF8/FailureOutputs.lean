import LeoUTF8.MapCorrectness

set_option autoImplicit false

/-!
# The outputs after a failure

The API document, `docs/api/LeoUTF8Core.md`, promises `*out == NULL` and `*outLen == 0` for every
failure of a transform. The functions meet this unless they return before they touch the outputs.
-/
namespace LeoUTF8.FailureOutputs
open BoundedLoop CellStorage HeapBlocks RecursiveExpansion ScalarEncoding
open EngineTables EngineDecompose EngineMap CoreFunctions
open CodePointMapping TableAssumptions MapCorrectness

/-- `utf8proc_map_custom` fails and leaves the heap as it was, or returns a new block. -/
def MapEffect (heap : Heap) (r : ℤ × Option Address × Heap) : Prop :=
  if r.1 < 0 then r.2.1 = none ∧ r.2.2 = heap
  else ∃ a block, r.2.1 = some a ∧ Owned heap r.2.2 a block

theorem mapEffect_of_neg {heap : Heap} {rc : ℤ} (h : rc < 0) : MapEffect heap (rc, none, heap) := by
  rw [MapEffect, if_pos h]
  exact ⟨rfl, rfl⟩

theorem mapEffect_of_owned {heap after : Heap} {rc : ℤ} {a : Address} {block : List UInt8}
    (h : ¬ rc < 0) (howned : Owned heap after a block) : MapEffect heap (rc, some a, after) := by
  rw [MapEffect, if_neg h]
  exact ⟨a, block, rfl, howned⟩

theorem utf8procMapCustom_effect {rt : Runtime} {heap : Heap} {mem : List UInt8} {strlen : ℤ}
    {options : Utf8procOption} {customFunc : Option (ℤ → ℤ)} {r : ℤ × Option Address × Heap}
    (h : utf8procMapCustom rt heap mem strlen options customFunc = .ok r) : MapEffect heap r := by
  rw [utf8procMapCustom] at h
  obtain ⟨⟨count, counted⟩, hcount, h⟩ := bind_eq_ok h
  simp only at h
  by_cases hneg : count < 0
  · rw [if_pos hneg] at h
    obtain rfl := Except.ok.inj h
    exact mapEffect_of_neg hneg
  rw [if_neg hneg] at h
  cases hmalloc : rt.allocator.malloc heap (mapSize rt.platform count) with
  | none =>
    rw [hmalloc] at h
    obtain rfl := Except.ok.inj h
    exact mapEffect_of_neg (by decide)
  | some a =>
    have hfresh : heap a = none := rt.allocator.malloc_fresh _ _ _ hmalloc
    rw [hmalloc] at h
    obtain ⟨⟨result, array⟩, hfill, h⟩ := bind_eq_ok h
    simp only at h
    by_cases hneg : result < 0
    · rw [if_pos hneg, Heap.free_put hfresh] at h
      obtain rfl := Except.ok.inj h
      exact mapEffect_of_neg hneg
    rw [if_neg hneg] at h
    obtain ⟨⟨size, storage⟩, hreencode, h⟩ := bind_eq_ok h
    simp only [Heap.put_put] at h
    by_cases hneg : size < 0
    · rw [if_pos hneg, Heap.free_put hfresh] at h
      obtain rfl := Except.ok.inj h
      exact mapEffect_of_neg hneg
    rw [if_neg hneg] at h
    cases hrealloc : rt.allocator.realloc (heap.put a storage) a (size.toNat + 1) with
    | none =>
      rw [hrealloc] at h
      obtain rfl := Except.ok.inj h
      exact mapEffect_of_owned hneg ⟨hfresh, rfl⟩
    | some b =>
      rw [hrealloc] at h
      obtain rfl := Except.ok.inj h
      exact mapEffect_of_owned hneg
        ⟨rt.allocator.realloc_put_fresh hfresh hrealloc, rt.allocator.resize_put hfresh⟩

/-- The six transforms; a byte-length function with its `length`. -/
inductive EntryPoint where
  | bytes (T : Transform) (length : ℕ)
  | text (T : Transform)

def EntryPoint.call (e : EntryPoint) (rt : Runtime) (heap : Heap) (input : Option (List UInt8))
    (o : Outputs) : Exec (LeoUTF8Status × Outputs × Heap) :=
  match e with
  | .bytes T length => bytesFunction T rt heap input length o
  | .text T => textFunction T rt heap input o

/-- The input is null, or holds what the function is told it holds. -/
def EntryPoint.Readable (e : EntryPoint) (input : Option (List UInt8)) : Prop :=
  match e with
  | .bytes _ length => ∀ mem, input = some mem → length ≤ mem.length
  | .text _ => ∀ mem, input = some mem → (0 : UInt8) ∈ mem

/-- `*out` is null and `*outLen` is zero, as far as the pointers are given. -/
def Clean (o : Outputs) : Prop :=
  (∀ value, o.out = some value → value = none) ∧ ∀ n, o.outLen = some n → n = 0

/-- The documented contract, for a call on `heap` that returned `r`. -/
def Contract (heap : Heap) (r : LeoUTF8Status × Outputs × Heap) : Prop :=
  if r.1 = .ok then ∃ a block, r.2.1.out = some (some a) ∧ Owned heap r.2.2 a block
  else Clean r.2.1

/-- The call reaches the assignments that clear the outputs. -/
def EntryPoint.ReachesOutputs (e : EntryPoint) (input : Option (List UInt8)) (o : Outputs) : Prop :=
  o.out ≠ none ∧ match e with
    | .bytes _ _ => True
    | .text _ => input ≠ none

theorem clean_cleared (o : Outputs) : Clean (cleared o) := by
  constructor
  · intro value h
    obtain ⟨_, _, rfl⟩ := Option.map_eq_some_iff.mp h
    rfl
  · intro n h
    obtain ⟨_, _, rfl⟩ := Option.map_eq_some_iff.mp h
    rfl

theorem contract_of_failure {heap after : Heap} {status : LeoUTF8Status} {o : Outputs}
    (h : status ≠ .ok) : Contract heap (status, o, after) ↔ Clean o := by
  rw [Contract, if_neg h]

theorem leoUTF8StatusFromUtf8proc_ne_ok {rc : ℤ} (h : rc < 0) :
    leoUTF8StatusFromUtf8proc rc ≠ .ok := by
  rw [leoUTF8StatusFromUtf8proc, if_neg (by omega)]
  split_ifs <;> simp

theorem bytesFunction_contract {T : Transform} {rt : Runtime} {heap : Heap}
    {input : Option (List UInt8)} {length : ℕ} {o : Outputs}
    {r : LeoUTF8Status × Outputs × Heap} (hout : o.out ≠ none)
    (h : bytesFunction T rt heap input length o = .ok r) : Contract heap r := by
  rw [bytesFunction_eq, leoUTF8MapBytes, if_neg hout] at h
  cases input with
  | none =>
    obtain rfl := Except.ok.inj h
    exact (contract_of_failure (by simp)).mpr (clean_cleared o)
  | some mem =>
    unfold leoUTF8ToUtf8procLength at h
    by_cases hmax : length > rt.platform.longMax
    · simp only [if_pos hmax] at h
      obtain rfl := Except.ok.inj h
      exact (contract_of_failure (by simp)).mpr (clean_cleared o)
    · simp only [if_neg hmax] at h
      obtain ⟨⟨rc, mapped, after⟩, hmap, h⟩ := bind_eq_ok h
      have heffect := utf8procMapCustom_effect hmap
      simp only at h
      by_cases hneg : rc < 0
      · rw [if_pos hneg] at h
        obtain rfl := Except.ok.inj h
        exact (contract_of_failure (leoUTF8StatusFromUtf8proc_ne_ok hneg)).mpr (clean_cleared o)
      · rw [MapEffect, if_neg hneg] at heffect
        obtain ⟨a, block, rfl, howned⟩ := heffect
        rw [if_neg hneg] at h
        obtain rfl := Except.ok.inj h
        obtain ⟨value, hvalue⟩ := Option.ne_none_iff_exists'.mp hout
        refine ⟨a, block, ?_, howned⟩
        simp [Outputs.setOut, Outputs.setOutLen, hvalue]

/-- Without an `out` a byte-length function returns before it touches `*outLen`. -/
theorem bytesFunction_out_none {T : Transform} {rt : Runtime} {heap : Heap}
    {input : Option (List UInt8)} {length : ℕ} {o : Outputs} (hout : o.out = none) :
    bytesFunction T rt heap input length o = .ok (.invalid, o, heap) := by
  rw [bytesFunction_eq, leoUTF8MapBytes, if_pos hout]

theorem bytesFunction_contract_iff {T : Transform} {rt : Runtime} {heap : Heap}
    {input : Option (List UInt8)} {length : ℕ} {o : Outputs}
    {r : LeoUTF8Status × Outputs × Heap}
    (h : bytesFunction T rt heap input length o = .ok r) :
    Contract heap r ↔ o.out ≠ none ∨ Clean o := by
  by_cases hout : o.out = none
  · rw [bytesFunction_out_none hout] at h
    obtain rfl := Except.ok.inj h
    rw [contract_of_failure (by simp)]
    simp [hout]
  · exact iff_of_true (bytesFunction_contract hout h) (Or.inl hout)

theorem bytesFunction_returns {T : Transform} {rt : Runtime} (heap : Heap)
    {input : Option (List UInt8)} {length : ℕ} (o : Outputs)
    (terminates : Terminates (entry rt.data T))
    (hread : ∀ mem, input = some mem → length ≤ mem.length) :
    ∃ r, bytesFunction T rt heap input length o = .ok r := by
  by_cases hout : o.out = none
  · exact ⟨_, bytesFunction_out_none hout⟩
  cases input with
  | none => exact ⟨_, by rw [bytesFunction_eq, leoUTF8MapBytes, if_neg hout]⟩
  | some mem =>
    by_cases hmax : length ≤ rt.platform.longMax
    · obtain ⟨r, hr, _⟩ := bytesFunction_outcome heap (expandable_decode terminates _)
        (hread mem rfl) hmax hout
      exact ⟨r, hr⟩
    · refine ⟨(.error, cleared o, heap), ?_⟩
      rw [bytesFunction_eq, leoUTF8MapBytes, if_neg hout]
      simp only [leoUTF8ToUtf8procLength, if_pos (show length > rt.platform.longMax by omega)]
      rfl

/-- Exactly the calls that return before the outputs are cleared break the contract, unless
the outputs were clean before. Every call on readable input returns. -/
theorem call_contract (e : EntryPoint) (rt : Runtime) (heap : Heap)
    (input : Option (List UInt8)) (o : Outputs) :
    (∀ r, e.call rt heap input o = .ok r →
      (Contract heap r ↔ e.ReachesOutputs input o ∨ Clean o)) ∧
    ((∀ T, Terminates (entry rt.data T)) → e.Readable input →
      ∃ r, e.call rt heap input o = .ok r) := by
  cases e with
  | bytes T length =>
    constructor
    · intro r h
      rw [bytesFunction_contract_iff h, EntryPoint.ReachesOutputs, and_true]
    · intro terminates hread
      exact bytesFunction_returns heap o (terminates T) hread
  | text T =>
    cases input with
    | none =>
      have hcall : (EntryPoint.text T).call rt heap none o = .ok (.invalid, o, heap) :=
        textFunction_none T rt heap o
      constructor
      · intro r h
        rw [hcall] at h
        obtain rfl := Except.ok.inj h
        rw [contract_of_failure (by simp)]
        simp [EntryPoint.ReachesOutputs]
      · exact fun _ _ => ⟨_, hcall⟩
    | some mem =>
      have hcall : (EntryPoint.text T).call rt heap (some mem) o =
          strlen mem >>= fun n => bytesFunction T rt heap (some mem) n o :=
        textFunction_some T rt heap mem o
      constructor
      · intro r h
        rw [hcall] at h
        obtain ⟨n, _, hbytes⟩ := bind_eq_ok h
        rw [bytesFunction_contract_iff hbytes]
        simp [EntryPoint.ReachesOutputs]
      · intro terminates hread
        obtain ⟨n, hn, hstrlen⟩ := strlen_of_mem (hread mem rfl)
        rw [hcall, hstrlen]
        apply bytesFunction_returns heap o (terminates T)
        intro mem' hmem
        obtain rfl := Option.some.inj hmem
        exact hn

theorem call_contract_acute :
    ∃ r, leoUTF8NormalizeNFCBytes smallRuntime (fun _ => none) (some [0xC3, 0xA9]) 2
        { out := some (some 16), outLen := some 7 } = .ok r ∧ Contract (fun _ => none) r := by
  have hcontract := call_contract (.bytes .nfc 2) smallRuntime (fun _ => none) (some [0xC3, 0xA9])
    { out := some (some 16), outLen := some 7 }
  obtain ⟨r, hr⟩ := hcontract.2 acute_terminates
    (fun mem hmem => by rw [← Option.some.inj hmem]; exact le_refl 2)
  exact ⟨r, hr, (hcontract.1 r hr).mpr (Or.inl ⟨by simp, trivial⟩)⟩

theorem call_contract_fails :
    (∃ r, leoUTF8NormalizeNFC smallRuntime (fun _ => none) none
        { out := some (some 16), outLen := some 7 } = .ok r ∧ ¬ Contract (fun _ => none) r) ∧
    ∃ r, leoUTF8NormalizeNFCBytes smallRuntime (fun _ => none) (some [0x61]) 1
        { out := none, outLen := some 7 } = .ok r ∧ ¬ Contract (fun _ => none) r := by
  constructor
  · refine ⟨_, rfl, ?_⟩
    rw [contract_of_failure (by simp)]
    simp [Clean]
  · refine ⟨_, rfl, ?_⟩
    rw [contract_of_failure (by simp)]
    simp [Clean]

end LeoUTF8.FailureOutputs
