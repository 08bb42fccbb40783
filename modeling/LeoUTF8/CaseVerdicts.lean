import LeoUTF8.ProbeSafety

set_option autoImplicit false

/-!
# The verdict on a case

The exact-output probe passes a case when the transform makes the expected bytes of the input,
and for no other reason. Where memory runs out it says so.
-/
namespace LeoUTF8.CaseVerdicts
open BoundedLoop HeapBlocks ScalarEncoding EngineMap CoreFunctions CodePointMapping MapCorrectness
open RecursiveExpansion HexText ExpectProbe CaseFiles CaseLoading ProbeVerdicts FileProbes
open ProbeSafety ValidatorLanguage

theorem memcmp_take {s t : List UInt8} {n : ℕ} (h : s.take n = t.take n) (hs : n ≤ s.length)
    (ht : n ≤ t.length) : memcmp s t n = .ok 0 := by
  induction n generalizing s t with
  | zero => cases s <;> cases t <;> rfl
  | succ n ih =>
    cases s with
    | nil => simp at hs
    | cons a s =>
      cases t with
      | nil => simp at ht
      | cons b t =>
        rw [List.take_succ_cons, List.take_succ_cons, List.cons.injEq] at h
        rw [memcmp, if_neg (not_not_intro h.1)]
        exact ih h.2 (by simpa using hs) (by simpa using ht)

theorem Holds.beside {heap after : Heap} {buffer : HexBuffer} {bytes : List UInt8} {a : Address}
    {block : List UInt8} (h : Holds heap buffer bytes) (howned : Owned heap after a block) :
    Holds after buffer bytes := by
  obtain ⟨b, block', hbuffer, hb, htake⟩ := h
  have hba : b ≠ a := by
    rintro rfl
    rw [howned.1] at hb
    cases hb
  exact ⟨b, block', hbuffer, by rw [howned.2, Heap.put_of_ne heap hba, hb], htake⟩

/-- The output passes if and only if it consists of the expected bytes. -/
theorem mismatch_iff {heap : Heap} {a : Address} {block out bytes : List UInt8}
    {buffer : HexBuffer} (hlive : heap a = some block) (hout : out <+: block)
    (hholds : Holds heap buffer bytes) :
    ∃ differs, mismatch heap (some a) out.length buffer = .ok differs ∧
      (differs = false ↔ out = bytes) := by
  have hfalse (h : mismatch heap (some a) out.length buffer = .ok false) : out = bytes := by
    obtain ⟨hlength, htake⟩ := mismatch_eq_false hlive hholds h
    rw [← htake, ← hlength]
    exact List.prefix_iff_eq_take.mp hout
  obtain ⟨b, expected, rfl, hexpected, htake⟩ := hholds
  by_cases heq : out = bytes
  · subst heq
    refine ⟨false, ?_, iff_of_true rfl rfl⟩
    have hlength : out.length ≤ expected.length := by
      have h := congrArg List.length htake
      rw [List.length_take] at h
      omega
    have hcompare := memcmp_take ((List.prefix_iff_eq_take.mp hout).symm.trans htake.symm)
      hout.length_le hlength
    rw [mismatch, if_neg (not_not_intro rfl), object_eq_ok hlive, ok_bind,
      object_eq_ok hexpected, ok_bind, hcompare]
    split_ifs <;> rfl
  · have hreturns : ∃ differs, mismatch heap (some a) out.length
        { bytes := some b, length := bytes.length } = .ok differs :=
      mismatch_returns { bytes := some a, length := out.length } (object_eq_ok hlive)
        hout.length_le (object_eq_ok hexpected) (by
          have h := congrArg List.length htake
          rw [List.length_take] at h
          dsimp only
          omega)
    obtain ⟨differs, hdiffers⟩ := hreturns
    refine ⟨differs, hdiffers, iff_of_false ?_ heq⟩
    rintro rfl
    exact heq (hfalse hdiffers)

/-- Where the transform has succeeded once, it fails for want of memory only. -/
theorem failed_again {rt : Runtime} {T : Transform} {heap after : Heap} {x y block : List UInt8}
    {o o' : Outputs} {status : LeoUTF8Status} (h : TransformOutput rt.platform rt.data T x y)
    (htake : block.take x.length = x) (hlen : x.length ≤ block.length) (hout : o.out ≠ none)
    (hcall : bytesFunction T rt heap (some block) x.length o = .ok (status, o', after))
    (hstatus : status ≠ .ok) : status = .noMemory := by
  obtain ⟨hvalid, hexpandable, _⟩ := h.result
  obtain ⟨alloc, heap', after', mem, _, _, _, a, hx, hfirst, _, _⟩ := h
  have hmem : mem.take x.length = x := (List.prefix_iff_eq_take.mp hx).symm
  have hcount := (bytesFunction_success hx.length_le hfirst).count
  rw [hmem] at hcount
  obtain ⟨hmax, _, _⟩ := expandable_of_ok hx.length_le hfirst
  obtain ⟨r, hr, houtcome⟩ := @bytesFunction_outcome rt T heap block x.length o
    (by rw [htake]; exact hexpandable) hlen hmax hout
  rw [hcall] at hr
  obtain rfl := Except.ok.inj hr
  rw [htake, CallOutcome, if_neg (by dsimp only at hcount; omega),
    if_pos (wellFormed_iff_decode.mp hvalid)] at houtcome
  cases hmalloc : rt.allocator.malloc heap (4 * runningCount rt.data T x + 1) with
  | none =>
    rw [hmalloc] at houtcome
    exact congrArg Prod.fst houtcome
  | some _ =>
    rw [hmalloc] at houtcome
    obtain ⟨_, _, _, hr, _⟩ := houtcome
    exact absurd (congrArg Prod.fst hr) hstatus

/-- The verdict on a case that is loaded. -/
theorem main_loaded {rt : Runtime} {fopen : Path → Option ExpectProbe.Stream} {T : Transform}
    (terminates : Terminates (entry rt.data T)) {heap after : Heap} {program path : Path}
    {input expected : HexBuffer} {x y : List UInt8}
    (hload : loadCaseFile rt.allocator fopen heap (some path) (some emptyBuffer)
      (some emptyBuffer) = .ok (0, some input, some expected, after))
    (hinput : Holds after input x) (hexpected : Holds after expected y) :
    ∃ exit, main rt fopen (some T) heap [program, path] = .ok exit ∧
      (exit.code = 0 ∨ exit.code = 3) ∧
      (exit.code = 0 → TransformOutput rt.platform rt.data T x y) ∧
      (TransformOutput rt.platform rt.data T x y → exit.code = 3 →
        exit.stderr = "LEOFUZZ:ERROR transform=" ++ probeModeName (some T) ++ " status=" ++
          leoUTF8StatusMessage .noMemory ++ "\n") := by
  obtain ⟨a, block, rfl, hlive, htake⟩ := hinput
  have hlen : x.length ≤ block.length := by
    have h := congrArg List.length htake
    rw [List.length_take] at h
    omega
  obtain ⟨status, o, final, hcall, houtcome⟩ := @runTransform_loaded rt (some T)
    (fun T' hT => by rw [← Option.some.inj hT]; exact terminates) after block x htake hlen
  rw [main, hload, ok_bind]
  dsimp only [Option.getD_some]
  rw [if_neg (not_not_intro rfl), object_eq_ok hlive, ok_bind, hcall, ok_bind]
  dsimp only
  by_cases hstatus : status = .ok
  · rw [if_pos hstatus] at houtcome
    obtain ⟨_, _, T', b, z, outBlock, hT, houtput, rfl, hz, howned⟩ := houtcome
    obtain rfl := Option.some.inj hT
    obtain ⟨differs, hdiffers, hiff⟩ :=
      mismatch_iff howned.live hz (Holds.beside hexpected howned)
    rw [if_neg (not_not_intro hstatus)]
    dsimp only [Option.getD_some]
    rw [hdiffers, ok_bind]
    cases differs with
    | true =>
      rw [if_pos rfl]
      refine ⟨_, rfl, Or.inr rfl, by simp, fun h _ => ?_⟩
      have hsame : z = y := houtput.result.2.2.trans h.result.2.2.symm
      exact absurd (hiff.mpr hsame) Bool.noConfusion
    | false =>
      rw [if_neg Bool.false_ne_true]
      exact ⟨_, rfl, Or.inl rfl, fun _ => hiff.mp rfl ▸ houtput, by simp⟩
  · rw [if_pos hstatus]
    refine ⟨_, rfl, Or.inr rfl, by simp, fun h _ => ?_⟩
    rw [runTransform_some] at hcall
    rw [failed_again h htake hlen (by simp) hcall hstatus]

/-- The probe rejects a case file exactly if it is not in the format, passes a case only if the
transform makes the expected bytes of the input, and fails such a case only for want of memory. -/
theorem exact_output_verdict {rt : Runtime} {fopen : Path → Option ExpectProbe.Stream}
    {T : Transform} (terminates : Terminates (entry rt.data T)) {heap : Heap}
    (supplied : Supplied rt.allocator heap) {program path : Path} {contents : List UInt8}
    (hfile : fopen path = some { rest := contents, inputError := false }) (hnul : 0 ∉ contents)
    (hcut : CutHarmless contents) {x y : List UInt8}
    (hx : x = bytesOf (lastDigits inputKey (lines contents)))
    (hy : y = bytesOf (lastDigits expectedKey (lines contents))) :
    ∃ exit, main rt fopen (some T) heap [program, path] = .ok exit ∧
      (exit.code = 0 ∨ exit.code = 2 ∨ exit.code = 3) ∧
      (exit.code = 2 ↔ ¬ InFormat (lines contents)) ∧
      (exit.code = 0 → TransformOutput rt.platform rt.data T x y) ∧
      (TransformOutput rt.platform rt.data T x y → exit.code = 3 →
        exit.stderr = "LEOFUZZ:ERROR transform=" ++ probeModeName (some T) ++ " status=" ++
          leoUTF8StatusMessage .noMemory ++ "\n") := by
  obtain ⟨rc, input, expected, after, hload, hrc, hholds⟩ :=
    loadCaseFile_cutLines supplied hfile hnul
  rw [hcut.format] at hrc
  by_cases hzero : rc = 0
  · subst hzero
    have hformat := hrc.mp rfl
    obtain ⟨hinput, hexpected⟩ := hholds rfl
    rw [hcut.input hformat, ← hx] at hinput
    rw [hcut.expected hformat, ← hy] at hexpected
    obtain ⟨exit, hmain, hcode, hverdict⟩ := main_loaded terminates hload hinput hexpected
    exact ⟨exit, hmain, by omega, iff_of_false (by omega) (not_not_intro hformat), hverdict⟩
  · rw [main, hload, ok_bind]
    dsimp only [Option.getD_some]
    rw [if_pos hzero]
    exact ⟨_, rfl, by simp, iff_of_true rfl (mt hrc.mpr hzero), by simp, by simp⟩

/-- A case of one letter that is its own normal form. -/
theorem exact_output_verdict_short :
    ∃ exit, main probeRuntime (fun _ => some { rest := shortCase, inputError := false })
      (some .nfc) (fun _ => none) [[], []] = .ok exit ∧ exit.code = 0 := by
  have hlines : lines shortCase = [inputKey ++ [0x34, 0x31], expectedKey ++ [0x34, 0x31], []] := by
    decide
  have hshort : CutHarmless shortCase := by
    apply cutHarmless_of_short
    rw [hlines]
    decide
  obtain ⟨exit, hmain, _⟩ := @exact_output_verdict probeRuntime
    (fun _ => some { rest := shortCase, inputError := false }) .nfc
    (TableAssumptions.acute_terminates .nfc) _ probeRuntime_supplied [] [] shortCase rfl
    (by decide) hshort _ _ rfl rfl
  refine ⟨exit, hmain, ?_⟩
  have hcode : (main probeRuntime (fun _ => some { rest := shortCase, inputError := false })
      (some .nfc) (fun _ => none) [[], []]).map Exit.code = .ok 0 := by
    decide +kernel
  rw [hmain] at hcode
  exact Except.ok.inj hcode

end LeoUTF8.CaseVerdicts
