import LeoUTF8.BridgeRoundTrips

set_option autoImplicit false

/-!
# The statuses of the bridges from bytes to strings

Both functions report what the validator rejects alike. They differ when the framework
creates no string from bytes that validate.
-/
namespace LeoUTF8.BridgeStatuses
open BoundedLoop EngineTables CoreFunctions ValidatorLanguage FrameworkBridges BridgeRoundTrips

/-- What the constructor of CoreFoundation returns for the bytes. -/
def cfString (fw : Framework) (bytes : Option (List UInt8)) (length : ℕ) : Option fw.Str :=
  bytes.bind fun mem => fw.cfStringCreateWithBytes mem length kCFStringEncodingUTF8 false

/-- What the constructor of Foundation returns for the bytes. -/
def nsString (fw : Framework) (bytes : Option (List UInt8)) (length : ℕ) : Option fw.Str :=
  bytes.bind fun mem => fw.nsStringInitWithBytes mem length nsUTF8StringEncoding

section Statuses

variable (pf : Platform) (fw : Framework) (bytes : Option (List UInt8)) (length : ℕ)
  (outString : Option (Option fw.Str))

def Rejected : Prop :=
  outString = none ∨ bytes = none ∨ leoUTF8ValidateBytes pf bytes length = .ok .invalid

/-- The function goes on to the constructor. -/
def Validated : Prop :=
  outString ≠ none ∧ bytes ≠ none ∧ leoUTF8ValidateBytes pf bytes length = .ok .ok

/-- The documented statuses: `invalid` blames the input, `error` a constructor that fails. -/
structure ClassifiedAlike (cf ns : LeoUTF8Status) : Prop where
  alike : (Validated pf fw bytes length outString →
    (cfString fw bytes length = none ↔ nsString fw bytes length = none)) → cf = ns
  cfInvalid : cf = .invalid ↔ Rejected pf fw bytes length outString
  nsInvalid : ns = .invalid ↔ Rejected pf fw bytes length outString
  cfError : Validated pf fw bytes length outString → cfString fw bytes length = none → cf = .error
  nsError : Validated pf fw bytes length outString → nsString fw bytes length = none → ns = .error

end Statuses

section Creations

variable {pf : Platform} (fw : Framework) {mem : List UInt8} {length : ℕ} {status : LeoUTF8Status}
  (hlen : length ≤ mem.length) (hvalid : leoUTF8ValidateBytes pf (some mem) length = .ok status)
  (old : Option fw.Str)
include hlen hvalid

theorem leoUTF8CreateCFStringFromBytes_status :
    ∃ out, leoUTF8CreateCFStringFromBytes pf fw (some mem) length (some old) =
      .ok (if status = .ok then (cfString fw (some mem) length).elim .error fun _ => .ok
        else status, out) := by
  rw [leoUTF8CreateCFStringFromBytes, hvalid, ok_bind]
  by_cases hstatus : status = .ok
  · subst hstatus
    obtain ⟨hmax, _⟩ := validated hlen hvalid
    rw [if_neg (not_not_intro rfl), if_pos rfl, leoUTF8SizeToCFIndex, if_neg (by omega)]
    simp only [cfString, Option.bind_some]
    cases fw.cfStringCreateWithBytes mem length kCFStringEncodingUTF8 false with
    | none => exact ⟨_, rfl⟩
    | some string => exact ⟨_, rfl⟩
  · rw [if_pos hstatus, if_neg hstatus]
    exact ⟨_, rfl⟩

omit hlen in
theorem leoUTF8CreateNSStringFromBytes_status :
    ∃ out, leoUTF8CreateNSStringFromBytes pf fw (some mem) length (some old) =
      .ok (if status = .ok then (nsString fw (some mem) length).elim .invalid fun _ => .ok
        else status, out) := by
  rw [leoUTF8CreateNSStringFromBytes, hvalid, ok_bind]
  by_cases hstatus : status = .ok
  · rw [if_neg (not_not_intro hstatus), if_pos hstatus]
    simp only [nsString, Option.bind_some]
    cases fw.nsStringInitWithBytes mem length nsUTF8StringEncoding with
    | none => exact ⟨_, rfl⟩
    | some string => exact ⟨_, rfl⟩
  · rw [if_pos hstatus, if_neg hstatus]
    exact ⟨_, rfl⟩

end Creations

section Classification

variable {pf : Platform} {fw : Framework} {bytes : Option (List UInt8)} {length : ℕ}
  {outString : Option (Option fw.Str)}

/-- Without a constructor the two functions return the same status. -/
theorem classifiedAlike_of_not_validated {status : LeoUTF8Status}
    (hinvalid : status = .invalid ↔ Rejected pf fw bytes length outString)
    (h : ¬ Validated pf fw bytes length outString) :
    ClassifiedAlike pf fw bytes length outString status status :=
  ⟨fun _ => rfl, hinvalid, hinvalid, fun hv => absurd hv h, fun hv => absurd hv h⟩

theorem classifiedAlike_of_validated (h : Validated pf fw bytes length outString) :
    ClassifiedAlike pf fw bytes length outString
        ((cfString fw bytes length).elim .error fun _ => .ok)
        ((nsString fw bytes length).elim .invalid fun _ => .ok) ↔
      nsString fw bytes length ≠ none := by
  have hrejected : ¬ Rejected pf fw bytes length outString := by
    rintro (hout | hbytes | hinvalid)
    · exact h.1 hout
    · exact h.2.1 hbytes
    · rw [h.2.2] at hinvalid
      cases hinvalid
  cases hns : nsString fw bytes length with
  | none =>
    apply iff_of_false _ (not_not_intro rfl)
    intro hclassified
    exact hrejected (hclassified.nsInvalid.mp rfl)
  | some string =>
    apply iff_of_true _ (Option.some_ne_none string)
    cases hcf : cfString fw bytes length with
    | none =>
      have hdiffer : ¬ (cfString fw bytes length = none ↔ nsString fw bytes length = none) := by
        simp [hcf, hns]
      exact ⟨fun hcreate => absurd (hcreate h) hdiffer, iff_of_false (by simp) hrejected,
        iff_of_false (by simp) hrejected, fun _ _ => rfl, by simp [hns]⟩
    | some _ =>
      exact ⟨fun _ => rfl, iff_of_false (by simp) hrejected,
        iff_of_false (by simp) hrejected, by simp [hcf], by simp [hns]⟩

end Classification

/-- The statuses are the documented ones unless Foundation creates no string from validated
bytes, which its bridge reports as invalid input. -/
theorem bridges_classifiedAlike (pf : Platform) (fw : Framework) (bytes : Option (List UInt8))
    (length : ℕ) (outString : Option (Option fw.Str))
    (hread : ∀ mem, bytes = some mem → length ≤ mem.length) :
    ∃ cf cfOut ns nsOut,
      leoUTF8CreateCFStringFromBytes pf fw bytes length outString = .ok (cf, cfOut) ∧
      leoUTF8CreateNSStringFromBytes pf fw bytes length outString = .ok (ns, nsOut) ∧
      (ClassifiedAlike pf fw bytes length outString cf ns ↔
        (Validated pf fw bytes length outString → nsString fw bytes length ≠ none)) := by
  have hskip {status : LeoUTF8Status}
      (hinvalid : status = .invalid ↔ Rejected pf fw bytes length outString)
      (h : ¬ Validated pf fw bytes length outString) :
      ClassifiedAlike pf fw bytes length outString status status ↔
        (Validated pf fw bytes length outString → nsString fw bytes length ≠ none) :=
    iff_of_true (classifiedAlike_of_not_validated hinvalid h) fun hv => absurd hv h
  cases outString with
  | none =>
    exact ⟨.invalid, none, .invalid, none, by cases bytes <;> rfl, by cases bytes <;> rfl,
      hskip (iff_of_true rfl (Or.inl rfl)) fun hv => hv.1 rfl⟩
  | some old =>
    cases bytes with
    | none =>
      exact ⟨.invalid, some none, .invalid, some none, rfl, rfl,
        hskip (iff_of_true rfl (Or.inr (Or.inl rfl))) fun hv => hv.2.1 rfl⟩
    | some mem =>
      have hlen := hread mem rfl
      obtain ⟨status, hvalid⟩ := leoUTF8ValidateBytes_returns pf hlen
      obtain ⟨cfOut, hcf⟩ := leoUTF8CreateCFStringFromBytes_status fw hlen hvalid old
      obtain ⟨nsOut, hns⟩ := leoUTF8CreateNSStringFromBytes_status fw hvalid old
      refine ⟨_, cfOut, _, nsOut, hcf, hns, ?_⟩
      by_cases hstatus : status = .ok
      · subst hstatus
        have hvalidated : Validated pf fw (some mem) length (some old) :=
          ⟨by simp, by simp, hvalid⟩
        rw [if_pos rfl, if_pos rfl, classifiedAlike_of_validated hvalidated]
        exact ⟨fun h _ => h, fun h => h hvalidated⟩
      · rw [if_neg hstatus, if_neg hstatus]
        apply hskip
        · simp [Rejected, hvalid]
        · rintro ⟨_, _, hok⟩
          rw [hvalid] at hok
          exact hstatus (Except.ok.inj hok)

theorem bridges_classifiedAlike_reference :
    ∃ cf cfOut ns nsOut,
      leoUTF8CreateCFStringFromBytes .leopardPPC (referenceFramework .leopardPPC)
        (some [0xC3, 0xA9]) 2 (some none) = .ok (cf, cfOut) ∧
      leoUTF8CreateNSStringFromBytes .leopardPPC (referenceFramework .leopardPPC)
        (some [0xC3, 0xA9]) 2 (some none) = .ok (ns, nsOut) ∧
      ClassifiedAlike .leopardPPC (referenceFramework .leopardPPC) (some [0xC3, 0xA9]) 2
        (some none) cf ns := by
  obtain ⟨cf, cfOut, ns, nsOut, hcf, hns, hiff⟩ :=
    bridges_classifiedAlike .leopardPPC (referenceFramework .leopardPPC) (some [0xC3, 0xA9]) 2
      (some none) fun mem hmem => by rw [← Option.some.inj hmem]; exact le_refl 2
  refine ⟨cf, cfOut, ns, nsOut, hcf, hns, hiff.mpr fun _ => ?_⟩
  exact stringOfBytes_ne_none ⟨[0xE9], by decide, by decide⟩ (by decide)

/-- A framework that has run out of memory. -/
def exhaustedFramework : Framework :=
  { referenceFramework .leopardPPC with
    cfStringCreateWithBytes := fun _ _ _ _ => none
    nsStringInitWithBytes := fun _ _ _ => none }

theorem bridges_classifiedAlike_fails :
    leoUTF8CreateCFStringFromBytes .leopardPPC exhaustedFramework (some [0xC3, 0xA9]) 2
        (some none) = .ok (.error, some none) ∧
      leoUTF8CreateNSStringFromBytes .leopardPPC exhaustedFramework (some [0xC3, 0xA9]) 2
        (some none) = .ok (.invalid, some none) ∧
      ¬ ClassifiedAlike .leopardPPC exhaustedFramework (some [0xC3, 0xA9]) 2 (some none)
        .error .invalid := by
  have hvalid : leoUTF8ValidateBytes .leopardPPC (some [0xC3, 0xA9]) 2 = .ok .ok := by
    decide +kernel
  refine ⟨?_, ?_, ?_⟩
  · rw [leoUTF8CreateCFStringFromBytes, hvalid]
    rfl
  · rw [leoUTF8CreateNSStringFromBytes, hvalid]
    rfl
  · intro h
    cases h.alike fun _ => iff_of_true rfl rfl

end LeoUTF8.BridgeStatuses
