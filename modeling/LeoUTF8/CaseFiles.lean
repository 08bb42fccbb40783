import LeoUTF8.ExpectProbe
import LeoUTF8.HexText

set_option autoImplicit false

/-!
# Case files

A case file is in the format when both keys occur and every line with a key goes on in
hexadecimal. The loader sees the lines cut after every 4095 bytes.
-/
namespace LeoUTF8.CaseFiles
open LineCutting HexText ExpectProbe

/-- What stands behind the key in the lines that start with it. -/
def remainders (key : List UInt8) (lines : List (List UInt8)) : List (List UInt8) :=
  (lines.filter (key.isPrefixOf ·)).map (·.drop key.length)

def lines (contents : List UInt8) : List (List UInt8) := contents.splitOn newline

/-- The lines, cut where the buffer of the loader is full. -/
def cutLines (contents : List UInt8) : List (List UInt8) :=
  pieces newline (lineSize - 1) contents

def blanks : List UInt8 := [0x20, 0x09, 0x0D]

/-- Both keys occur, and behind each of their occurrences the line is hexadecimal. -/
structure InFormat (lines : List (List UInt8)) : Prop where
  input : remainders inputKey lines ≠ []
  expected : remainders expectedKey lines ≠ []
  hex : ∀ r ∈ remainders inputKey lines ++ remainders expectedKey lines, IsHex blanks r

/-- The digits of the last line with the key. -/
def lastDigits (key : List UInt8) (lines : List (List UInt8)) : List ℕ :=
  digits ((remainders key lines).getLastD [])

theorem remainders_append (key : List UInt8) (ls ls' : List (List UInt8)) :
    remainders key (ls ++ ls') = remainders key ls ++ remainders key ls' := by
  rw [remainders, List.filter_append, List.map_append, remainders, remainders]

@[simp] theorem remainders_nil (key : List UInt8) : remainders key [] = [] := rfl

theorem remainders_cons_keyed {key l : List UInt8} (h : key <+: l) (ls : List (List UInt8)) :
    remainders key (l :: ls) = l.drop key.length :: remainders key ls := by
  rw [remainders, List.filter_cons_of_pos (by simpa using h), List.map_cons, remainders]

theorem remainders_cons_unkeyed {key l : List UInt8} (h : ¬ key <+: l) (ls : List (List UInt8)) :
    remainders key (l :: ls) = remainders key ls := by
  rw [remainders, List.filter_cons_of_neg (by simpa using h), remainders]

theorem remainders_filter {key : List UInt8} (hkey : key ≠ []) (ls : List (List UInt8)) :
    remainders key (ls.filter (· ≠ [])) = remainders key ls := by
  have hfilter : (ls.filter (· ≠ [])).filter (key.isPrefixOf ·) = ls.filter (key.isPrefixOf ·) := by
    rw [List.filter_filter]
    apply List.filter_congr
    intro l _
    cases l with
    | nil =>
      cases key with
      | nil => exact absurd rfl hkey
      | cons k key => rfl
    | cons b l => simp
  rw [remainders, hfilter, remainders]

def IsKey (key : List UInt8) : Prop := key = inputKey ∨ key = expectedKey

theorem isKey_inputKey : IsKey inputKey := Or.inl rfl

theorem isKey_expectedKey : IsKey expectedKey := Or.inr rfl

theorem IsKey.ne_nil {key : List UInt8} (h : IsKey key) : key ≠ [] := by
  rcases h with rfl | rfl <;> decide

/-- A key fits into the buffer of a line, and no byte of it ends a line. -/
theorem IsKey.plain {key : List UInt8} (h : IsKey key) :
    key.length ≤ lineSize - 1 ∧ 0 ∉ key ∧ newline ∉ key := by
  rcases h with rfl | rfl <;> decide

/-- A line starts with at most one of the keys. -/
theorem keys_disjoint {l : List UInt8} (h : inputKey <+: l) : ¬ expectedKey <+: l := by
  intro h'
  obtain ⟨t, rfl⟩ := h
  obtain ⟨t', heq⟩ := h'
  cases heq

/-- In the format the last line of either kind has its digits in pairs. -/
theorem InFormat.paired {ls : List (List UInt8)} (h : InFormat ls) {key : List UInt8}
    (hkey : IsKey key) : (lastDigits key ls).length % 2 = 0 := by
  have hlast {rs : List (List UInt8)} (hne : rs ≠ []) (hex : ∀ r ∈ rs, IsHex blanks r) :
      (digits (rs.getLastD [])).length % 2 = 0 := by
    rw [List.getLastD_eq_getLast?, List.getLast?_eq_getLast_of_ne_nil hne]
    exact (hex _ (List.getLast_mem hne)).paired
  have hex := List.forall_mem_append.mp h.hex
  rcases hkey with rfl | rfl
  · exact hlast h.input hex.1
  · exact hlast h.expected hex.2

/-- The cuts change neither whether the file is in the format nor the digits of the last line
with a key. -/
structure CutHarmless (contents : List UInt8) : Prop where
  format : InFormat (cutLines contents) ↔ InFormat (lines contents)
  input : InFormat (lines contents) →
    lastDigits inputKey (cutLines contents) = lastDigits inputKey (lines contents)
  expected : InFormat (lines contents) →
    lastDigits expectedKey (cutLines contents) = lastDigits expectedKey (lines contents)

/-- No line is cut that has at most 4095 bytes. -/
theorem cutHarmless_of_short {contents : List UInt8}
    (h : ∀ l ∈ lines contents, l.length ≤ lineSize - 1) : CutHarmless contents := by
  have hcut : cutLines contents = (lines contents).filter (· ≠ []) := pieces_of_fits h
  have hinput : remainders inputKey (cutLines contents) = remainders inputKey (lines contents) := by
    rw [hcut, remainders_filter isKey_inputKey.ne_nil]
  have hexpected : remainders expectedKey (cutLines contents) =
      remainders expectedKey (lines contents) := by
    rw [hcut, remainders_filter isKey_expectedKey.ne_nil]
  constructor
  · constructor
    · exact fun h => ⟨hinput ▸ h.input, hexpected ▸ h.expected, hinput ▸ hexpected ▸ h.hex⟩
    · exact fun h => ⟨hinput ▸ h.input, hexpected ▸ h.expected, hinput ▸ hexpected ▸ h.hex⟩
  · intro _
    rw [lastDigits, hinput, lastDigits]
  · intro _
    rw [lastDigits, hexpected, lastDigits]

/-- No piece behind a cut starts with a key. -/
def KeysLead (contents : List UInt8) : Prop :=
  ∀ l ∈ lines contents, ∀ p ∈ chunks (lineSize - 1) (l.drop (lineSize - 1)),
    ∀ key, IsKey key → ¬ key <+: p

theorem remainders_unkeyed {key : List UInt8} {ls : List (List UInt8)}
    (h : ∀ l ∈ ls, ¬ key <+: l) : remainders key ls = [] := by
  induction ls with
  | nil => rfl
  | cons l ls ih =>
    rw [List.forall_mem_cons] at h
    rw [remainders_cons_unkeyed h.1, ih h.2]

/-- Then the cut shortens what stands behind a key, and does nothing else. -/
theorem remainders_cutLines {contents : List UInt8} (h : KeysLead contents) {key : List UInt8}
    (hkey : IsKey key) :
    remainders key (cutLines contents) =
      (remainders key (lines contents)).map (·.take (lineSize - 1 - key.length)) := by
  rw [cutLines, pieces]
  change remainders key ((lines contents).flatMap _) = _
  rw [KeysLead] at h
  generalize lines contents = ls at h
  induction ls with
  | nil => rfl
  | cons l ls ih =>
    rw [List.forall_mem_cons] at h
    have hbehind : ∀ p ∈ chunks (lineSize - 1) (l.drop (lineSize - 1)), ¬ key <+: p :=
      fun p hp => h.1 p hp key hkey
    rw [List.flatMap_cons, remainders_append, ih h.2]
    by_cases hl : l = []
    · rw [hl, chunks_nil, remainders_nil, List.nil_append,
        remainders_cons_unkeyed (by simpa using hkey.ne_nil)]
    · rw [chunks_of_ne_nil hl (by decide)]
      by_cases hkeyed : key <+: l
      · rw [remainders_cons_keyed (List.prefix_take_iff.mpr ⟨hkeyed, hkey.plain.1⟩),
          remainders_unkeyed hbehind, remainders_cons_keyed hkeyed, List.map_cons,
          List.drop_take, List.singleton_append]
      · rw [remainders_cons_unkeyed (fun hp => hkeyed (List.prefix_take_iff.mp hp).1),
          remainders_unkeyed hbehind, remainders_cons_unkeyed hkeyed, List.nil_append]

theorem lastDigits_cutLines {contents : List UInt8} (h : KeysLead contents) {key : List UInt8}
    (hkey : IsKey key) :
    lastDigits key (cutLines contents) =
      digits (((remainders key (lines contents)).getLastD []).take
        (lineSize - 1 - key.length)) := by
  rw [lastDigits, remainders_cutLines h hkey, List.getLastD_eq_getLast?, List.getLast?_map,
    List.getLastD_eq_getLast?]
  cases (remainders key (lines contents)).getLast? with
  | none => rw [Option.map_none, Option.getD_none, List.take_nil]
  | some r => rfl

/-- No cut parts the two digits of a byte behind the key, and no digit behind its last occurrence
stands behind a cut. -/
structure DigitsUncut (contents key : List UInt8) : Prop where
  paired : ∀ r ∈ remainders key (lines contents),
    (digits (r.take (lineSize - 1 - key.length))).length % 2 = 0
  last : digits (((remainders key (lines contents)).getLastD []).drop
    (lineSize - 1 - key.length)) = []

theorem lastDigits_cutLines_eq {contents : List UInt8} (h : KeysLead contents) {key : List UInt8}
    (hkey : IsKey key) :
    lastDigits key (cutLines contents) = lastDigits key (lines contents) ↔
      digits (((remainders key (lines contents)).getLastD []).drop
        (lineSize - 1 - key.length)) = [] := by
  have hsplit : lastDigits key (lines contents) =
      lastDigits key (cutLines contents) ++
      digits (((remainders key (lines contents)).getLastD []).drop
        (lineSize - 1 - key.length)) := by
    rw [lastDigits_cutLines h hkey, ← digits_append, List.take_append_drop, lastDigits]
  rw [hsplit, eq_comm, List.append_right_eq_self]

theorem inFormat_cutLines {contents : List UInt8} (hformat : InFormat (lines contents))
    (hkeys : KeysLead contents) :
    InFormat (cutLines contents) ↔ ∀ key, IsKey key →
      ∀ r ∈ remainders key (lines contents),
        (digits (r.take (lineSize - 1 - key.length))).length % 2 = 0 := by
  have hinput := remainders_cutLines hkeys isKey_inputKey
  have hexpected := remainders_cutLines hkeys isKey_expectedKey
  have hhex := List.forall_mem_append.mp hformat.hex
  constructor
  · intro h key hkey r hr
    have hcut := h.hex
    rw [hinput, hexpected, List.forall_mem_append] at hcut
    rcases hkey with rfl | rfl
    · exact (hcut.1 _ (List.mem_map_of_mem hr)).paired
    · exact (hcut.2 _ (List.mem_map_of_mem hr)).paired
  · intro h
    constructor
    · rw [hinput]
      exact mt List.map_eq_nil_iff.mp hformat.input
    · rw [hexpected]
      exact mt List.map_eq_nil_iff.mp hformat.expected
    · rw [hinput, hexpected, List.forall_mem_append, List.forall_mem_map, List.forall_mem_map]
      exact ⟨fun r hr => (hhex.1 r hr).take (h _ isKey_inputKey r hr),
        fun r hr => (hhex.2 r hr).take (h _ isKey_expectedKey r hr)⟩

/-- What harm a cut does to a file of the format in which no cut uncovers a key. -/
theorem cutHarmless_iff_digitsUncut {contents : List UInt8} (hformat : InFormat (lines contents))
    (hkeys : KeysLead contents) :
    CutHarmless contents ↔ DigitsUncut contents inputKey ∧ DigitsUncut contents expectedKey := by
  constructor
  · intro h
    have hpaired := (inFormat_cutLines hformat hkeys).mp (h.format.mpr hformat)
    exact ⟨⟨hpaired _ isKey_inputKey,
        (lastDigits_cutLines_eq hkeys isKey_inputKey).mp (h.input hformat)⟩,
      hpaired _ isKey_expectedKey,
        (lastDigits_cutLines_eq hkeys isKey_expectedKey).mp (h.expected hformat)⟩
  · rintro ⟨hinput, hexpected⟩
    have hcut : InFormat (cutLines contents) := by
      apply (inFormat_cutLines hformat hkeys).mpr
      rintro key (rfl | rfl)
      · exact hinput.paired
      · exact hexpected.paired
    constructor
    · exact ⟨fun _ => hformat, fun _ => hcut⟩
    · exact fun _ => (lastDigits_cutLines_eq hkeys isKey_inputKey).mpr hinput.last
    · exact fun _ => (lastDigits_cutLines_eq hkeys isKey_expectedKey).mpr hexpected.last

end LeoUTF8.CaseFiles
