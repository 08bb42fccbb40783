import LeoUTF8.ExpectProbe
import LeoUTF8.HexText

set_option autoImplicit false

/-!
# The hex decoder of the probe

The first loop decides whether a text is hexadecimal and counts its digits. On such a text
the second loop fills the block with the denoted bytes and takes none of its returns.
-/
namespace LeoUTF8.HexParsing
open BoundedLoop CellStorage HeapBlocks HexText ExpectProbe

/-- The characters that the decoder skips. -/
def ignored : List UInt8 := [0x20, 0x09, 0x0D, 0x0A]

theorem isIgnoredHexChar_iff (ch : UInt8) : isIgnoredHexChar ch ↔ ch ∈ ignored := by
  simp [isIgnoredHexChar, ignored]

theorem digit_ignored {ch : UInt8} (h : ch ∈ ignored) : digit ch = none := by
  simp only [ignored, List.mem_cons, List.not_mem_nil, or_false] at h
  rcases h with rfl | rfl | rfl | rfl <;> rfl

theorem digit_ne_zero {ch : UInt8} {d : ℕ} (h : digit ch = some d) : ch ≠ 0 := by
  rintro rfl
  cases h

theorem hexValue_of_some {ch : UInt8} {d : ℕ} (h : digit ch = some d) : hexValue ch = d := by
  unfold digit at h
  unfold hexValue
  split_ifs at h ⊢ with h0 ha hA <;> cases h
  · have hle := UInt8.le_iff_toNat_le.mp h0.1
    simp only [UInt8.reduceToNat] at hle
    omega
  · have hle := UInt8.le_iff_toNat_le.mp ha.1
    simp only [UInt8.reduceToNat] at hle
    omega
  · have hle := UInt8.le_iff_toNat_le.mp hA.1
    simp only [UInt8.reduceToNat] at hle
    omega

theorem hexValue_of_none {ch : UInt8} (h : digit ch = none) : hexValue ch = -1 := by
  unfold digit at h
  unfold hexValue
  split_ifs at h ⊢
  rfl

theorem hexByte_eq {high low : ℕ} (h : low < 16) :
    hexByte high low = UInt8.ofNat (16 * high + low) := by
  rw [hexByte, Int.toNat_natCast, Int.toNat_natCast,
    ← Nat.shiftLeft_add_eq_or_of_lt (show low < 2 ^ 4 by omega), Nat.shiftLeft_eq]
  congr 1
  omega

/-- A text of the decoder's characters that ends at the NUL. -/
structure Readable (text : List UInt8) : Prop where
  alphabet : ∀ ch ∈ text, digit ch ≠ none ∨ ch ∈ ignored
  terminated : 0 ∉ text

theorem Readable.of_suffix {text tail : List UInt8} (h : Readable text) (hs : tail <:+ text) :
    Readable tail :=
  ⟨fun ch hch => h.alphabet ch (hs.subset hch), fun h0 => h.terminated (hs.subset h0)⟩

theorem countDigits_readable {text : List UInt8} (h : Readable text) (behind : List UInt8)
    (n : ℕ) : countDigits (text ++ 0 :: behind) n = .ok (some (n + (digits text).length)) := by
  induction text generalizing n with
  | nil => rfl
  | cons ch text ih =>
    have hne : ch ≠ 0 := fun h0 => h.terminated (by simp [h0])
    have htext := h.of_suffix (List.suffix_cons ch text)
    rw [List.cons_append, countDigits, if_neg hne]
    by_cases hch : ch ∈ ignored
    · rw [if_pos ((isIgnoredHexChar_iff ch).mpr hch), ih htext,
        digits_cons_of_none (digit_ignored hch)]
    · obtain ⟨d, hd⟩ := Option.ne_none_iff_exists'.mp
        ((h.alphabet ch List.mem_cons_self).resolve_right hch)
      rw [if_neg (mt (isIgnoredHexChar_iff ch).mp hch), hexValue_of_some hd, if_neg (by omega),
        ih htext, digits_cons_of_some hd, List.length_cons]
      congr 2
      omega

theorem countDigits_unreadable {text : List UInt8} (hnul : 0 ∉ text)
    (h : ¬ ∀ ch ∈ text, digit ch ≠ none ∨ ch ∈ ignored) (behind : List UInt8) (n : ℕ) :
    countDigits (text ++ 0 :: behind) n = .ok none := by
  induction text generalizing n with
  | nil => simp at h
  | cons ch text ih =>
    rw [List.mem_cons, not_or] at hnul
    rw [List.cons_append, countDigits, if_neg (Ne.symm hnul.1)]
    by_cases hch : ch ∈ ignored
    · rw [if_pos ((isIgnoredHexChar_iff ch).mpr hch)]
      refine ih hnul.2 (fun htext => h ?_) n
      rw [List.forall_mem_cons]
      exact ⟨Or.inr hch, htext⟩
    · rw [if_neg (mt (isIgnoredHexChar_iff ch).mp hch)]
      cases hd : digit ch with
      | none => rw [hexValue_of_none hd, if_pos (by decide)]
      | some d =>
        rw [hexValue_of_some hd, if_neg (by omega)]
        refine ih hnul.2 (fun htext => h ?_) (n + 1)
        rw [List.forall_mem_cons]
        exact ⟨Or.inl (by simp [hd]), htext⟩

/-- Skipping stops at the NUL, or at the next digit. -/
theorem skipIgnored_cases {text : List UInt8} (h : Readable text) (behind : List UInt8) :
    (digits text = [] ∧ skipIgnored (text ++ 0 :: behind) = .ok (0 :: behind)) ∨
    ∃ ch d tail, (ch :: tail) <:+ text ∧ digit ch = some d ∧ digits text = d :: digits tail ∧
      skipIgnored (text ++ 0 :: behind) = .ok (ch :: (tail ++ 0 :: behind)) := by
  induction text with
  | nil => exact Or.inl ⟨rfl, rfl⟩
  | cons ch text ih =>
    have hne : ch ≠ 0 := fun h0 => h.terminated (by simp [h0])
    by_cases hch : ch ∈ ignored
    · have hskip : skipIgnored (ch :: text ++ 0 :: behind) = skipIgnored (text ++ 0 :: behind) := by
        rw [List.cons_append, skipIgnored, if_pos ⟨hne, (isIgnoredHexChar_iff ch).mpr hch⟩]
      rw [hskip, digits_cons_of_none (digit_ignored hch)]
      rcases ih (h.of_suffix (List.suffix_cons ch text)) with hnone | ⟨c, d, tail, hs, hrest⟩
      · exact Or.inl hnone
      · exact Or.inr ⟨c, d, tail, hs.trans (List.suffix_cons ch text), hrest⟩
    · obtain ⟨d, hd⟩ := Option.ne_none_iff_exists'.mp
        ((h.alphabet ch List.mem_cons_self).resolve_right hch)
      refine Or.inr ⟨ch, d, text, List.suffix_rfl, hd, digits_cons_of_some hd text, ?_⟩
      rw [List.cons_append, skipIgnored,
        if_neg (fun hpos => hch ((isIgnoredHexChar_iff ch).mp hpos.2))]

/-- Between two iterations the block starts with the bytes of the text before the cursor. -/
structure Filling (bytes behind : List UInt8) (s : FillState) (text : List UInt8) : Prop where
  cursor : s.cursor = text ++ 0 :: behind
  readable : Readable text
  paired : (digits text).length % 2 = 0
  filled : s.block.take s.index ++ bytesOf (digits text) = bytes
  index : s.index ≤ s.block.length
  room : bytes.length ≤ s.block.length
  fits : s.block.length ≤ max 1 bytes.length

theorem Filling.length {bytes behind : List UInt8} {s : FillState} {text : List UInt8}
    (h : Filling bytes behind s text) :
    s.index + (digits text).length / 2 = bytes.length := by
  rw [← h.filled, List.length_append, List.length_take_of_le h.index, bytesOf_length]

theorem fillBody_end {bytes behind : List UInt8} {s : FillState} {text : List UInt8}
    (h : Filling bytes behind s text) (hdigits : digits text = [])
    (hskip : skipIgnored (text ++ 0 :: behind) = .ok (0 :: behind)) :
    fillBody bytes.length s = .ok (.done (some s.block)) ∧
      s.block.take bytes.length = bytes := by
  have hlen := h.length
  have hfilled := h.filled
  rw [hdigits] at hlen hfilled
  constructor
  · rw [fillBody, h.cursor]
    cases text with
    | nil => rfl
    | cons ch text =>
      have hne : ch ≠ 0 := fun h0 => h.readable.terminated (by simp [h0])
      change (if ch = 0 then _ else _) = _
      rw [if_neg hne, hskip]
      rfl
  · rw [← hlen]
    simpa [bytesOf] using hfilled

theorem fillBody_next {bytes behind : List UInt8} {s : FillState} {text tail tail' : List UInt8}
    {first second : UInt8} {high low : ℕ} (h : Filling bytes behind s text)
    (htail : (first :: tail) <:+ text) (hhigh : digit first = some high)
    (hdigits : digits text = high :: digits tail)
    (hskip : skipIgnored (text ++ 0 :: behind) = .ok (first :: (tail ++ 0 :: behind)))
    (htail' : (second :: tail') <:+ tail) (hlow : digit second = some low)
    (hdigits' : digits tail = low :: digits tail')
    (hskip' : skipIgnored (tail ++ 0 :: behind) = .ok (second :: (tail' ++ 0 :: behind))) :
    ∃ u, fillBody bytes.length s = .ok (.next u) ∧ Filling bytes behind u tail' := by
  have hlen := h.length
  have hpaired := h.paired
  have hfilled := h.filled
  rw [hdigits, hdigits'] at hlen hpaired hfilled
  rw [List.length_cons, List.length_cons] at hlen hpaired
  have hindex : s.index < bytes.length := by omega
  have hroom := h.room
  refine ⟨{ cursor := tail' ++ 0 :: behind, index := s.index + 1
            block := s.block.set s.index (hexByte high low) }, ?_, ?_⟩
  · obtain ⟨ch, rest, htext⟩ : ∃ ch rest, text = ch :: rest := by
      cases text with
      | nil => simp at hdigits
      | cons ch rest => exact ⟨ch, rest, rfl⟩
    have hch : ch ≠ 0 := fun h0 => h.readable.terminated (by simp [htext, h0])
    have hload : load s.cursor 0 = .ok ch := by rw [h.cursor, htext]; rfl
    rw [fillBody, hload, ok_bind, if_neg hch, h.cursor, hskip, ok_bind]
    change (if first = 0 then _ else _) = _
    rw [if_neg (digit_ne_zero hhigh)]
    change (skipIgnored (tail ++ 0 :: behind) >>= _) = _
    rw [hskip', ok_bind]
    change (if second = 0 then _ else _) = _
    rw [if_neg (digit_ne_zero hlow), hexValue_of_some hhigh, hexValue_of_some hlow,
      if_neg (by omega), store, if_pos (by omega), ok_bind]
    rfl
  · constructor
    · rfl
    · exact h.readable.of_suffix ((List.suffix_cons _ _).trans
        (htail'.trans ((List.suffix_cons _ _).trans htail)))
    · omega
    · rw [← hfilled, bytesOf, hexByte_eq (digit_lt hlow)]
      change List.take (s.index + 1) (s.block.set s.index _) ++ _ = _
      rw [List.take_add_one, List.take_set_of_le le_rfl, List.getElem?_set_self (by omega),
        Option.toList_some, List.append_assoc, List.singleton_append]
    · change s.index + 1 ≤ (s.block.set _ _).length
      rw [List.length_set]
      omega
    · change _ ≤ (s.block.set _ _).length
      rw [List.length_set]
      exact hroom
    · change (s.block.set _ _).length ≤ _
      rw [List.length_set]
      exact h.fits

theorem fillBody_progress (bytes behind : List UInt8) :
    Progress (fillBody bytes.length) (fun s => ∃ text, Filling bytes behind s text)
      (fun s => s.cursor.length)
      (fun filled => ∃ block, filled = some block ∧ block.take bytes.length = bytes ∧
        block.length ≤ max 1 bytes.length) := by
  rintro s ⟨text, h⟩
  rcases skipIgnored_cases h.readable behind with
    ⟨hnone, hskip⟩ | ⟨first, high, tail, htail, hhigh, hdigits, hskip⟩
  · obtain ⟨hbody, htake⟩ := fillBody_end h hnone hskip
    exact Or.inr ⟨some s.block, hbody, s.block, rfl, htake, h.fits⟩
  · have hreadable := h.readable.of_suffix ((List.suffix_cons _ _).trans htail)
    rcases skipIgnored_cases hreadable behind with
      ⟨hnone, _⟩ | ⟨second, low, tail', htail', hlow, hdigits', hskip'⟩
    · have hpaired := h.paired
      rw [hdigits, hnone] at hpaired
      simp at hpaired
    · obtain ⟨u, hbody, hu⟩ :=
        fillBody_next h htail hhigh hdigits hskip htail' hlow hdigits' hskip'
      refine Or.inl ⟨u, hbody, ⟨tail', hu⟩, ?_⟩
      have hlt := htail.length_le
      have hlt' := htail'.length_le
      rw [List.length_cons] at hlt hlt'
      dsimp only
      rw [hu.cursor, h.cursor, List.length_append, List.length_append]
      omega

theorem fill_run {text : List UInt8} (h : Readable text) (hpaired : (digits text).length % 2 = 0)
    (behind : List UInt8) {block : List UInt8} (hroom : block.length = max 1 (denoted text).length)
    {bound : ℕ} (hbound : (text ++ 0 :: behind).length < bound) :
    ∃ filled, run (fillBody (denoted text).length) bound
        { cursor := text ++ 0 :: behind, index := 0, block := block } = .ok (some filled) ∧
      filled.take (denoted text).length = denoted text ∧
      filled.length ≤ max 1 (denoted text).length := by
  have hentry : Filling (denoted text) behind
      { cursor := text ++ 0 :: behind, index := 0, block := block } text :=
    ⟨rfl, h, hpaired, by simp [denoted], Nat.zero_le _, by dsimp only; omega, hroom.le⟩
  obtain ⟨_, hrun, filled, rfl, hfilled⟩ :=
    run_total (fillBody_progress (denoted text) behind) bound _ ⟨text, hentry⟩ hbound
  exact ⟨filled, hrun, hfilled⟩

/-- Every text that is not hexadecimal is rejected, and nothing is allocated for it. -/
theorem parseHexBytes_rejects (alloc : Allocator) (heap : Heap) {text : List UInt8}
    (hnul : 0 ∉ text) (h : ¬ IsHex ignored text) (behind : List UInt8) (buffer : HexBuffer) :
    parseHexBytes alloc heap (some (text ++ 0 :: behind)) (some buffer) =
      .ok (-1, some emptyBuffer, heap) := by
  rw [parseHexBytes]
  by_cases halphabet : ∀ ch ∈ text, digit ch ≠ none ∨ ch ∈ ignored
  · have hodd : (digits text).length % 2 ≠ 0 := fun hpaired => h ⟨halphabet, hpaired⟩
    rw [countDigits_readable ⟨halphabet, hnul⟩, ok_bind, Nat.zero_add]
    dsimp only
    rw [if_pos hodd]
  · rw [countDigits_unreadable hnul halphabet, ok_bind]

section Accepts

variable (alloc : Allocator) {heap : Heap} {text : List UInt8} (hnul : 0 ∉ text)
  (h : IsHex ignored text) (behind : List UInt8) (buffer : HexBuffer)
include hnul h

/-- A hexadecimal text is allocated what it denotes, and at least one byte. -/
theorem parseHexBytes_isHex :
    ∃ block, block.take (denoted text).length = denoted text ∧
      block.length ≤ max 1 (denoted text).length ∧
      parseHexBytes alloc heap (some (text ++ 0 :: behind)) (some buffer) =
        (alloc.malloc heap (max 1 (denoted text).length)).elim
          (.ok (-1, some { bytes := none, length := (denoted text).length }, heap)) fun a =>
          .ok (0, some { bytes := some a, length := (denoted text).length }, heap.put a block) := by
  have hreadable : Readable text := ⟨h.alphabet, hnul⟩
  have hlen : (digits text).length / 2 = (denoted text).length := (bytesOf_length _).symm
  have hsize : (if (denoted text).length = 0 then 1 else (denoted text).length) =
      max 1 (denoted text).length := by
    split_ifs <;> omega
  obtain ⟨block, hrun, htake, hfits⟩ := fill_run hreadable h.paired behind
    (alloc.fresh_length (max 1 (denoted text).length)) (Nat.lt_succ_self _)
  refine ⟨block, htake, hfits, ?_⟩
  rw [parseHexBytes, countDigits_readable hreadable, ok_bind, Nat.zero_add]
  dsimp only
  rw [if_neg (not_not_intro h.paired), hlen, hsize]
  cases alloc.malloc heap (max 1 (denoted text).length) with
  | none => rfl
  | some a =>
    dsimp only
    rw [hrun, ok_bind]
    rfl

theorem parseHexBytes_accepts
    (supplied : alloc.malloc heap (max 1 (denoted text).length) ≠ none) :
    ∃ a block, heap a = none ∧ block.take (denoted text).length = denoted text ∧
      block.length ≤ max 1 (denoted text).length ∧
      parseHexBytes alloc heap (some (text ++ 0 :: behind)) (some buffer) =
        .ok (0, some { bytes := some a, length := (denoted text).length }, heap.put a block) := by
  obtain ⟨a, hmalloc⟩ := Option.ne_none_iff_exists'.mp supplied
  obtain ⟨block, htake, hfits, hparse⟩ := @parseHexBytes_isHex alloc heap _ hnul h behind buffer
  rw [hmalloc] at hparse
  exact ⟨a, block, alloc.malloc_fresh _ _ _ hmalloc, htake, hfits, hparse⟩

end Accepts

end LeoUTF8.HexParsing
