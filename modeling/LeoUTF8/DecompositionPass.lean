import LeoUTF8.DecompositionCorrectness

set_option autoImplicit false

/-!
# One pass of utf8proc_decompose_custom

The input loop, with or without a buffer, and the reordering loop.
-/
namespace LeoUTF8.DecompositionPass
open BoundedLoop CellStorage ScalarEncoding EngineTables EngineCodec EngineDecompose
open RecursiveExpansion RunSorting CodecCorrectness CodePointMapping DecompositionCorrectness

/-- How the input loop ends: the running count passes the limit, or the input turns out to be
malformed, or everything has been converted. -/
def ScanOutcome (pf : Platform) (t : Utf8procData) (T : Transform) (l : List UInt8)
    (base : Option ℕ) (cap : ℕ) (s : DecomposeState) (r : ScanResult) : Prop :=
  if pf.codepointMax < (expansions t T (decode l).1).length then
    ∃ buffer, r = .failed utf8procErrorOverflow buffer
  else if (decode l).2 = [] then
    r = .finished (expansions t T (decode l).1).length
      (written base cap (int32s (expansions t T (decode l).1)) s).buffer
  else ∃ buffer, r = .failed utf8procErrorInvalidutf8 buffer

/-- The code points `cs` have been read from `p` bytes and expanded. -/
structure Scanned (pf : Platform) (t : Utf8procData) (T : Transform) (l : List UInt8)
    (base : Option ℕ) (cap : ℕ) (s : DecomposeState) (p : ℕ) (cs : List ℕ) (u : ScanState) :
    Prop where
  rpos : u.rpos = p
  wpos : u.wpos = (expansions t T cs).length
  decomposed : u.decomposed = written base cap (int32s (expansions t T cs)) s
  inside : p ≤ l.length
  count : (expansions t T cs).length ≤ pf.codepointMax
  codes : (decode l).1 = cs ++ (decode (l.drop p)).1
  rest : (decode l).2 = (decode (l.drop p)).2
  expandable : ∀ c ∈ cs, Expandable t T c

section Scan

variable {pf : Platform} {t : Utf8procData} {T : Transform} {mem : List UInt8} {length : ℕ}
  {base : Option ℕ} {cap : ℕ} {s : DecomposeState} {u : ScanState} {p : ℕ} {cs : List ℕ}

theorem scanned_entry :
    Scanned pf t T (mem.take length) base cap s 0 [] { rpos := 0, wpos := 0, decomposed := s } :=
  ⟨rfl, rfl, (written_nil base cap s).symm, Nat.zero_le _, Nat.zero_le _, rfl, rfl, by simp⟩

theorem scanned_codes_end (hlen : length ≤ mem.length)
    (hu : Scanned pf t T (mem.take length) base cap s p cs u) (hp : p = length) :
    (decode (mem.take length)).1 = cs ∧ (decode (mem.take length)).2 = [] := by
  have htake := List.length_take_of_le hlen
  have hdrop : (mem.take length).drop p = [] := List.drop_of_length_le (by omega)
  have hcodes := hu.codes
  have hrest := hu.rest
  rw [hdrop, decode_nil] at hcodes hrest
  exact ⟨by rw [hcodes, List.append_nil], hrest⟩

theorem scanBody_end (hlen : length ≤ mem.length)
    (hu : Scanned pf t T (mem.take length) base cap s p cs u) (hp : p = length) :
    ∃ r, scanBody pf t mem length base cap T.options none u = .ok (.done r) ∧
      ScanOutcome pf t T (mem.take length) base cap s r := by
  have hnull := T.hasOption_inactive utf8procNullterm (by simp)
  obtain ⟨hcodes, hrest⟩ := scanned_codes_end hlen hu hp
  refine ⟨.finished u.wpos u.decomposed.buffer, ?_, ?_⟩
  · rw [scanBody, hnull]
    simp only [Bool.false_eq_true, if_false]
    rw [if_pos (by rw [hu.rpos, hp])]
  · have hcount := hu.count
    rw [ScanOutcome, hcodes, if_neg (by omega), if_pos hrest, hu.wpos, hu.decomposed]

theorem scanBody_malformed_eq (hlen : length ≤ mem.length)
    (hu : Scanned pf t T (mem.take length) base cap s p cs u) (hp : p < length)
    (hd : decodeHead ((mem.take length).drop p) = none) :
    scanBody pf t mem length base cap T.options none u =
      .ok (.done (.failed utf8procErrorInvalidutf8 u.decomposed.buffer)) := by
  have hnull := T.hasOption_inactive utf8procNullterm (by simp)
  rw [scanBody, hnull]
  simp only [Bool.false_eq_true, if_false, hu.rpos, Int.toNat_natCast]
  rw [if_neg (by omega), utf8procIterate_remaining hlen hp, hd]
  rfl

theorem scanOutcome_malformed (hlen : length ≤ mem.length)
    (hu : Scanned pf t T (mem.take length) base cap s p cs u) (hp : p < length)
    (hd : decodeHead ((mem.take length).drop p) = none) :
    ScanOutcome pf t T (mem.take length) base cap s
      (.failed utf8procErrorInvalidutf8 u.decomposed.buffer) := by
  have htake := List.length_take_of_le hlen
  have hcodes := hu.codes
  have hrest := hu.rest
  have hcount := hu.count
  rw [decode_of_none hd] at hcodes hrest
  rw [List.append_nil] at hcodes
  have hne : (mem.take length).drop p ≠ [] := by
    intro h
    have := List.drop_eq_nil_iff.mp h
    omega
  rw [ScanOutcome, hcodes, if_neg (by omega), hrest, if_neg hne]
  exact ⟨_, rfl⟩

theorem scanBody_eq (hlen : length ≤ mem.length) (room : Room base cap s.buffer)
    (hu : Scanned pf t T (mem.take length) base cap s p cs u) (hp : p < length) {c n : ℕ}
    (hd : decodeHead ((mem.take length).drop p) = some (c, n)) :
    scanBody pf t mem length base cap T.options none u =
      if Expandable t T c then
        if pf.codepointMax < (expansions t T (cs ++ [c])).length then
          .ok (.done (.failed utf8procErrorOverflow
            (written base cap (int32s (expansions t T (cs ++ [c]))) s).buffer))
        else .ok (.next
          { rpos := (p : ℤ) + n
            wpos := (expansions t T (cs ++ [c])).length
            decomposed := written base cap (int32s (expansions t T (cs ++ [c]))) s })
      else .error .bound := by
  have hnull := T.hasOption_inactive utf8procNullterm (by simp)
  have hc := (encode_of_decodeHead hd).1.lt
  have happend : expansions t T (cs ++ [c]) = expansions t T cs ++ expansion t T c := by
    rw [expansions_append, expansions_cons, expansions_nil, List.append_nil]
  have hcap : (if (cap : ℤ) > (expansions t T cs).length then
      (cap : ℤ) - (expansions t T cs).length else 0) =
        ((cap - (int32s (expansions t T cs)).length : ℕ) : ℤ) := by
    rw [int32s_length]
    split_ifs <;> omega
  have hwrites := utf8procDecomposeChar_writes t T 0x110000 hc
    (base.map (· + (int32s (expansions t T cs)).length))
    (cap - (int32s (expansions t T cs)).length) _
    (room_advance (room_written room (int32s (expansions t T cs))) _)
  rw [scanBody, hnull]
  simp only [Bool.false_eq_true, if_false, hu.rpos, hu.wpos, hu.decomposed, Int.toNat_natCast]
  rw [if_neg (by omega), utf8procIterate_remaining hlen hp, hd]
  simp only [iterateResult, ok_bind, hcap, decomposeDepth]
  rw [if_neg (by omega), ← int32s_length (expansions t T cs), hwrites]
  by_cases hexp : Expandable t T c
  · have hlength : ((int32s (expansions t T cs)).length : ℤ) + (expansion t T c).length =
        (expansions t T (cs ++ [c])).length := by
      rw [happend, int32s_length, List.length_append]
      push_cast
      rfl
    rw [if_pos hexp, expandWithin_of_expandable hexp]
    simp only [writeResult, written_written room, ← int32s_append, ok_bind, hlength, ← happend]
    rw [if_neg (by omega)]
    by_cases hover : pf.codepointMax < (expansions t T (cs ++ [c])).length
    · rw [if_pos hover, if_pos (Or.inr (by omega))]
    · rw [if_neg hover, if_neg (by omega)]
  · rw [if_neg hexp, Option.not_isSome_iff_eq_none.mp hexp]
    rfl

theorem scanned_next (hlen : length ≤ mem.length)
    (hu : Scanned pf t T (mem.take length) base cap s p cs u) {c n : ℕ}
    (hd : decodeHead ((mem.take length).drop p) = some (c, n)) (hexp : Expandable t T c)
    (hover : (expansions t T (cs ++ [c])).length ≤ pf.codepointMax) :
    Scanned pf t T (mem.take length) base cap s (p + n) (cs ++ [c])
      { rpos := (p : ℤ) + n
        wpos := (expansions t T (cs ++ [c])).length
        decomposed := written base cap (int32s (expansions t T (cs ++ [c]))) s } := by
  have htake := List.length_take_of_le hlen
  have hn := (decodeHead_bounds hd).2
  have hinside := hu.inside
  rw [List.length_drop] at hn
  refine ⟨rfl, rfl, rfl, by omega, hover, ?_, ?_, ?_⟩
  · rw [hu.codes, decode_of_some hd, List.append_assoc, List.drop_drop]
    rfl
  · rw [hu.rest, decode_of_some hd, List.drop_drop]
  · intro d hd
    rcases List.mem_append.mp hd with hd | hd
    · exact hu.expandable d hd
    · exact List.mem_singleton.mp hd ▸ hexp

theorem scanOutcome_overflow (hu : Scanned pf t T (mem.take length) base cap s p cs u) {c n : ℕ}
    (hd : decodeHead ((mem.take length).drop p) = some (c, n))
    (hover : pf.codepointMax < (expansions t T (cs ++ [c])).length) (buffer : List ℤ) :
    ScanOutcome pf t T (mem.take length) base cap s (.failed utf8procErrorOverflow buffer) := by
  rw [ScanOutcome, if_pos]
  · exact ⟨_, rfl⟩
  · have hcodes : (decode (mem.take length)).1 =
        (cs ++ [c]) ++ (decode (((mem.take length).drop p).drop n)).1 := by
      rw [hu.codes, decode_of_some hd, List.append_assoc]
      rfl
    rw [hcodes, expansions_append, List.length_append]
    omega

theorem scanBody_progress (hlen : length ≤ mem.length) (room : Room base cap s.buffer)
    (expandable : ∀ c ∈ (decode (mem.take length)).1, Expandable t T c) :
    Progress (scanBody pf t mem length base cap T.options none)
      (fun u => ∃ p cs, Scanned pf t T (mem.take length) base cap s p cs u)
      (fun u => length - u.rpos.toNat) (ScanOutcome pf t T (mem.take length) base cap s) := by
  rintro u ⟨p, cs, hu⟩
  have htake := List.length_take_of_le hlen
  have hinside := hu.inside
  by_cases hp : p = length
  · exact Or.inr (scanBody_end hlen hu hp)
  have hlt : p < length := by omega
  cases hd : decodeHead ((mem.take length).drop p) with
  | none =>
    exact Or.inr ⟨_, scanBody_malformed_eq hlen hu hlt hd, scanOutcome_malformed hlen hu hlt hd⟩
  | some r =>
    obtain ⟨c, n⟩ := r
    have hexp : Expandable t T c := expandable c (by
      rw [hu.codes, decode_of_some hd]
      simp)
    rw [scanBody_eq hlen room hu hlt hd, if_pos hexp]
    by_cases hover : pf.codepointMax < (expansions t T (cs ++ [c])).length
    · exact Or.inr ⟨_, if_pos hover, scanOutcome_overflow hu hd hover _⟩
    · have hnext := scanned_next hlen hu hd hexp (by omega)
      refine Or.inl ⟨_, if_neg hover, ⟨_, _, hnext⟩, ?_⟩
      have hn := (decodeHead_bounds hd).1
      have hrpos : u.rpos = p := hu.rpos
      simp only [hrpos]
      omega

theorem scan_outcome (hlen : length ≤ mem.length) (room : Room base cap s.buffer)
    (expandable : ∀ c ∈ (decode (mem.take length)).1, Expandable t T c) :
    ∃ r, run (scanBody pf t mem length base cap T.options none) (mem.length + 1)
        { rpos := 0, wpos := 0, decomposed := s } = .ok r ∧
      ScanOutcome pf t T (mem.take length) base cap s r := by
  apply run_total (scanBody_progress hlen room expandable) _ _ ⟨0, [], scanned_entry⟩
  change length - 0 < mem.length + 1
  omega

theorem scanned_step (hlen : length ≤ mem.length) (room : Room base cap s.buffer) {v : ScanState}
    (hu : ∃ p cs, Scanned pf t T (mem.take length) base cap s p cs u)
    (hv : scanBody pf t mem length base cap T.options none u = .ok (.next v)) :
    ∃ p cs, Scanned pf t T (mem.take length) base cap s p cs v := by
  have htake := List.length_take_of_le hlen
  obtain ⟨p, cs, hu⟩ := hu
  have hinside := hu.inside
  by_cases hp : p = length
  · obtain ⟨r, hr, _⟩ := scanBody_end hlen hu hp
    rw [hr] at hv
    cases hv
  cases hd : decodeHead ((mem.take length).drop p) with
  | none =>
    rw [scanBody_malformed_eq hlen hu (by omega) hd] at hv
    cases hv
  | some r =>
    obtain ⟨c, n⟩ := r
    rw [scanBody_eq hlen room hu (by omega) hd] at hv
    split_ifs at hv with hexp hover
    · cases hv
    · cases hv
      exact ⟨_, _, scanned_next hlen hu hd hexp (by omega)⟩

/-- A scan that ends without an error code has expanded every code point of its input. -/
theorem expandable_of_scan (hlen : length ≤ mem.length) (room : Room base cap s.buffer)
    {fuel : ℕ} {r : ScanResult}
    (h : run (scanBody pf t mem length base cap T.options none) fuel
      { rpos := 0, wpos := 0, decomposed := s } = .ok r) :
    (∀ c ∈ (decode (mem.take length)).1, Expandable t T c) ∨
      ∃ code buffer, r = .failed code buffer ∧ code < 0 := by
  have htake := List.length_take_of_le hlen
  obtain ⟨u, ⟨p, cs, hu⟩, hdone⟩ :=
    run_leaves (fun _ _ hu hv => scanned_step hlen room hu hv) ⟨0, [], scanned_entry⟩ h
  have hinside := hu.inside
  by_cases hp : p = length
  · left
    rw [(scanned_codes_end hlen hu hp).1]
    exact hu.expandable
  right
  cases hd : decodeHead ((mem.take length).drop p) with
  | none =>
    rw [scanBody_malformed_eq hlen hu (by omega) hd] at hdone
    cases hdone
    exact ⟨_, _, rfl, by decide⟩
  | some r =>
    rw [scanBody_eq hlen room hu (by omega) hd] at hdone
    split_ifs at hdone
    · cases hdone
      exact ⟨_, _, rfl, by decide⟩
    · cases hdone

end Scan

section Reorder

variable (t : Utf8procData) (tail : List ℤ)

/-- The first `n` cells as code points. -/
def codesOf (n : ℕ) (buffer : List ℤ) : List ℕ := (buffer.take n).map Int.toNat

theorem codesOf_append (l : List ℕ) : codesOf l.length (int32s l ++ tail) = l := by
  have htake : (int32s l ++ tail).take l.length = int32s l := by
    rw [← int32s_length l, List.take_left]
  rw [codesOf, htake, int32s, List.map_map]
  exact List.map_id l

theorem reorderBody_neighbours (pre post : List ℕ) {a b : ℕ} (ha : a < 0x110000)
    (hb : b < 0x110000) :
    reorderBody t ((pre ++ a :: b :: post).length : ℤ)
        { pos := pre.length, buffer := int32s (pre ++ a :: b :: post) ++ tail } =
      .ok (.next (if Inverted (combiningClass t) a b then
        { pos := if pre.length > 0 then pre.length - 1 else pre.length + 1
          buffer := int32s (pre ++ b :: a :: post) ++ tail }
      else
        { pos := pre.length + 1, buffer := int32s (pre ++ a :: b :: post) ++ tail })) := by
  have hsplit (x y : ℕ) : int32s (pre ++ x :: y :: post) ++ tail =
      int32s pre ++ (x : ℤ) :: (y : ℤ) :: (int32s post ++ tail) := by
    simp
  have hload : load (int32s pre ++ (a : ℤ) :: (b : ℤ) :: (int32s post ++ tail)) pre.length =
      .ok (a : ℤ) := by
    have h := load_append_left (int32s pre) ((b : ℤ) :: (int32s post ++ tail)) (a : ℤ)
    rwa [int32s_length] at h
  have hload' : load (int32s pre ++ (a : ℤ) :: (b : ℤ) :: (int32s post ++ tail))
      (pre.length + 1) = .ok (b : ℤ) := by
    have h := load_append_left (int32s pre ++ [(a : ℤ)]) (int32s post ++ tail) (b : ℤ)
    rwa [List.length_append, int32s_length, List.append_assoc] at h
  have hstore : store (int32s pre ++ (a : ℤ) :: (b : ℤ) :: (int32s post ++ tail)) pre.length
      (b : ℤ) = .ok (int32s pre ++ (b : ℤ) :: (b : ℤ) :: (int32s post ++ tail)) := by
    have h := store_append (int32s pre) ((b : ℤ) :: (int32s post ++ tail)) (a : ℤ) (b : ℤ)
    rwa [int32s_length] at h
  have hstore' : store (int32s pre ++ (b : ℤ) :: (b : ℤ) :: (int32s post ++ tail))
      (pre.length + 1) (a : ℤ) =
        .ok (int32s pre ++ (b : ℤ) :: (a : ℤ) :: (int32s post ++ tail)) := by
    have h := store_append (int32s pre ++ [(b : ℤ)]) (int32s post ++ tail) (b : ℤ) (a : ℤ)
    rwa [List.length_append, int32s_length, List.append_assoc, List.append_assoc] at h
  have hlt : (pre.length : ℤ) < ((pre ++ a :: b :: post).length : ℤ) - 1 := by
    simp only [List.length_append, List.length_cons]
    push_cast
    omega
  rw [reorderBody, hsplit, hsplit]
  simp only
  rw [if_pos hlt, hload, ok_bind, if_neg (Int.natCast_nonneg a).not_gt, hload', ok_bind,
    if_neg (Int.natCast_nonneg b).not_gt, unsafeGetProperty_natCast t ha, ok_bind,
    unsafeGetProperty_natCast t hb, ok_bind]
  by_cases h : Inverted (combiningClass t) a b
  · rw [if_pos ⟨h.2, h.1⟩, if_pos h, hstore, ok_bind, hstore', ok_bind]
  · rw [if_neg fun hc => h ⟨hc.2, hc.1⟩, if_neg h]

/-- The buffer holds a reordering of `l` whose first `pos + 1` code points are in order. -/
structure Reordering (l : List ℕ) (s : ReorderState) (m : List ℕ) : Prop where
  buffer : s.buffer = int32s m ++ tail
  length : m.length = l.length
  codes : ∀ c ∈ m, c < 0x110000
  sorted : sortRuns (combiningClass t) m = sortRuns (combiningClass t) l
  settled : Settled (combiningClass t) (m.take (s.pos + 1))

theorem reorderBody_end {l m : List ℕ} {s : ReorderState} (hs : Reordering t tail l s m)
    (hend : l.length ≤ s.pos + 1) :
    reorderBody t l.length s = .ok (.done (int32s (sortRuns (combiningClass t) l) ++ tail)) := by
  have hsettled := hs.settled
  rw [List.take_of_length_le (by rw [hs.length]; exact hend)] at hsettled
  rw [reorderBody, if_neg (by omega), hs.buffer, ← hs.sorted,
    sortRuns_of_settled (combiningClass t) hsettled]

theorem settled_take_succ {m pre post : List ℕ} {a b : ℕ} (hm : m = pre ++ a :: b :: post)
    (hpre : Settled (combiningClass t) (m.take (pre.length + 1)))
    (hab : ¬ Inverted (combiningClass t) a b) :
    Settled (combiningClass t) (m.take (pre.length + 1 + 1)) := by
  have h1 : m.take (pre.length + 1) = pre ++ [a] := by
    rw [hm, List.take_length_add_append]
    rfl
  have h2 : m.take (pre.length + 1 + 1) = pre ++ [a] ++ [b] := by
    rw [hm, Nat.add_assoc, List.take_length_add_append, List.append_assoc]
    rfl
  rw [h1] at hpre
  rw [h2]
  apply List.IsChain.append hpre (List.isChain_singleton b)
  intro x hx y hy
  obtain rfl : a = x := by simpa using hx
  obtain rfl : b = y := by simpa using hy
  exact hab

theorem reorderBody_next {l m : List ℕ} {s : ReorderState} (hs : Reordering t tail l s m)
    (hlt : s.pos + 1 < l.length) :
    ∃ u m', reorderBody t l.length s = .ok (.next u) ∧ Reordering t tail l u m' ∧
      2 * inversions (combiningClass t) m' + (l.length - u.pos) <
        2 * inversions (combiningClass t) m + (l.length - s.pos) := by
  obtain ⟨pos, buffer⟩ := s
  have hlength := hs.length
  have hlt' : pos + 1 < m.length := by
    change pos + 1 < l.length at hlt
    omega
  obtain ⟨pre, a, b, post, rfl, rfl⟩ : ∃ pre a b post, m = pre ++ a :: b :: post ∧
      pos = pre.length := by
    refine ⟨m.take pos, m[pos], m[pos + 1], m.drop (pos + 1 + 1), ?_, ?_⟩
    · rw [List.cons_getElem_drop_succ, List.cons_getElem_drop_succ, List.take_append_drop]
    · rw [List.length_take]
      omega
  have ha := hs.codes a (by simp)
  have hb := hs.codes b (by simp)
  have hbody := reorderBody_neighbours t tail pre post ha hb
  rw [hlength, ← hs.buffer] at hbody
  have hlen : pre.length + 2 + post.length = l.length := by
    rw [← hlength]
    simp only [List.length_append, List.length_cons]
    omega
  by_cases h : Inverted (combiningClass t) a b
  · rw [if_pos h] at hbody
    have hinv := inversions_exchange (combiningClass t) h pre post
    refine ⟨_, pre ++ b :: a :: post, hbody, ⟨rfl, ?_, ?_, ?_, ?_⟩, ?_⟩
    · rw [← hlength]
      simp
    · intro c hc
      exact hs.codes c (by
        simp only [List.mem_append, List.mem_cons] at hc ⊢
        tauto)
    · rw [sortRuns_exchange (combiningClass t) h, hs.sorted]
    · -- the prefix before the exchanged pair was in order already
      have hsettled := hs.settled
      by_cases hpos : pre.length > 0
      · have htake : (pre ++ b :: a :: post).take (pre.length - 1 + 1) =
            ((pre ++ a :: b :: post).take (pre.length + 1)).take pre.length := by
          rw [List.take_take, Nat.min_eq_left (by omega), Nat.sub_add_cancel hpos, List.take_left,
            List.take_left]
        simp only [hpos, if_true]
        rw [htake]
        exact hsettled.take _
      · obtain rfl : pre = [] := List.length_eq_zero_iff.mp (by omega)
        refine List.isChain_cons_cons.mpr ⟨?_, List.isChain_singleton a⟩
        unfold Inverted at *
        omega
    · change 2 * _ + (l.length - if pre.length > 0 then _ else _) < 2 * _ + (l.length - pre.length)
      split_ifs <;> omega
  · rw [if_neg h] at hbody
    refine ⟨_, pre ++ a :: b :: post, hbody, ⟨hs.buffer, hlength, hs.codes, hs.sorted, ?_⟩, ?_⟩
    · exact settled_take_succ t rfl hs.settled h
    · change 2 * _ + (l.length - (pre.length + 1)) < 2 * _ + (l.length - pre.length)
      omega

theorem reorderBody_progress (l : List ℕ) :
    Progress (reorderBody t l.length) (fun s => ∃ m, Reordering t tail l s m)
      (fun s => 2 * inversions (combiningClass t) (codesOf l.length s.buffer) + (l.length - s.pos))
      (· = int32s (sortRuns (combiningClass t) l) ++ tail) := by
  rintro s ⟨m, hs⟩
  have hcodes {u : ReorderState} {m' : List ℕ} (hu : Reordering t tail l u m') :
      codesOf l.length u.buffer = m' := by
    rw [hu.buffer, ← hu.length, codesOf_append]
  by_cases hend : l.length ≤ s.pos + 1
  · exact Or.inr ⟨_, reorderBody_end t tail hs hend, rfl⟩
  · obtain ⟨u, m', hu, hI, hlt⟩ := reorderBody_next t tail hs (by omega)
    refine Or.inl ⟨u, hu, ⟨m', hI⟩, ?_⟩
    simp only [hcodes hI, hcodes hs]
    exact hlt

/-- The reordering loop ends within its bound, with every run sorted stably. -/
theorem reorder_sorts {l : List ℕ} (hl : ∀ c ∈ l, c < 0x110000) :
    run (reorderBody t l.length) (reorderBound l.length) { pos := 0, buffer := int32s l ++ tail } =
      .ok (int32s (sortRuns (combiningClass t) l) ++ tail) := by
  refine run_eq (reorderBody_progress t tail l) ⟨l, rfl, rfl, hl, rfl, ?_⟩ ?_
  · cases l with
    | nil => exact List.isChain_nil
    | cons a l => exact List.isChain_singleton a
  · have h := inversions_le (combiningClass t) l
    simp only [codesOf_append, reorderBound]
    omega

end Reorder

/-- What a pass leaves in the buffer: reordered if the transform is canonical. -/
def decomposition (t : Utf8procData) (T : Transform) (cs : List ℕ) : List ℕ :=
  if T.canonical then sortRuns (combiningClass t) (expansions t T cs) else expansions t T cs

theorem decomposition_length (t : Utf8procData) (T : Transform) (cs : List ℕ) :
    (decomposition t T cs).length = (expansions t T cs).length := by
  unfold decomposition
  split_ifs
  · exact sortRuns_length _ _
  · rfl

theorem decomposition_codes {t : Utf8procData} {T : Transform} {cs : List ℕ} {p : ℕ → Prop}
    (h : ∀ c ∈ expansions t T cs, p c) : ∀ c ∈ decomposition t T cs, p c := by
  intro c hc
  unfold decomposition at hc
  split_ifs at hc
  · exact h c ((mem_sortRuns _).mp hc)
  · exact h c hc

/-- What one pass returns and leaves in its buffer, for the code points of the input. -/
def PassOutcome (pf : Platform) (t : Utf8procData) (T : Transform) (l : List UInt8)
    (cells : List ℤ) (cap : ℕ) (r : ℤ × List ℤ) : Prop :=
  if pf.codepointMax < (expansions t T (decode l).1).length then r.1 = utf8procErrorOverflow
  else if (decode l).2 = [] then
    r.1 = (expansions t T (decode l).1).length ∧
      ((expansions t T (decode l).1).length ≤ cap →
        r.2 = int32s (decomposition t T (decode l).1) ++
          cells.drop (expansions t T (decode l).1).length)
  else r.1 = utf8procErrorInvalidutf8

theorem utf8procDecomposeCustom_finished {pf : Platform} {t : Utf8procData} {T : Transform}
    {mem : List UInt8} {length cap : ℕ} {buffer : Option (List ℤ)} {codes : List ℕ}
    {cells : List ℤ} (hcodes : ∀ c ∈ codes, c < 0x110000)
    (hscan : run (scanBody pf t mem length (buffer.map fun _ => 0) cap T.options none)
        (mem.length + 1) { rpos := 0, wpos := 0, decomposed :=
          { buffer := buffer.getD [], lastBoundclass := EngineGraphemes.boundclassStart } } =
      .ok (.finished codes.length cells))
    (hcells : codes.length ≤ cap → cells = int32s codes ++ (buffer.getD []).drop codes.length) :
    ∃ result, utf8procDecomposeCustom pf t mem length buffer cap T.options none =
        .ok (codes.length, result) ∧
      (codes.length ≤ cap → result =
        int32s (if T.canonical then sortRuns (combiningClass t) codes else codes) ++
          (buffer.getD []).drop codes.length) := by
  have hstrip := T.hasOption_inactive utf8procStripmark (by simp)
  have hopts : ¬ ((T == .nfc) = true ∧ (T == .nfd) = true) := by cases T <;> decide
  rw [utf8procDecomposeCustom]
  simp only [T.hasOption_compose, T.hasOption_decompose, hstrip, T.hasOption_canonical,
    Bool.false_eq_true, false_and, if_false]
  rw [if_neg hopts, hscan, ok_bind]
  cases hcan : T.canonical with
  | false => exact ⟨cells, rfl, hcells⟩
  | true =>
    by_cases hcap : codes.length ≤ cap
    · refine ⟨_, ?_, fun _ => rfl⟩
      simp only [true_and, if_true]
      rw [if_pos (by omega), hcells hcap, Int.toNat_natCast, reorder_sorts t _ hcodes]
      rfl
    · refine ⟨cells, ?_, fun h => absurd h hcap⟩
      simp only [true_and]
      rw [if_neg (by omega)]

theorem utf8procDecomposeCustom_failed {pf : Platform} {t : Utf8procData} {T : Transform}
    {mem : List UInt8} {length cap : ℕ} {buffer : Option (List ℤ)} {code : ℤ} {cells : List ℤ}
    (hscan : run (scanBody pf t mem length (buffer.map fun _ => 0) cap T.options none)
        (mem.length + 1) { rpos := 0, wpos := 0, decomposed :=
          { buffer := buffer.getD [], lastBoundclass := EngineGraphemes.boundclassStart } } =
      .ok (.failed code cells)) :
    utf8procDecomposeCustom pf t mem length buffer cap T.options none = .ok (code, cells) := by
  have hstrip := T.hasOption_inactive utf8procStripmark (by simp)
  have hopts : ¬ ((T == .nfc) = true ∧ (T == .nfd) = true) := by cases T <;> decide
  rw [utf8procDecomposeCustom]
  simp only [T.hasOption_compose, T.hasOption_decompose, hstrip, Bool.false_eq_true, false_and,
    if_false]
  rw [if_neg hopts, hscan, ok_bind]

theorem utf8procDecomposeCustom_outcome {pf : Platform} {t : Utf8procData} {T : Transform}
    {mem : List UInt8} {length cap : ℕ} {buffer : Option (List ℤ)} (hlen : length ≤ mem.length)
    (room : Room (buffer.map fun _ => 0) cap (buffer.getD []))
    (expandable : ∀ c ∈ (decode (mem.take length)).1, Expandable t T c) :
    ∃ r, utf8procDecomposeCustom pf t mem length buffer cap T.options none = .ok r ∧
      PassOutcome pf t T (mem.take length) (buffer.getD []) cap r := by
  let entryState : DecomposeState :=
    { buffer := buffer.getD [], lastBoundclass := EngineGraphemes.boundclassStart }
  obtain ⟨scanned, hscan, houtcome⟩ : ∃ r,
      run (scanBody pf t mem length (buffer.map fun _ => 0) cap T.options none) (mem.length + 1)
        { rpos := 0, wpos := 0, decomposed := entryState } = .ok r ∧
      ScanOutcome pf t T (mem.take length) (buffer.map fun _ => 0) cap entryState r :=
    scan_outcome hlen room expandable
  have hscalar := (decode_spec (mem.take length)).1
  unfold ScanOutcome at houtcome
  unfold PassOutcome
  split_ifs at houtcome ⊢ with hover hrest
  · obtain ⟨cells, rfl⟩ := houtcome
    exact ⟨_, utf8procDecomposeCustom_failed hscan, rfl⟩
  · subst houtcome
    have hcodes : ∀ c ∈ expansions t T (decode (mem.take length)).1, c < 0x110000 := fun c hc =>
      (expansions_isScalar (fun d hd => ⟨expandable d hd, hscalar d hd⟩) c hc).lt
    obtain ⟨result, hresult, hcells⟩ := utf8procDecomposeCustom_finished hcodes hscan (by
      intro hcap
      have hbase : (buffer.map fun _ => 0).getD 0 = 0 := by cases buffer <;> rfl
      rw [written, hbase, List.take_of_length_le (by rwa [int32s_length]), overwrite_zero,
        int32s_length])
    exact ⟨_, hresult, rfl, hcells⟩
  · obtain ⟨cells, rfl⟩ := houtcome
    exact ⟨_, utf8procDecomposeCustom_failed hscan, rfl⟩

theorem expandable_of_utf8procDecomposeCustom {pf : Platform} {t : Utf8procData} {T : Transform}
    {mem : List UInt8} {length cap : ℕ} {buffer : Option (List ℤ)} {rc : ℤ} {cells : List ℤ}
    (hlen : length ≤ mem.length) (room : Room (buffer.map fun _ => 0) cap (buffer.getD []))
    (h : utf8procDecomposeCustom pf t mem length buffer cap T.options none = .ok (rc, cells))
    (hrc : 0 ≤ rc) : ∀ c ∈ (decode (mem.take length)).1, Expandable t T c := by
  have hstrip := T.hasOption_inactive utf8procStripmark (by simp)
  have hopts : ¬ ((T == .nfc) = true ∧ (T == .nfd) = true) := by cases T <;> decide
  rw [utf8procDecomposeCustom] at h
  simp only [T.hasOption_compose, T.hasOption_decompose, hstrip, Bool.false_eq_true, false_and,
    if_false] at h
  rw [if_neg hopts] at h
  obtain ⟨scanned, hscan, hresult⟩ := bind_eq_ok h
  rcases expandable_of_scan (s := { buffer := buffer.getD [], lastBoundclass := _ }) hlen room
    hscan with hexp | ⟨code, cells', rfl, hcode⟩
  · exact hexp
  · obtain ⟨rfl, _⟩ : code = rc ∧ cells' = cells := by simpa using hresult
    omega

end LeoUTF8.DecompositionPass
