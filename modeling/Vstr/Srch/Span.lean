import Vstr.Model.Spn
import Vstr.Srch.Rev

/-!
# Spans

What the span functions answer, from the bytes of the slice: the longest stretch at its
beginning or its end that lies in a set. How the slice is cut into nodes plays no part, nor
whether a reverse function walks an iterator or the vectors.
-/

namespace Vstr

open Memory Splice Query Occur

variable {E : Env} {P : Own} {s : St} {h : Heap} {pos len : Nat} {xs : List (Option UInt8)}
  {its : List Iter} {scs : List Scan} {set : SpanSet} {chrs : Option (List UInt8)}

/-- The bytes that belong to a set. -/
def SpanSet.has (set : SpanSet) : Option UInt8 → Bool
  | none => set.non
  | some c =>
    match set.data with
    | .all => true
    | .none => false
    | .bytes test => test c

theorem takeWhile_replicate_none (set : SpanSet) (n : Nat) :
    ((List.replicate n none).takeWhile set.has).length = if set.non then n else 0 := by
  rw [List.takeWhile_replicate]
  change (if set.non = true then _ else _ : List (Option UInt8)).length = _
  split
  · rw [List.length_replicate]
  · rfl

/-- The bytes of a node that belong, from its first on. -/
theorem takeWhile_data (set : SpanSet) (bs : List UInt8) :
    ((bs.map some).takeWhile set.has).length = match set.data with
      | .all => bs.length
      | .none => 0
      | .bytes test => (bs.takeWhile test).length := by
  rw [List.takeWhile_map, List.length_map]
  have e : set.has ∘ some = fun c => match set.data with
    | .all => true
    | .none => false
    | .bytes test => test c := rfl
  rw [e]
  cases set.data with
  | all => exact length_takeWhile_of_all fun _ _ => rfl
  | none => cases bs <;> rfl
  | bytes test => rfl

/-- The forward loops. -/
theorem spanFwdLoop_eq (w : Walk h its xs) :
    spanFwdLoop h set its = (xs.takeWhile set.has).length := by
  induction w with
  | nil => rfl
  | @non it its xs ptr pos rest walk ih =>
    rw [spanFwdLoop, ptr, length_takeWhile_append, takeWhile_replicate_none, List.length_replicate,
      ← ih]
    dsimp only
    by_cases hn : set.non = true
    · rw [if_pos hn, if_pos hn, if_neg (Nat.lt_irrefl _)]
    · rw [if_neg hn, if_neg hn, if_pos pos]
  | @data it its xs p ptr pos rest walk ih =>
    rw [spanFwdLoop, ptr, length_takeWhile_append, takeWhile_data, List.length_map, length_read,
      ← ih]
    dsimp only
    cases set.data with
    | all => rw [if_neg (Nat.lt_irrefl _)]
    | none => rw [if_pos pos]
    | bytes test => rfl

/-- Unknown bytes behind `ret` bytes that belong. -/
theorem trail_replicate_none (set : SpanSet) (ret : Nat) {n : Nat} (hn : 0 < n) :
    trail set.has ret (List.replicate n none) = if set.non then ret + n else 0 := by
  rw [trail, List.reverse_replicate, takeWhile_replicate_none, List.length_replicate]
  by_cases hs : set.non = true
  · rw [if_pos hs, if_pos hs, if_neg (Nat.lt_irrefl _)]
  · rw [if_neg hs, if_neg hs, if_pos hn]

/-- The bytes of a node behind `ret` bytes that belong. -/
theorem trail_data (set : SpanSet) (ret : Nat) {bs : List UInt8} (hb : 0 < bs.length) :
    trail set.has ret (bs.map some) = match set.data with
      | .all => ret + bs.length
      | .none => 0
      | .bytes test =>
        if (bs.reverse.takeWhile test).length < bs.length then (bs.reverse.takeWhile test).length
        else ret + bs.length := by
  rw [trail, ← List.map_reverse, takeWhile_data, List.length_map, List.length_reverse]
  cases set.data with
  | all => exact if_neg (Nat.lt_irrefl _)
  | none => exact if_pos hb
  | bytes test => rfl

/-- The reverse loops over an iterator. -/
theorem spanRevSlowLoop_eq (w : Walk h its xs) (ret : Nat) :
    spanRevSlowLoop h set ret its = trail set.has ret xs := by
  induction w generalizing ret with
  | nil => rfl
  | @non it its xs ptr pos rest walk ih =>
    rw [spanRevSlowLoop, ptr, trail_append, trail_replicate_none set ret pos]
    exact ih _
  | @data it its xs p ptr pos rest walk ih =>
    rw [spanRevSlowLoop, ptr, trail_append, trail_data set ret (by rwa [length_read]), length_read]
    dsimp only
    cases set.data with
    | all => exact ih _
    | none => exact ih _
    | bytes test => exact ih _

/-- The reverse loops over the vectors. -/
theorem spanRevFastLoop_eq (w : ScanWalk h scs xs) :
    spanRevFastLoop h set scs = (xs.rtakeWhile set.has).length := by
  rw [length_rtakeWhile]
  induction w with
  | nil => rfl
  | @non sc scs xs str pos rest walk ih =>
    rw [spanRevFastLoop, str, List.reverse_append, length_takeWhile_append, List.reverse_replicate,
      takeWhile_replicate_none, List.length_replicate, ← ih]
    dsimp only
    by_cases hn : set.non = true
    · rw [if_pos hn, if_pos hn, if_neg (Nat.lt_irrefl _)]
    · rw [if_neg hn, if_neg hn, if_pos pos]
  | @data sc scs xs p str pos rest walk ih =>
    rw [spanRevFastLoop, str, List.reverse_append, length_takeWhile_append, ← List.map_reverse,
      takeWhile_data, List.length_map, List.length_reverse, length_read, ← ih]
    dsimp only
    cases set.data with
    | all => rw [if_neg (Nat.lt_irrefl _)]
    | none => rw [if_pos pos]
    | bytes test => rfl

/-! ## Whole functions -/

/-- A forward loop. -/
theorem Window.yields_spanFwd (w : Window E P s pos len xs) (set : SpanSet) :
    Yields Reads (spanFwd set pos len) s (xs.takeWhile set.has).length := by
  unfold Yields spanFwd StateT.run
  beta_reduce
  rcases w.walk_cases with ⟨rfl, e⟩ | ⟨it, t, e, hr, hw⟩
  · rw [e]
    exact ⟨rfl, Std.Refl.refl s⟩
  · rw [e]
    dsimp only
    rw [hr.heap, spanFwdLoop_eq hw]
    exact ⟨rfl, hr⟩

/-- A reverse loop over an iterator. -/
theorem Window.yields_spanRevSlow (w : Window E P s pos len xs) (set : SpanSet) :
    Yields Reads (spanRevSlow set pos len) s (xs.rtakeWhile set.has).length := by
  unfold Yields spanRevSlow StateT.run
  beta_reduce
  rcases w.walk_cases with ⟨rfl, e⟩ | ⟨it, t, e, hr, hw⟩
  · rw [e]
    exact ⟨rfl, Std.Refl.refl s⟩
  · rw [e]
    dsimp only
    rw [hr.heap, spanRevSlowLoop_eq hw, trail_zero]
    exact ⟨rfl, hr⟩

/-- A reverse loop over the vectors. -/
theorem Window.yields_spanRevFast (w : Window E P s pos len xs) (pk : PosOk True s.base)
    (iv : IovecOk s) (hup : s.base.iovecUptoDate = true) (set : SpanSet) :
    Yields Reads (spanRevFast set pos len) s (xs.rtakeWhile set.has).length := by
  unfold Yields spanRevFast StateT.run
  beta_reduce
  rcases w.scanWalk_cases pk iv hup with ⟨rfl, e⟩ | ⟨sc, t, e, hr, hw⟩
  · rw [e]
    exact ⟨rfl, Std.Refl.refl s⟩
  · rw [e]
    dsimp only
    rw [hr.heap, spanRevFastLoop_eq hw]
    exact ⟨rfl, hr⟩

/-! ## Characters -/

/-- The bytes among the characters; the unknown ones when there are no characters. -/
def inChrs : Option (List UInt8) → Option UInt8 → Bool
  | none, x => x.isNone
  | some chrs, x => x ∈ chrs.map some

theorem isSome_memchr (chrs : List UInt8) (c : UInt8) :
    (memchr chrs c).isSome = decide (c ∈ chrs) := by
  rw [memchr, List.findIdx?_isSome, Bool.eq_iff_iff]
  simp

theorem spnSet_has (chrs : Option (List UInt8)) : (spnSet chrs).has = inChrs chrs := by
  funext x
  rcases chrs with - | chrs <;> rcases x with - | c
  · rfl
  · rfl
  · simp [spnSet, SpanSet.has, inChrs]
  · simp [spnSet, SpanSet.has, inChrs, isSome_memchr]

theorem cspnSet_has (chrs : Option (List UInt8)) :
    (cspnSet chrs).has = fun x => !inChrs chrs x := by
  funext x
  rcases chrs with - | chrs <;> rcases x with - | c
  · rfl
  · rfl
  · simp [cspnSet, SpanSet.has, inChrs]
  · simp only [cspnSet, SpanSet.has, inChrs, ← Option.not_isSome, isSome_memchr]
    simp

/-- A type that is not marked is not there. -/
theorem Window.none_not_mem (w : Window E P s pos len xs) (h : s.base.nodeUsed .non = false) :
    none ∉ xs := by
  intro hx
  rw [← w.bytes, slice] at hx
  have hf := List.mem_of_mem_drop (List.mem_of_mem_drop (List.mem_of_mem_take hx))
  obtain ⟨n, hn, hb⟩ := List.mem_flatMap.1 hf
  have hp : exportNodePtr s.heap n = none := by
    unfold nodeBytes at hb
    cases hp : exportNodePtr s.heap n with
    | none => rfl
    | some p =>
      rw [hp] at hb
      simp at hb
  have ht := w.usable.sound.valid.flags n hn
  rw [(type_eq_non s.heap n).2 hp, h] at ht
  cases ht

/-- Without `NON` nodes no byte is unknown. -/
theorem Window.not_inChrs (w : Window E P s pos len xs) (h : nonUnused chrs s = true) :
    ∀ x ∈ xs, inChrs chrs x = false := by
  unfold nonUnused at h
  rw [Bool.and_eq_true, Option.isNone_iff_eq_none, Bool.not_eq_true'] at h
  obtain ⟨rfl, h⟩ := h
  intro x hx
  cases x with
  | none => exact absurd hx (w.none_not_mem h)
  | some c => rfl

/-- `vstr_spn_chrs_fwd`. -/
theorem Window.yields_spnChrsFwd (w : Window E P s pos len xs) (chrs : Option (List UInt8)) :
    Yields Reads (Spn.chrsFwd pos len chrs) s (xs.takeWhile (inChrs chrs)).length := by
  by_cases hn : nonUnused chrs s = true
  · have e : (Spn.chrsFwd pos len chrs).run s = (0, s) := if_pos hn
    rw [Yields, e]
    refine ⟨?_, Std.Refl.refl s⟩
    cases xs with
    | nil => rfl
    | cons x xs => rw [List.takeWhile_cons, w.not_inChrs hn x List.mem_cons_self]; rfl
  · by_cases h1 : ∃ c, chrs = some [c]
    · obtain ⟨c, rfl⟩ := h1
      have e : (Spn.chrsFwd pos len (some [c])).run s = (spnChrFwd pos len c).run s := by
        change Spn.chrsFwd pos len (some [c]) s = _
        rw [Spn.chrsFwd, if_neg hn]
        rfl
      have hs : SpanSet.has ⟨false, .bytes (· = c)⟩ = inChrs (some [c]) := by
        funext x
        rcases x with - | x <;> simp [SpanSet.has, inChrs, eq_comm]
      rw [Yields, e, ← hs]
      exact w.yields_spanFwd _
    · have e : (Spn.chrsFwd pos len chrs).run s = (spanFwd (spnSet chrs) pos len).run s := by
        refine (if_neg hn).trans ?_
        split
        · exact absurd ⟨_, rfl⟩ h1
        · rfl
      rw [Yields, e, ← spnSet_has]
      exact w.yields_spanFwd _

/-- The span that the parsers use is the same. -/
theorem Window.spnChrsFwd_agree (w : Window E P s pos len xs) (chrs : List UInt8) :
    ((Spn.chrsFwd pos len (some chrs)).run s).1 = ((spnChrsFwd pos len chrs).run s).1 := by
  have hp : inChrs (some chrs) = (·.any (· ∈ chrs)) := by
    funext x
    rcases x with - | x <;> simp [inChrs]
  rw [(w.yields_spnChrsFwd (some chrs)).1,
    (spnChrsFwd_yields w.usable w.one_le w.le_len chrs).1, w.bytes, spanOf, hp]

/-- Nothing belongs. -/
theorem rtakeWhile_eq_nil {p : Option UInt8 → Bool} (h : ∀ x ∈ xs, p x = false) :
    (xs.rtakeWhile p).length = 0 := by
  rw [length_rtakeWhile]
  cases hr : xs.reverse with
  | nil => rfl
  | cons x ys =>
    have hx : x ∈ xs := List.mem_reverse.1 (hr ▸ List.mem_cons_self)
    rw [List.takeWhile_cons, h x hx]
    rfl

/-- `vstr__spn_chrs_rev_slow`. -/
theorem Window.yields_spnChrsRevSlow (w : Window E P s pos len xs) (chrs : Option (List UInt8)) :
    Yields Reads (Spn.chrsRevSlow pos len chrs) s (xs.rtakeWhile (inChrs chrs)).length := by
  have e : (Spn.chrsRevSlow pos len chrs).run s =
      if nonUnused chrs s then (0, s) else (spanRevSlow (spnSet chrs) pos len).run s := rfl
  rw [Yields, e]
  by_cases hn : nonUnused chrs s = true
  · rw [if_pos hn, rtakeWhile_eq_nil (w.not_inChrs hn)]
    exact ⟨rfl, Std.Refl.refl s⟩
  · rw [if_neg hn, ← spnSet_has]
    exact w.yields_spanRevSlow _

/-- `vstr__spn_chrs_rev_fast`. -/
theorem Window.yields_spnChrsRevFast (w : Window E P s pos len xs) (pk : PosOk True s.base)
    (iv : IovecOk s) (hup : s.base.iovecUptoDate = true) (chrs : Option (List UInt8)) :
    Yields Reads (Spn.chrsRevFast pos len chrs) s (xs.rtakeWhile (inChrs chrs)).length := by
  have e : (Spn.chrsRevFast pos len chrs).run s =
      if nonUnused chrs s then (0, s) else (spanRevFast (spnSet chrs) pos len).run s := rfl
  rw [Yields, e]
  by_cases hn : nonUnused chrs s = true
  · rw [if_pos hn, rtakeWhile_eq_nil (w.not_inChrs hn)]
    exact ⟨rfl, Std.Refl.refl s⟩
  · rw [if_neg hn, ← spnSet_has]
    exact w.yields_spanRevFast pk iv hup _

/-- `vstr_spn_chrs_rev`. -/
theorem Window.yields_spnChrsRev (w : Window E P s pos len xs) (pk : PosOk True s.base)
    (iv : IovecOk s) (chrs : Option (List UInt8)) :
    Yields Reads (Spn.chrsRev pos len chrs) s (xs.rtakeWhile (inChrs chrs)).length := by
  have e : (Spn.chrsRev pos len chrs).run s = if s.base.iovecUptoDate
      then (Spn.chrsRevFast pos len chrs).run s else (Spn.chrsRevSlow pos len chrs).run s := rfl
  rw [Yields, e]
  by_cases hup : s.base.iovecUptoDate = true
  · rw [if_pos hup]
    exact w.yields_spnChrsRevFast pk iv hup chrs
  · rw [if_neg hup]
    exact w.yields_spnChrsRevSlow chrs

/-! ## The complement -/

/-- The bytes in front of the first `c`. -/
theorem takeWhile_of_first {c : UInt8} {r : Nat} (hp : 0 < pos) (h : First [some c] xs pos r) :
    (xs.takeWhile fun x => !inChrs (some [c]) x).length =
      if r = 0 then xs.length else r - pos := by
  have hc : ∀ x : Option UInt8, x ≠ some c → (!inChrs (some [c]) x) = true := by
    intro x hx
    simpa [inChrs] using hx
  rcases first_singleton h with ⟨rfl, hx⟩ | ⟨as, bs, rfl, ha, rfl⟩
  · rw [if_pos rfl, length_takeWhile_of_all]
    exact fun x hm => hc x fun e => hx (e ▸ hm)
  · rw [if_neg (by omega), length_takeWhile_append, length_takeWhile_of_all,
      if_neg (Nat.lt_irrefl _)]
    · simp [inChrs]
    · exact fun x hm => hc x fun e => ha (e ▸ hm)

/-- The bytes behind the last `c`. -/
theorem rtakeWhile_of_last {c : UInt8} {r : Nat} (hp : 0 < pos) (h : Last [some c] xs pos r) :
    (xs.rtakeWhile fun x => !inChrs (some [c]) x).length =
      if r = 0 then xs.length else pos + (xs.length - 1) - r := by
  have hc : ∀ x : Option UInt8, x ≠ some c → (!inChrs (some [c]) x) = true := by
    intro x hx
    simpa [inChrs] using hx
  rw [length_rtakeWhile]
  rcases last_singleton h with ⟨rfl, hx⟩ | ⟨as, bs, rfl, hb, rfl⟩
  · rw [if_pos rfl, length_takeWhile_of_all, List.length_reverse]
    exact fun x hm => hc x fun e => hx (e ▸ List.mem_reverse.1 hm)
  · rw [if_neg (by omega), List.reverse_append, List.reverse_cons, List.append_assoc,
      length_takeWhile_append, length_takeWhile_of_all, if_neg (Nat.lt_irrefl _)]
    · simp [inChrs]
      omega
    · exact fun x hm => hc x fun e => hb (e ▸ List.mem_reverse.1 hm)

/-- `vstr_cspn_chrs_fwd`. -/
theorem Window.yields_cspnChrsFwd (w : Window E P s pos len xs) (chrs : Option (List UInt8)) :
    Yields Reads (Cspn.chrsFwd pos len chrs) s (xs.takeWhile fun x => !inChrs chrs x).length := by
  by_cases hn : nonUnused chrs s = true
  · have e : (Cspn.chrsFwd pos len chrs).run s = (len, s) := if_pos hn
    rw [Yields, e, length_takeWhile_of_all, w.length]
    · exact ⟨rfl, Std.Refl.refl s⟩
    · intro x hx
      rw [w.not_inChrs hn x hx, Bool.not_false]
  · by_cases h1 : ∃ c, chrs = some [c]
    · obtain ⟨c, rfl⟩ := h1
      have e : (Cspn.chrsFwd pos len (some [c])).run s =
          (if ((srchChrFwd pos len c).run s).1 = 0 then len
            else ((srchChrFwd pos len c).run s).1 - pos, ((srchChrFwd pos len c).run s).2) := by
        change Cspn.chrsFwd pos len (some [c]) s = _
        rw [Cspn.chrsFwd, if_neg hn]
        rfl
      obtain ⟨hf, hr⟩ := w.chrFirst c
      rw [Yields, e, takeWhile_of_first w.one_le hf, w.length]
      exact ⟨rfl, hr⟩
    · have e : (Cspn.chrsFwd pos len chrs).run s = (spanFwd (cspnSet chrs) pos len).run s := by
        refine (if_neg hn).trans ?_
        split
        · exact absurd ⟨_, rfl⟩ h1
        · rfl
      rw [Yields, e, ← cspnSet_has]
      exact w.yields_spanFwd _

/-- `vstr_cspn_chrs_rev`. -/
theorem Window.yields_cspnChrsRev (w : Window E P s pos len xs) (pk : PosOk True s.base)
    (iv : IovecOk s) (chrs : Option (List UInt8)) :
    Yields Reads (Cspn.chrsRev pos len chrs) s (xs.rtakeWhile fun x => !inChrs chrs x).length := by
  by_cases hn : nonUnused chrs s = true
  · have e : (Cspn.chrsRev pos len chrs).run s = (len, s) := if_pos hn
    rw [Yields, e, length_rtakeWhile, length_takeWhile_of_all, List.length_reverse, w.length]
    · exact ⟨rfl, Std.Refl.refl s⟩
    · intro x hx
      rw [w.not_inChrs hn x (List.mem_reverse.1 hx), Bool.not_false]
  · by_cases h1 : ∃ c, chrs = some [c]
    · obtain ⟨c, rfl⟩ := h1
      have e : (Cspn.chrsRev pos len (some [c])).run s =
          (if ((srchChrRev pos len c).run s).1 = 0 then len
            else pos + (len - 1) - ((srchChrRev pos len c).run s).1,
            ((srchChrRev pos len c).run s).2) := by
        change Cspn.chrsRev pos len (some [c]) s = _
        rw [Cspn.chrsRev, if_neg hn]
        rfl
      obtain ⟨hf, hr⟩ := w.chrRev pk iv c
      rw [Yields, e, rtakeWhile_of_last w.one_le hf, w.length]
      exact ⟨rfl, hr⟩
    · have e : (Cspn.chrsRev pos len chrs).run s = if s.base.iovecUptoDate
          then (spanRevFast (cspnSet chrs) pos len).run s
          else (spanRevSlow (cspnSet chrs) pos len).run s := by
        refine (if_neg hn).trans ?_
        split
        · exact absurd ⟨_, rfl⟩ h1
        · rfl
      rw [Yields, e, ← cspnSet_has]
      by_cases hup : s.base.iovecUptoDate = true
      · rw [if_pos hup]
        exact w.yields_spanRevFast pk iv hup _
      · rw [if_neg hup]
        exact w.yields_spanRevSlow _

/-! ## Byte maps -/

/-- A test that finds the same characters. -/
theorem has_bytes {chrs : List UInt8} {test : UInt8 → Bool}
    (h : ∀ c, test c = true ↔ c ∈ chrs) :
    SpanSet.has ⟨false, .bytes test⟩ = inChrs (some chrs) := by
  funext x
  cases x with
  | none => simp [SpanSet.has, inChrs]
  | some c =>
    change test c = _
    rw [Bool.eq_iff_iff, h c]
    simp [inChrs]

/-- A test that finds all other characters. -/
theorem has_bytes_not {chrs : List UInt8} {test : UInt8 → Bool}
    (h : ∀ c, test c = true ↔ c ∉ chrs) :
    SpanSet.has ⟨true, .bytes test⟩ = fun x => !inChrs (some chrs) x := by
  funext x
  cases x with
  | none => simp [SpanSet.has, inChrs]
  | some c =>
    change test c = _
    rw [Bool.eq_iff_iff, h c]
    simp [inChrs]

/-- `vstr_sc_bmap_init_eq_spn_buf` marks the bytes of the buffer. -/
theorem scBmapInitEqSpnBuf_apply (bmap : Bmap) (buf : List UInt8) (val c : UInt8) :
    scBmapInitEqSpnBuf bmap buf val c = if c ∈ buf then val else bmap c := by
  induction buf with
  | nil => rfl
  | cons b buf ih =>
    change Function.update (scBmapInitEqSpnBuf bmap buf val) b val c = _
    by_cases hc : c = b
    · subst hc
      rw [Function.update_self, if_pos List.mem_cons_self]
    · rw [Function.update_of_ne hc, ih]
      simp [hc]

/-- `vstr_sc_bmap_init_or_spn_buf` marks the bytes of the buffer. -/
theorem scBmapInitOrSpnBuf_apply (bmap : Bmap) (buf : List UInt8) (val c : UInt8) :
    scBmapInitOrSpnBuf bmap buf val c = if c ∈ buf then bmap c ||| val else bmap c := by
  induction buf with
  | nil => rfl
  | cons b buf ih =>
    change Function.update (scBmapInitOrSpnBuf bmap buf val) b
      (scBmapInitOrSpnBuf bmap buf val b ||| val) c = _
    by_cases hc : c = b
    · subst hc
      rw [Function.update_self, if_pos List.mem_cons_self, ih]
      split
      · rw [UInt8.or_assoc, UInt8.or_self]
      · rfl
    · rw [Function.update_of_ne hc, ih]
      simp [hc]

end Vstr
