import Vstr.Split.Stall

/-!
# Splits that end

A turn takes bytes off the slice, unless the separator is empty or the count of separators in
a row is cut to zero. Then the source turns for ever.
-/

namespace Vstr

open Splice Query Separate

variable {E : Env} {P : Own} {s t : St} {limit orig fuel pos len width k splitPos more : Nat}
  {xs : List (Option UInt8)} {ns : List Nat} {fl : SplitFlags} {a : SplitAt} {buf : Buf}
  {x : Sects}

/-! ## What adding leaves -/

theorem asks_of_yields {α : Type} {m : StateM St α} {v : α} (h : Yields Reads m s v) :
    Ensures Asks m s (· = v) :=
  ⟨h.1, h.2.asks⟩

theorem splitAdd_place (s : St) (fl : SplitFlags) (p l : Nat) (a : SplitAt) :
    Ensures Asks (splitAdd fl p l a) s fun r => r.2.pos = a.pos ∧ r.2.len = a.len := by
  obtain ⟨o, x', n, e⟩ := splitAdd_run fl s.heap p l a.added a.sects
  have e' : (splitAdd fl p l a).run s = _ := e s.base a.pos a.len
  rw [Ensures, e']
  exact ⟨⟨rfl, rfl⟩, n, Std.Refl.refl _⟩

theorem splitNulls_place (s : St) (fl : SplitFlags) (null : Bool) (hk : k * width ≤ a.len) :
    Ensures Asks (splitNulls fl null width k a) s fun r =>
      r.1 = none → r.2.pos = a.pos + k * width ∧ r.2.len = a.len - k * width := by
  induction k generalizing a s with
  | zero =>
    rw [Nat.zero_mul]
    exact .pure s fun _ => ⟨rfl, rfl⟩
  | succ k ih =>
    rw [Nat.succ_mul] at hk ⊢
    have e : sizeSub a.len width = a.len - width := if_pos (by omega)
    rw [splitNulls_succ]
    have hadd : Ensures Asks (if null then splitAdd fl a.pos 0 a else pure (none, a)) s fun r =>
        r.2.pos = a.pos ∧ r.2.len = a.len := by
      cases null with
      | false => exact .pure s ⟨rfl, rfl⟩
      | true => exact splitAdd_place s fl a.pos 0 a
    refine hadd.bind fun r t _ hr => ?_
    obtain ⟨- | ret, a'⟩ := r
    · obtain ⟨h1, h2⟩ := hr
      dsimp only at h1 h2 ⊢
      rw [h1, h2, e]
      refine (ih (a := ⟨a.pos + width, a.len - width, a'.added, a'.sects⟩) t
        (by dsimp only; omega)).mono fun r hr h => ?_
      obtain ⟨h1, h2⟩ := hr h
      exact ⟨by rw [h1]; dsimp only; omega, by rw [h2]; dsimp only; omega⟩
    · exact .pure t fun h => by cases h

theorem splitLast_asks (s : St) (fl : SplitFlags) (add : Bool) (a : SplitAt) :
    Ensures Asks (splitLast fl add a) s fun _ => True := by
  unfold splitLast
  cases add with
  | false => exact .pure s trivial
  | true =>
    refine (splitAdd_place s fl a.pos a.len a).bind fun r t _ _ => ?_
    obtain ⟨- | ret, a'⟩ := r <;> exact .pure t trivial

theorem splitHdlNullEnd_asks (s : St) (fl : SplitFlags) {count : Nat}
    (hk : splitCount fl limit count a.added * width ≤ a.len) :
    Ensures Asks (splitHdlNullEnd fl width limit count a) s fun _ => True := by
  unfold splitHdlNullEnd
  cases fl.endNull with
  | false =>
    refine (Ensures.pure s (Q := fun _ => True) trivial).bind fun r t _ _ => ?_
    obtain ⟨- | ret, a'⟩ := r
    · exact splitLast_asks t fl _ _
    · exact .pure t trivial
  | true =>
    refine (splitNulls_place s fl true hk).bind fun r t _ _ => ?_
    obtain ⟨- | ret, a'⟩ := r
    · exact splitLast_asks t fl _ _
    · exact .pure t trivial

/-! ## A turn takes something -/

/-- A turn ends the split, or takes bytes off the slice. -/
def Shrinks (c : Sep (Option UInt8)) (a : SplitAt) (xs : List (Option UInt8)) : SplitTurn → Prop
  | .stuck => False
  | .done _ => True
  | .next _ a' => ∃ d i, 0 < d ∧ d ≤ a.len ∧ a'.pos = a.pos + d ∧ a'.len = a.len - d ∧
      c.lens (xs.drop d) = (c.lens xs).drop i

/-- A turn of `vstr_split_buf`. -/
theorem bufTurn_shrinks (hb : buf.len ≠ 0) (w : Window E P s a.pos a.len xs)
    (hs : ShortInside ((buf.sep hb).lens xs)) (ho : orig ≤ a.pos) :
    Ensures Asks (splitTurn (bufSeps more buf) fl limit orig splitPos a) s
      (Shrinks (buf.sep hb) a xs) := by
  have hf := @bufSeps_finds more _ hb
  have hpos := w.one_le
  have hl := w.length
  have hlen : stretch (buf.sep hb).width ((buf.sep hb).lens xs) = a.len := by
    rw [Sep.stretch_lens, hl]
  have hend : ∀ (u : St) (p : Nat), Ensures Asks (do
      return .done (← splitHdlEnd fl limit p a) : StateM St SplitTurn) u
      (Shrinks (buf.sep hb) a xs) := fun u p =>
    (splitLast_asks u fl _ a).bind fun r v _ _ => .pure v trivial
  rw [splitTurn]
  by_cases hstop : a.len = 0 ∨ (limit ≠ 0 ∧ ¬ a.added <
      uintSub limit (if fl.remain then 1 else 0))
  · rw [if_pos hstop]
    exact hend s splitPos
  have hg : Going fl limit a.added := not_not.1 fun h => hstop (.inr (by
    obtain ⟨h1, h2⟩ := not_going_iff.1 h
    exact ⟨h1, by rw [room_eq h1]; exact h2⟩))
  rw [if_neg hstop]
  refine (asks_of_yields (hf.srch w)).bind fun p t r hp => ?_
  subst hp
  have wt := w.asks r
  obtain ⟨n, ns, e⟩ := List.exists_cons_of_ne_nil (buf.sep hb).lens_ne_nil
  by_cases hns : ns = []
  · subst hns
    rw [e]
    exact hend t 0
  have hfound : foundAt a.pos ((buf.sep hb).lens xs) = a.pos + n := by
    obtain ⟨m, ms, rfl⟩ := List.exists_cons_of_ne_nil hns
    rw [e]
    rfl
  have hw := (buf.sep hb).width_pos
  rw [hfound, if_neg (by omega)]
  by_cases hhere : a.pos + n = orig ∨ a.pos + n = a.pos
  · obtain rfl : n = 0 := by omega
    have hhit := Sep.hit_of_lens _ e hns
    obtain ⟨k, -, -, hkl, hk, -⟩ := (buf.sep hb).exists_run xs
    rw [if_pos hhere, splitTurnNull]
    refine (asks_of_yields (wt.bufNullEnd hb hhit)).bind fun q u r' hq => ?_
    subst hq
    have hmod := Nat.mod_le (lead ((buf.sep hb).lens xs)) (2 ^ 32)
    cases hbare : bare ((buf.sep hb).lens xs) with
    | true =>
      dsimp only
      split
      · exact .pure u trivial
      · refine (splitHdlNullEnd_asks u fl ?_).bind fun r v _ _ => .pure v trivial
        rw [splitCount_eq hg, hf.len]
        refine (Nat.mul_le_mul_right _ ((splitQuota_le hg).trans (hmod.trans hk.le))).trans ?_
        rw [← hl]
        exact hkl
    | false =>
      have hlt := hs 0
      rw [List.drop_zero] at hlt
      have hq := @splitQuota_pos limit a.added (lead ((buf.sep hb).lens xs)) fl hg
        (by rw [e, lead_cons_zero hns]; omega)
      have hq' := @splitQuota_le limit a.added (lead ((buf.sep hb).lens xs)) fl hg
      obtain ⟨hd, hle⟩ := (buf.sep hb).lens_drop hq'
      rw [hl] at hle
      dsimp only
      rw [Nat.mod_eq_of_lt (hlt hbare), splitCount_eq hg, hf.len]
      refine (splitNulls_place u fl _ hle).bind fun r v _ hr => .pure v ?_
      obtain ⟨- | ret, a'⟩ := r
      · obtain ⟨h1, h2⟩ := hr rfl
        exact ⟨_, _, Nat.mul_pos hq hw, hle, h1, h2, hd⟩
      · trivial
  · obtain ⟨hd, hle⟩ := (buf.sep hb).lens_tail e hns
    rw [if_neg hhere, splitHdlDef, Nat.add_sub_cancel_left, hf.len]
    refine Ensures.bind (Q := fun r => r.1 = none → r.2.pos = a.pos + (n + (buf.sep hb).width) ∧
      r.2.len = a.len - (n + (buf.sep hb).width)) ?_ fun r u _ hr => .pure u ?_
    · refine (splitAdd_place t fl a.pos n a).bind fun r u _ hr => ?_
      obtain ⟨- | ret, a'⟩ := r
      · refine .pure u fun _ => ?_
        dsimp only at hr ⊢
        rw [hr.1, hr.2]
        exact ⟨rfl, if_pos (by omega)⟩
      · exact .pure u fun h => by cases h
    · obtain ⟨- | ret, a'⟩ := r
      · obtain ⟨h1, h2⟩ := hr rfl
        exact ⟨_, 1, by omega, by omega, h1, h2, by rw [hd, e]; rfl⟩
      · trivial

/-! ## Runs -/

/-- The beginnings of the turns of a split. -/
inductive SplitReach (seps : Seps) (fl : SplitFlags) (limit orig : Nat) (a₀ : SplitAt) (s₀ : St) :
    Nat → SplitAt → St → Prop
  /-- The first turn. -/
  | start : SplitReach seps fl limit orig a₀ s₀ 0 a₀ s₀
  /-- The turn after another one. -/
  | next {p a t p' a'} (h : SplitReach seps fl limit orig a₀ s₀ p a t)
    (e : ((splitTurn seps fl limit orig p a).run t).1 = .next p' a') :
    SplitReach seps fl limit orig a₀ s₀ p' a' ((splitTurn seps fl limit orig p a).run t).2

/-- What is left at the beginning of a turn. -/
structure Within (c : Sep (Option UInt8)) (pos len : Nat) (xs : List (Option UInt8)) (s : St)
    (a : SplitAt) (t : St) : Prop where
  /-- Some bytes are done. -/
  drop : ∃ d i, d ≤ len ∧ a.pos = pos + d ∧ a.len = len - d ∧
    c.lens (xs.drop d) = (c.lens xs).drop i
  /-- Nothing but the position cache and the allocations moved. -/
  asks : Asks s t

/-- A turn within the slice takes something, and the next one is within the slice. -/
theorem Within.turn (hb : buf.len ≠ 0) (w : Window E P s pos len xs)
    (hs : ShortInside ((buf.sep hb).lens xs)) (h : Within (buf.sep hb) pos len xs s a t) :
    ((splitTurn (bufSeps more buf) fl limit pos splitPos a).run t).1 ≠ .stuck ∧
      ∀ p a', ((splitTurn (bufSeps more buf) fl limit pos splitPos a).run t).1 = .next p a' →
        a'.len < a.len ∧ Within (buf.sep hb) pos len xs s a'
          ((splitTurn (bufSeps more buf) fl limit pos splitPos a).run t).2 := by
  obtain ⟨⟨d, i, hd, h1, h2, h3⟩, hr⟩ := h
  have wd := (w.asks hr).drop hd
  rw [← h1, ← h2] at wd
  obtain ⟨hq, hr'⟩ := @bufTurn_shrinks _ _ _ limit pos splitPos more _ fl _ _ hb wd
    (by rw [h3]; exact hs.drop i) (by omega)
  refine ⟨fun e => ?_, fun p a' e => ?_⟩
  · rw [e] at hq
    exact hq
  · rw [e] at hq
    obtain ⟨d', i', hpos, hle, h4, h5, h6⟩ := hq
    refine ⟨by omega, ⟨d + d', i + i', by omega, by omega, by omega, ?_⟩,
      IsTrans.trans _ _ _ hr hr'⟩
    rw [← List.drop_drop, h6, h3, List.drop_drop]

/-- The loop ends. -/
theorem Within.ends (hb : buf.len ≠ 0) (w : Window E P s pos len xs)
    (hs : ShortInside ((buf.sep hb).lens xs)) (h : Within (buf.sep hb) pos len xs s a t)
    (hfuel : a.len < fuel) :
    ((splitLoop (bufSeps more buf) fl limit pos fuel splitPos a).run t).1 ≠ none := by
  induction fuel generalizing a t splitPos with
  | zero => omega
  | succ fuel ih =>
    obtain ⟨h1, h2⟩ := h.turn
      hb w hs
    rw [splitLoop_succ, run_bind]
    generalize (splitTurn (bufSeps more buf) fl limit pos splitPos a).run t = r at h1 h2
    obtain ⟨r, u⟩ := r
    cases r with
    | stuck => exact absurd rfl h1
    | done r => exact Option.some_ne_none r
    | next p a' =>
      obtain ⟨hlt, h'⟩ := h2 p a' rfl
      exact ih h' (by omega)

/-- Every turn of a run takes something. -/
theorem SplitReach.within (hb : buf.len ≠ 0) (w : Window E P s pos len xs)
    (hs : ShortInside ((buf.sep hb).lens xs))
    (h : SplitReach (bufSeps more buf) fl limit pos ⟨pos, len, 0, x⟩ s splitPos a t) :
    Within (buf.sep hb) pos len xs s a t := by
  induction h with
  | start => exact ⟨⟨0, 0, Nat.zero_le _, rfl, rfl, rfl⟩, Std.Refl.refl s⟩
  | next _ e ih => exact ((ih.turn hb w hs).2 _ _ e).2

/-! ## Turns that take nothing -/

/-- The loop over separators does not end when they are empty. -/
theorem splitNullRun_empty (hb : buf.len = 0) (s : St) (fuel pos len num : Nat) :
    (splitNullRun buf fuel pos len num).run s = (none, s) := by
  induction fuel generalizing pos len num with
  | zero => rfl
  | succ fuel ih =>
    have hc : (cmpAnyBufEq pos buf.len buf).run s = (true, s) := by
      cases buf with
      | bytes bs =>
        obtain rfl : bs = [] := List.length_eq_zero_iff.1 hb
        change cmpBufEq pos 0 [] s = _
        rw [cmpBufEq, if_pos (show 0 = ([] : List UInt8).length from rfl)]
        change ((cmpBuf pos 0 [] s).1 == .eq, (cmpBuf pos 0 [] s).2) = _
        rw [cmpBuf, iterFwdBeg_zero]
        rfl
      | null n =>
        obtain rfl : n = 0 := hb
        change ((cmpAnyBuf pos 0 (.null 0) s).1 == .eq, (cmpAnyBuf pos 0 (.null 0) s).2) = _
        rw [cmpAnyBuf, cmpIter, iterFwdBeg_zero]
        rfl
    rw [splitNullRun, if_pos (by omega), run_bind, hc]
    exact ih _ _ _

/-- With an empty separator the first turn does not end. -/
theorem splitTurn_empty (hb : buf.len = 0) (hp : 0 < a.pos) (hl : a.len ≠ 0)
    (hg : Going fl limit a.added) (s : St) :
    ((splitTurn (bufSeps more buf) fl limit orig splitPos a).run s).1 = .stuck := by
  have hsrch : ((bufSeps more buf).srch a.pos a.len).run s = (a.pos, s) := by
    cases buf with
    | bytes bs =>
      obtain rfl : bs = [] := List.length_eq_zero_iff.1 hb
      change srchBufFwd a.pos a.len [] s = _
      unfold srchBufFwd
      rw [if_neg (by simp [hl])]
      rfl
    | null n =>
      obtain rfl : n = 0 := hb
      change srchNonFwd a.pos a.len 0 s = _
      rw [srchNonFwd, if_neg (by simp [hl]), if_pos rfl]
  have hstop : ¬ (a.len = 0 ∨ (limit ≠ 0 ∧ ¬ a.added <
      uintSub limit (if fl.remain then 1 else 0))) := by
    rintro (h | ⟨h1, h2⟩)
    · exact hl h
    · rw [room_eq h1] at h2
      exact hg.elim h1 h2
  have hnull : ((bufSeps more buf).nullEnd a.pos a.len).run s = (none, s) := by
    change (splitBufNullEnd more a.pos a.len buf).run s = _
    rw [splitBufNullEnd, if_neg (by omega)]
    exact splitNullRun_empty hb s _ _ _ _
  rw [splitTurn, if_neg hstop, run_bind, hsrch]
  dsimp only
  rw [if_neg (by omega), if_pos (.inr rfl), splitTurnNull, run_bind, hnull]
  rfl

/-- No flag. -/
def SplitFlags.plain : SplitFlags := ⟨false, false, false, false, false, false⟩

/-! ## When a split ends -/

/-- Some fuel is enough for a split, and every turn ends and takes bytes off the slice. -/
structure SplitStops (pos len : Nat) (buf : Buf) (x : Sects) (limit : Nat) (fl : SplitFlags)
    (s : St) : Prop where
  /-- The split ends. -/
  ends : ∃ more, ((splitBufMore more pos len buf x limit fl).run s).1 ≠ none
  /-- Its turns. -/
  turn : ∀ more p a t, SplitReach (bufSeps more buf) fl limit pos ⟨pos, len, 0, x⟩ s p a t →
    ((splitTurn (bufSeps more buf) fl limit pos p a).run t).1 ≠ .stuck ∧
      ∀ p' a', ((splitTurn (bufSeps more buf) fl limit pos p a).run t).1 = .next p' a' →
        a'.len < a.len

/-- A split whose first turn is the last one. -/
theorem SplitStops.of_done
    (h : ∀ more, ∃ r, ((splitTurn (bufSeps more buf) fl limit pos 0 ⟨pos, len, 0, x⟩).run s).1 =
      .done r) : SplitStops pos len buf x limit fl s where
  ends := by
    obtain ⟨r, hr⟩ := h 0
    refine ⟨0, ?_⟩
    rw [splitBufMore, splitLoop_succ, run_bind, hr]
    exact Option.some_ne_none r
  turn more p a t hreach := by
    obtain ⟨r, hr⟩ := h more
    have hstart : p = 0 ∧ a = ⟨pos, len, 0, x⟩ ∧ t = s := by
      induction hreach with
      | start => exact ⟨rfl, rfl, rfl⟩
      | next _ e ih =>
        obtain ⟨rfl, rfl, rfl⟩ := ih
        rw [hr] at e
        cases e
    obtain ⟨rfl, rfl, rfl⟩ := hstart
    rw [hr]
    exact ⟨nofun, nofun⟩

/-- A turn that the slice or the limit does not let begin. -/
theorem splitTurn_stop (seps : Seps) (s : St)
    (h : a.len = 0 ∨ (limit ≠ 0 ∧ ¬ a.added < uintSub limit (if fl.remain then 1 else 0))) :
    ∃ r, ((splitTurn seps fl limit orig splitPos a).run s).1 = .done r := by
  rw [splitTurn, if_pos h]
  exact ⟨_, rfl⟩

/-- A split ends with an empty separator when it does not begin. -/
theorem split_stops_empty (w : Window E P s pos len xs) (hb : buf.len = 0) (limit : Nat)
    (fl : SplitFlags) (x : Sects) :
    SplitStops pos len buf x limit fl s ↔ len = 0 ∨ (limit ≠ 0 ∧ splitRoom fl limit = 0) := by
  constructor
  · rintro ⟨⟨more, h⟩, -⟩
    by_contra hn
    obtain ⟨hl, hlim⟩ := not_or.1 hn
    refine h ?_
    have hg : Going fl limit 0 := by
      by_contra hg
      obtain ⟨h1, h2⟩ := not_going_iff.1 hg
      exact hlim ⟨h1, by omega⟩
    rw [splitBufMore, Nat.add_right_comm, splitLoop_succ, run_bind,
      splitTurn_empty (a := ⟨pos, len, 0, x⟩) hb w.one_le hl hg]
    rfl
  · intro h
    refine .of_done fun more => splitTurn_stop _ s ?_
    refine h.imp_right fun h => ⟨h.1, ?_⟩
    rw [room_eq h.1, h.2]
    exact Nat.lt_irrefl 0

/-- `vstr_split_buf` ends, whatever the limit, the flags and the list, if the separator is not
empty and no run of separators inside of the slice is longer than an `unsigned int` counts. -/
theorem split_stops_iff (w : Window E P s pos len xs) (buf : Buf) :
    ((∀ limit fl x, SplitStops pos len buf x limit fl s) ↔
      len = 0 ∨ ∃ hb : buf.len ≠ 0, ShortInside ((buf.sep hb).lens xs)) ∧
    (buf.len = 0 → ∀ limit fl x, SplitStops pos len buf x limit fl s ↔
      len = 0 ∨ (limit ≠ 0 ∧ splitRoom fl limit = 0)) := by
  refine ⟨⟨fun h => ?_, ?_⟩, fun hb limit fl x => split_stops_empty w hb limit fl x⟩
  · by_cases hb : buf.len = 0
    · exact .inl (((split_stops_empty w hb 0 .plain (Sects.decl 0)).1 (h _ _ _)).resolve_right
        fun hn => hn.1 rfl)
    · refine .inr ⟨hb, ?_⟩
      by_contra hs
      obtain ⟨⟨more, hm⟩, -⟩ := h 0 .plain (Sects.decl 0)
      exact hm (splitLoop_stalls (bufSeps_finds hb) (bufSeps_stalls hb) w hs (.inr ⟨rfl, rfl⟩) _)
  · rintro (hl | ⟨hb, hs⟩) limit fl x
    · exact .of_done fun more => splitTurn_stop _ s (.inl hl)
    · have h0 : Within (buf.sep hb) pos len xs s ⟨pos, len, 0, x⟩ s :=
        ⟨⟨0, 0, Nat.zero_le _, rfl, rfl, rfl⟩, Std.Refl.refl s⟩
      refine ⟨⟨0, h0.ends hb w hs (by dsimp only; omega)⟩, fun more p a t hr => ?_⟩
      obtain ⟨h1, h2⟩ := (hr.within hb w hs).turn hb w hs
      exact ⟨h1, fun p' a' e => (h2 p' a' e).1⟩

/-- A slice of one byte between two separators in front and two behind. -/
theorem split_stops_short : ∃ P, Window alone P (written [0x2C, 0x2C, 0x61, 0x2C, 0x2C]) 1 5
      ([0x2C, 0x2C, 0x61, 0x2C, 0x2C].map some) ∧
    ∀ limit fl x, SplitStops 1 5 (.bytes [0x2C]) x limit fl
      (written [0x2C, 0x2C, 0x61, 0x2C, 0x2C]) := by
  obtain ⟨P, w⟩ := window_text [0x2C, 0x2C, 0x61, 0x2C, 0x2C]
  have hb : Buf.len (.bytes [0x2C]) ≠ 0 := Nat.one_ne_zero
  have hl : (Buf.sep (.bytes [0x2C]) hb).lens ([0x2C, 0x2C, 0x61, 0x2C, 0x2C].map some) =
    [0, 0, 1, 0, 0] := rfl
  refine ⟨P, w, (split_stops_iff w (.bytes [0x2C])).1.2 (.inr ⟨hb, ?_⟩)⟩
  rw [hl]
  exact (short_of_length (by decide)).inside

/-- With an empty separator a slice of one byte is split for ever. -/
theorem split_empty_loops : ∃ P, Window alone P (written [0x61]) 1 1 [some 0x61] ∧
    ¬ SplitStops 1 1 (.bytes []) (Sects.decl 4) 0 .plain (written [0x61]) := by
  obtain ⟨P, w⟩ := window_text [0x61]
  refine ⟨P, w, fun h => ?_⟩
  exact ((split_stops_empty w rfl 0 .plain _).1 h).elim (by decide) fun h => h.1 rfl

end Vstr
