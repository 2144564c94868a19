import Vstr.Split.Wanted

/-!
# Splits that do not end

A turn passes as many of the empty fields in a row as an `unsigned int` counts of them. Of too
many a multiple of what it can count is left, and the next turn passes none.
-/

namespace Vstr

open Splice Query Separate

variable {E : Env} {P : Own} {s t : St} {orig fuel width k splitPos more i m n : Nat}
  {xs : List (Option UInt8)} {ns : List Nat} {fl : SplitFlags} {a : SplitAt} {buf : Buf}
  {seps : Seps} {c : Sep (Option UInt8)} {Q : List Nat → Prop}

/-! ## Runs that are too long -/

theorem lead_singleton_drop (n i : Nat) : lead ([n].drop i) = 0 := by
  rcases i with - | i
  · cases n <;> rfl
  · rw [List.drop_succ_cons, List.drop_nil]
    rfl

/-- A run of empty fields that is too long is still there behind what was counted of it. -/
theorem exists_long_drop (h : 2 ^ 32 ≤ lead (ns.drop i)) :
    ∃ j, 2 ^ 32 ≤ lead ((ns.drop (lead ns % 2 ^ 32)).drop j) ∧
      (bare (ns.drop i) = false → bare ((ns.drop (lead ns % 2 ^ 32)).drop j) = false) := by
  have hmod := Nat.mod_le (lead ns) (2 ^ 32)
  rcases Nat.lt_or_ge i (lead ns % 2 ^ 32) with hi | hi
  · have hil : i ≤ lead ns := by omega
    rw [lead_drop hil] at h
    refine ⟨0, ?_, fun hb => ?_⟩
    · rw [List.drop_zero, lead_drop hmod]
      omega
    · rw [bare_drop hil] at hb
      rw [List.drop_zero, bare_drop hmod, hb]
  · refine ⟨i - lead ns % 2 ^ 32, ?_⟩
    rw [List.drop_drop, Nat.add_sub_cancel' hi]
    exact ⟨h, id⟩

theorem not_short : ¬ Short ns ↔ ∃ i, 2 ^ 32 ≤ lead (ns.drop i) := by
  simp only [Short, not_forall, not_lt]

theorem not_shortInside :
    ¬ ShortInside ns ↔ ∃ i, 2 ^ 32 ≤ lead (ns.drop i) ∧ bare (ns.drop i) = false := by
  simp only [ShortInside, not_forall, not_lt, exists_prop, and_comm]

/-- Fields with the property `Q` are never passed: a turn leaves others that have it. -/
structure Seps.Stalls (seps : Seps) (c : Sep (Option UInt8)) (Q : List Nat → Prop) : Prop where
  /-- There is more than one. -/
  many : ∀ {n}, ¬ Q [n]
  /-- Behind a field that is not empty. -/
  field : ∀ {n ns}, Q ((n + 1) :: ns) → Q ns
  /-- Behind what is counted of empty ones. -/
  run : ∀ {ns}, Q ns → Q (ns.drop (lead ns % 2 ^ 32))
  /-- There seems to be something behind the empty ones. -/
  nullEnd : ∀ {E P s pos len xs}, Window E P s pos len xs → c.hit xs = true → Q (c.lens xs) →
    Yields Reads (seps.nullEnd pos len) s (some (false, lead (c.lens xs) % 2 ^ 32))

/-- Of a string too many in a row with something behind them. -/
theorem bufSeps_stalls (hb : buf.len ≠ 0) :
    (bufSeps more buf).Stalls (buf.sep hb) (¬ ShortInside ·) where
  many h := by
    obtain ⟨i, h1, -⟩ := not_shortInside.1 h
    rw [lead_singleton_drop] at h1
    omega
  field h := by
    obtain ⟨- | i, h1, h2⟩ := not_shortInside.1 h
    · rw [List.drop_zero, lead_cons_succ] at h1
      omega
    · exact not_shortInside.2 ⟨i, h1, h2⟩
  run h := by
    obtain ⟨i, h1, h2⟩ := not_shortInside.1 h
    obtain ⟨j, h3, h4⟩ := exists_long_drop h1
    exact not_shortInside.2 ⟨j, h3, h4 h2⟩
  nullEnd w hit h := by
    obtain ⟨i, -, h2⟩ := not_shortInside.1 h
    have hn := @Window.bufNullEnd _ _ _ _ _ more _ _ hb w hit
    rwa [bare_of_drop h2] at hn

/-- Of a set too many in a row, also at the end. -/
theorem chrsSeps_stalls (chrs : Option (List UInt8)) :
    (chrsSeps chrs).Stalls (chrsSep chrs) (¬ Short ·) where
  many h := by
    obtain ⟨i, h1⟩ := not_short.1 h
    rw [lead_singleton_drop] at h1
    omega
  field h := by
    obtain ⟨- | i, h1⟩ := not_short.1 h
    · rw [List.drop_zero, lead_cons_succ] at h1
      omega
    · exact not_short.2 ⟨i, h1⟩
  run h := by
    obtain ⟨i, h1⟩ := not_short.1 h
    obtain ⟨j, h3, -⟩ := exists_long_drop h1
    exact not_short.2 ⟨j, h3⟩
  nullEnd {E P s pos len xs} w _ h := by
    have hn := w.chrsNullEnd chrs
    have hends : (bare ((chrsSep chrs).lens xs) &&
        decide (lead ((chrsSep chrs).lens xs) < 2 ^ 32)) = false := by
      rw [Bool.and_eq_false_imp]
      intro hb
      refine decide_eq_false fun hl => h (short_iff.2 ⟨fun i hi => ?_, (shortEnd_bare hb).2 hl⟩)
      exact absurd (hb.symm.trans (bare_of_drop hi)) Bool.true_eq_false_eq_False
    rwa [hends] at hn

/-! ## A list that stops no split -/

/-- So many sections more stop no split: there is room for them, or they are only counted. -/
def Sects.Takes (fl : SplitFlags) (n : Nat) (x : Sects) : Prop :=
  x.ptr.length + n ≤ x.sz ∨ (fl.noRet = false ∧ x = Sects.decl 0)

theorem Sects.Takes.mono {x : Sects} (h : x.Takes fl n) (hle : m ≤ n) : x.Takes fl m :=
  h.imp_left fun h => by omega

/-- The split is at another place, and so many sections more do not stop it. -/
def Goes (fl : SplitFlags) (n pos len : Nat) (r : Option Nat × SplitAt) : Prop :=
  ∃ added x, r = (none, ⟨pos, len, added, x⟩) ∧ x.Takes fl n

/-- A section is added or counted. -/
theorem splitAdd_goes (h : a.sects.Takes fl (n + 1)) (s : St) (pos len : Nat) :
    Ensures Reads (splitAdd fl pos len a) s (Goes fl n a.pos a.len) := by
  rcases h with h | ⟨hr, hx⟩
  · refine (splitAdd_yields s fl pos len (by omega)).ensures ⟨_, _, rfl, .inl ?_⟩
    rw [Sects.push, List.length_append, List.length_singleton]
    exact (show a.sects.ptr.length + 1 + n ≤ a.sects.sz by omega)
  · obtain ⟨p, l, added, x⟩ := a
    obtain ⟨remain, begNull, midNull, endNull, postNull, noRet⟩ := fl
    dsimp only at hr hx
    subst hr hx
    exact ⟨⟨added + 1, Sects.decl 0, rfl, .inr ⟨rfl, rfl⟩⟩, Std.Refl.refl s⟩

/-- Null fields are added, or passed over. -/
theorem splitNulls_goes (h : a.sects.Takes fl (k + n)) (s : St) (null : Bool)
    (hk : k * width ≤ a.len) :
    Ensures Reads (splitNulls fl null width k a) s
      (Goes fl n (a.pos + k * width) (a.len - k * width)) := by
  induction k generalizing a s with
  | zero =>
    rw [Nat.zero_mul]
    exact .pure s ⟨a.added, a.sects, rfl, h.mono (by omega)⟩
  | succ k ih =>
    rw [Nat.succ_mul] at hk ⊢
    have e : sizeSub a.len width = a.len - width := if_pos (by omega)
    have hadd : Ensures Reads (if null then splitAdd fl a.pos 0 a else pure (none, a)) s
        (Goes fl (k + n) a.pos a.len) := by
      cases null with
      | false => exact .pure s ⟨a.added, a.sects, rfl, h.mono (by omega)⟩
      | true => exact splitAdd_goes (h.mono (by omega)) s a.pos 0
    rw [splitNulls_succ]
    refine hadd.bind fun r t _ hr => ?_
    obtain ⟨added, x, rfl, hx⟩ := hr
    dsimp only
    rw [e]
    have hrest := ih (a := ⟨a.pos + width, a.len - width, added, x⟩) hx t (by dsimp only; omega)
    dsimp only at hrest
    rwa [Nat.add_assoc, Nat.add_comm width, Nat.sub_sub, Nat.add_comm width] at hrest

/-! ## The loop -/

/-- A place in fields that are never passed, in a split that no list stops. -/
structure SplitAt.Stalled (c : Sep (Option UInt8)) (Q : List Nat → Prop) (fl : SplitFlags)
    (orig : Nat) (xs : List (Option UInt8)) (a : SplitAt) : Prop where
  /-- The fields. -/
  fields : Q (c.lens xs)
  /-- The split began before it. -/
  orig_le : orig ≤ a.pos
  /-- The list. -/
  takes : a.sects.Takes fl (c.lens xs).length

/-- The next turn begins at such a place again. -/
def SplitAt.Stays (c : Sep (Option UInt8)) (Q : List Nat → Prop) (fl : SplitFlags) (orig : Nat)
    (xs : List (Option UInt8)) (a : SplitAt) (r : SplitTurn) : Prop :=
  ∃ p d a', r = .next p a' ∧ d ≤ a.len ∧ a'.pos = a.pos + d ∧ a'.len = a.len - d ∧
    a'.Stalled c Q fl orig (xs.drop d)

/-- A turn at a separator. -/
theorem SplitAt.Stalled.turnNull (h : a.Stalled c Q fl orig xs) (hf : seps.Finds c)
    (hq : seps.Stalls c Q) (w : Window E P t a.pos a.len xs) (hit : c.hit xs = true) :
    Ensures Reads (splitTurnNull seps fl 0 orig a.pos a) t (a.Stays c Q fl orig xs) := by
  obtain ⟨k, hk⟩ : ∃ k, lead (c.lens xs) % 2 ^ 32 = k := ⟨_, rfl⟩
  have hmod : k ≤ lead (c.lens xs) := by
    rw [← hk]
    exact Nat.mod_le _ _
  have hlead := lead_le_length (c.lens xs)
  obtain ⟨hd, hle⟩ := c.lens_drop hmod
  rw [w.length] at hle
  have hcount : splitCount fl 0 k a.added = k := if_neg (by simp)
  refine ((hq.nullEnd w hit h.fields).ensures rfl).bind fun r u _ hr => ?_
  subst hr
  dsimp only
  rw [hk, hcount, hf.len]
  refine (splitNulls_goes (n := (c.lens xs).length - k) (h.takes.mono (by omega)) u _ hle).bind
    fun r v _ hr => .pure v ?_
  obtain ⟨added, x, rfl, hx⟩ := hr
  refine ⟨a.pos, k * c.width, _, rfl, hle, rfl, rfl, ?_, Nat.le_add_right_of_le h.orig_le, ?_⟩
  · rw [hd, ← hk]
    exact hq.run h.fields
  · rw [hd, List.length_drop]
    exact hx

/-- A turn. -/
theorem SplitAt.Stalled.turn (h : a.Stalled c Q fl orig xs) (hf : seps.Finds c)
    (hq : seps.Stalls c Q) (w : Window E P t a.pos a.len xs) (splitPos : Nat) :
    Ensures Reads (splitTurn seps fl 0 orig splitPos a) t (a.Stays c Q fl orig xs) := by
  have hpos := w.one_le
  have hl := w.length
  have hw := c.width_pos
  have ho := h.orig_le
  have hlen : stretch c.width (c.lens xs) = a.len := by rw [c.stretch_lens, hl]
  obtain ⟨n, ns, e⟩ := List.exists_cons_of_ne_nil c.lens_ne_nil
  have hns : ns ≠ [] := by
    rintro rfl
    have hone := h.fields
    rw [e] at hone
    exact hq.many hone
  have hfound : foundAt a.pos (c.lens xs) = a.pos + n := by
    obtain ⟨m, ms, rfl⟩ := List.exists_cons_of_ne_nil hns
    rw [e]
    rfl
  have hstop : ¬ (a.len = 0 ∨ ((0 : Nat) ≠ 0 ∧ ¬ a.added <
      uintSub 0 (if fl.remain then 1 else 0))) := by
    rw [e, stretch_cons _ hns] at hlen
    rintro (h | h)
    · omega
    · exact h.1 rfl
  rw [splitTurn, if_neg hstop]
  refine ((hf.srch w).ensures rfl).bind fun r u hu hr => ?_
  subst hr
  rw [hfound, if_neg (by omega)]
  cases n with
  | zero =>
    rw [Nat.add_zero, if_pos (.inr rfl)]
    exact h.turnNull hf hq (w.reads hu) (c.hit_of_lens e hns)
  | succ n =>
    obtain ⟨hd, hle⟩ := c.lens_tail e hns
    rw [hl] at hle
    have hsub : sizeSub a.len (n + 1 + c.width) = a.len - (n + 1 + c.width) := if_pos hle
    have hfields := h.fields
    have htakes := h.takes
    rw [e] at hfields htakes
    rw [if_neg (by omega), splitHdlDef, Nat.add_sub_cancel_left, hf.len, bind_assoc]
    refine (splitAdd_goes htakes u _ _).bind fun r v _ hr => ?_
    obtain ⟨added, x, rfl, hx⟩ := hr
    dsimp only
    rw [hsub]
    refine .pure v ⟨a.pos + (n + 1), n + 1 + c.width, _, rfl, hle, rfl, rfl, ?_,
      Nat.le_add_right_of_le ho, ?_⟩
    · rw [hd]
      exact hq.field hfields
    · rw [hd]
      exact hx

/-- The loop does not end. -/
theorem SplitAt.Stalled.loop (h : a.Stalled c Q fl orig xs) (hf : seps.Finds c)
    (hq : seps.Stalls c Q) (w : Window E P t a.pos a.len xs) :
    ((splitLoop seps fl 0 orig fuel splitPos a).run t).1 = none := by
  induction fuel generalizing t a xs splitPos with
  | zero => rfl
  | succ fuel ih =>
    obtain ⟨hturn, r⟩ := h.turn hf hq w splitPos
    obtain ⟨p, d, a', h1, h2, h3, h4, h5⟩ := hturn
    have w' := (w.reads r).drop h2
    rw [← h3, ← h4] at w'
    rw [splitLoop_succ, run_bind, h1]
    exact ih h5 w'

/-- A call without a limit does not return. -/
theorem splitLoop_stalls (hf : seps.Finds c) (hq : seps.Stalls c Q) {pos len : Nat}
    (w : Window E P s pos len xs) (h : Q (c.lens xs)) {x : Sects}
    (hx : x.Takes fl (c.lens xs).length) (fuel : Nat) :
    ((splitLoop seps fl 0 pos fuel 0 ⟨pos, len, 0, x⟩).run s).1 = none :=
  SplitAt.Stalled.loop (a := ⟨pos, len, 0, x⟩) ⟨h, Nat.le_refl pos, hx⟩ hf hq w

end Vstr
