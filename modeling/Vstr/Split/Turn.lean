import Vstr.Split.Plan

/-!
# The loop of a split

The loop of `vstr_split_buf` and `vstr_split_chrs` adds the sections that the lengths of the
fields make it want, in a list of any kind.
-/

namespace Vstr

open Splice Query Separate

variable {E : Env} {P : Own} {s : St} {limit orig fuel count splitPos : Nat}
  {xs : List (Option UInt8)} {ys : List Sect} {fl : SplitFlags} {a : SplitAt}
  {seps : Seps} {c : Sep (Option UInt8)}

/-- What the loop makes of a turn. -/
def turnOn (seps : Seps) (fl : SplitFlags) (limit orig fuel : Nat) :
    SplitTurn → StateM St (Option (Nat × Sects))
  | .stuck => return none
  | .done ret => return some ret
  | .next splitPos a => splitLoop seps fl limit orig fuel splitPos a

theorem splitLoop_succ (seps : Seps) (fl : SplitFlags) (limit orig fuel splitPos : Nat)
    (a : SplitAt) : splitLoop seps fl limit orig (fuel + 1) splitPos a =
      splitTurn seps fl limit orig splitPos a >>= turnOn seps fl limit orig fuel := by
  rw [splitLoop]
  congr 1

/-- A last section. -/
theorem fills_last (s : St) (fl : SplitFlags) (add : Bool) (a : SplitAt) :
    Fills (do return some (← splitLast fl add a)) s
      (splitFill fl (if add then [⟨a.pos, a.len⟩] else []) a.added a.sects) := by
  cases add with
  | false => exact .pure s _
  | true =>
    have h : Fills (splitAdd fl a.pos a.len a >>= fun r =>
        pure (some (r.1.getD r.2.added, r.2.sects))) s
        (splitFill fl [⟨a.pos, a.len⟩] a.added a.sects) :=
      Fills.add (y := ⟨a.pos, a.len⟩) (fun _ _ => rfl) fun t x' _ => .pure t _
    have e : (do return some (← splitLast fl true a) : StateM St (Option (Nat × Sects))) =
        splitAdd fl a.pos a.len a >>= fun r =>
          pure (some (r.1.getD r.2.added, r.2.sects)) := by
      unfold splitLast
      rw [if_pos rfl, bind_assoc]
      congr 1
      funext r
      rcases r with ⟨- | ret, a⟩ <;> rfl
    rw [e]
    exact h

/-- `vstr__split_hdl_end`. -/
theorem fills_end (s : St) (fl : SplitFlags) (limit splitPos : Nat) (a : SplitAt) :
    Fills (do return some (← splitHdlEnd fl limit splitPos a)) s
      (splitFill fl (planEnd fl limit (decide (splitPos ≠ 0)) a.pos a.len a.added) a.added
        a.sects) := by
  have e : planEnd fl limit (decide (splitPos ≠ 0)) a.pos a.len a.added =
      if (if a.len ≠ 0 then decide (fl.remain = true ∨ splitPos = 0)
        else decide (fl.postNull = true ∧ (limit = 0 ∨ a.added < limit))) then
        [⟨a.pos, a.len⟩] else [] := by
    unfold planEnd
    by_cases h : a.len ≠ 0
    · simp only [if_pos h, decide_eq_true_eq, decide_eq_false_iff_not, ne_eq, not_not]
    · simp only [if_neg h, decide_eq_true_eq]
  rw [e]
  exact fills_last s fl _ a

/-- `vstr__split_hdl_null_end`. -/
theorem fills_nullEnd (s : St) (hg : Going fl limit a.added) {width : Nat}
    (hc : count * width ≤ a.len) :
    Fills (do return some (← splitHdlNullEnd fl width limit count a)) s
      (splitFill fl (planNullEnd fl limit width a.pos a.len count a.added) a.added a.sects) := by
  have hlast : ∀ (t : St) (a' : SplitAt), Fills (do
      return some (← splitLast fl ((a'.len ≠ 0 ∧ fl.remain) ∨ (a'.len = 0 ∧ fl.postNull)) a')) t
      (splitFill fl (if (a'.len ≠ 0 ∧ fl.remain = true) ∨ (a'.len = 0 ∧ fl.postNull = true) then
        [⟨a'.pos, a'.len⟩] else []) a'.added a'.sects) := by
    intro t a'
    have h := fills_last t fl ((a'.len ≠ 0 ∧ fl.remain) ∨ (a'.len = 0 ∧ fl.postNull)) a'
    simp only [decide_eq_true_eq] at h
    exact h
  unfold splitHdlNullEnd planNullEnd
  rw [splitCount_eq hg]
  dsimp only
  cases fl.endNull with
  | false =>
    rw [if_neg Bool.false_ne_true, bind_assoc]
    refine Fills.ask (Yields.pure s (none, a)) fun t _ => ?_
    dsimp only [Bool.false_eq_true, if_false]
    rw [if_neg Bool.false_ne_true, Nat.zero_mul]
    exact hlast t a
  | true =>
    rw [if_pos rfl, if_pos rfl, bind_assoc]
    refine Fills.nulls (fun _ _ => rfl)
      ((Nat.mul_le_mul_right _ (splitQuota_le hg)).trans hc) fun t x' _ => ?_
    exact hlast t ⟨_, _, _, x'⟩

/-- From any turn on, the loop adds what the plan says. -/
def LoopFills (seps : Seps) (c : Sep (Option UInt8)) (fl : SplitFlags) (limit orig fuel : Nat) :
    Prop :=
  ∀ {E : Env} {P : Own} {s : St} {splitPos : Nat} {a : SplitAt} {xs : List (Option UInt8)}
    {ys : List Sect}, Window E P s a.pos a.len xs → seps.Tells c (c.lens xs) → orig ≤ a.pos →
    (a.pos = orig → a.added = 0) →
    plan fl limit c.width orig fuel (decide (splitPos ≠ 0)) a.pos a.added (c.lens xs) = some ys →
    Fills (splitLoop seps fl limit orig fuel splitPos a) s (splitFill fl ys a.added a.sects)

/-- A turn with a field in front of the separator. -/
theorem fills_field {n : Nat} {ns : List Nat} (ih : LoopFills seps c fl limit orig fuel)
    (hf : seps.Finds c) (w : Window E P s a.pos a.len xs) (ht : seps.Tells c (c.lens xs))
    (ho : orig ≤ a.pos) (e : c.lens xs = (n + 1) :: ns) (hns : ns ≠ [])
    (hgo : ¬ (limit ≠ 0 ∧ ¬ a.added < splitRoom fl limit))
    (hp : plan fl limit c.width orig (fuel + 1) (decide (splitPos ≠ 0)) a.pos a.added
      ((n + 1) :: ns) = some ys) :
    Fills ((do return .of (a.pos + (n + 1)) (← splitHdlDef fl (a.pos + (n + 1)) seps.len a)) >>=
      turnOn seps fl limit orig fuel) s (splitFill fl ys a.added a.sects) := by
  have hl := w.length
  rw [plan_field hns hgo] at hp
  obtain ⟨zs, hz, rfl⟩ := Option.map_eq_some_iff.1 hp
  obtain ⟨hd, hle⟩ := c.lens_tail e hns
  rw [bind_assoc, splitHdlDef, hf.len, Nat.add_sub_cancel_left, bind_assoc]
  refine Fills.add (y := ⟨a.pos, n + 1⟩) (fun _ _ => rfl) fun u x' r => ?_
  have he : sizeSub a.len (n + 1 + c.width) = a.len - (n + 1 + c.width) := if_pos (by omega)
  dsimp only
  rw [he]
  refine ih (a := ⟨a.pos + (n + 1 + c.width), a.len - (n + 1 + c.width), a.added + 1, x'⟩)
    ((w.asks r).drop (by omega)) ?_ (by dsimp only; omega) (fun h => by dsimp only at h; omega) ?_
  · have ht' := ht.drop 1
    rwa [e, List.drop_one, List.tail_cons, ← hd] at ht'
  · rw [hd, decide_eq_true (show a.pos + (n + 1) ≠ 0 by omega)]
    exact hz

/-- A turn with separators only, up to the end. -/
theorem fills_bare {ns : List Nat} (hf : seps.Finds c) (w : Window E P s a.pos a.len xs)
    (h0 : a.pos = orig → a.added = 0) (e : c.lens xs = 0 :: ns) (hns : ns ≠ [])
    (hb : bare ns = true) (hgo : ¬ (limit ≠ 0 ∧ ¬ a.added < splitRoom fl limit))
    (hp : plan fl limit c.width orig (fuel + 1) (decide (splitPos ≠ 0)) a.pos a.added
      (0 :: ns) = some ys) :
    Fills ((if a.pos = orig ∧ ¬ fl.begNull then return .done (0, a.sects)
      else return .done (← splitHdlNullEnd fl seps.len limit (lead (0 :: ns) % 2 ^ 32) a)) >>=
      turnOn seps fl limit orig fuel) s (splitFill fl ys a.added a.sects) := by
  have hg : Going fl limit a.added := not_not.1 fun h => hgo (not_going_iff.1 h)
  rw [plan_bare hns c.width_pos hb hgo] at hp
  by_cases hret : a.pos = orig ∧ ¬ fl.begNull = true
  · rw [if_pos hret] at hp ⊢
    obtain rfl := Option.some.inj hp
    rw [← h0 hret.1]
    exact .pure s (a.added, a.sects)
  · rw [if_neg hret] at hp ⊢
    obtain rfl := Option.some.inj hp
    obtain ⟨k, -, -, hkl, hk, -⟩ := c.exists_run xs
    rw [e] at hk
    rw [← e, c.stretch_lens, w.length, e, hf.len, bind_assoc]
    refine fills_nullEnd s hg ((Nat.mul_le_mul_right _ (Nat.mod_le _ _)).trans ?_)
    rw [hk, ← w.length]
    exact hkl

/-- A turn with separators in front of more. -/
theorem fills_null {ns : List Nat} (ih : LoopFills seps c fl limit orig fuel) (hf : seps.Finds c)
    (w : Window E P s a.pos a.len xs) (ht : seps.Tells c (c.lens xs)) (ho : orig ≤ a.pos)
    (h0 : a.pos = orig → a.added = 0) (e : c.lens xs = 0 :: ns) (hns : ns ≠ [])
    (hb : bare ns = false) (hgo : ¬ (limit ≠ 0 ∧ ¬ a.added < splitRoom fl limit))
    (hp : plan fl limit c.width orig (fuel + 1) (decide (splitPos ≠ 0)) a.pos a.added
      (0 :: ns) = some ys) :
    Fills ((do return .of a.pos (← splitNulls fl (if a.pos = orig then fl.begNull else fl.midNull)
      seps.len (splitCount fl limit (lead (0 :: ns) % 2 ^ 32) a.added) a)) >>=
      turnOn seps fl limit orig fuel) s (splitFill fl ys a.added a.sects) := by
  have hpos := w.one_le
  have hl := w.length
  have hg : Going fl limit a.added := not_not.1 fun h => hgo (not_going_iff.1 h)
  rw [plan_null hns c.width_pos hb hgo rfl rfl] at hp
  obtain ⟨zs, hz, rfl⟩ := Option.map_eq_some_iff.1 hp
  obtain ⟨q, hq⟩ : ∃ q, splitQuota fl limit (lead (0 :: ns) % 2 ^ 32) a.added = q := ⟨_, rfl⟩
  have hql : q ≤ lead (0 :: ns) := by
    rw [← hq]
    exact (splitQuota_le hg).trans (Nat.mod_le _ _)
  obtain ⟨hd, hle⟩ := c.lens_drop (k := q) (by rw [e]; exact hql)
  rw [hq] at hz ⊢
  rw [splitCount_eq hg, hq, hf.len, bind_assoc]
  refine Fills.nulls (fun _ _ => rfl) (by rw [← hl]; exact hle) fun v x' r => ?_
  refine ih (a := ⟨_, _, _, x'⟩) ((w.asks r).drop (by rw [← hl]; exact hle)) ?_
    (by dsimp only; omega) (fun h => ?_) ?_
  · rw [hd]
    exact ht.drop _
  · have hp0 : a.pos = orig := by
      dsimp only at h
      omega
    have hq0 : q = 0 := by
      by_contra hq0
      have := Nat.mul_pos (Nat.pos_of_ne_zero hq0) c.width_pos
      dsimp only at h
      omega
    rw [hq0, ite_self, Nat.add_zero]
    exact h0 hp0
  · rw [hd, e, decide_eq_true (show a.pos ≠ 0 by omega)]
    exact hz

/-- The loop adds what the plan says. -/
theorem splitLoop_fills (hf : seps.Finds c) (w : Window E P s a.pos a.len xs)
    (ht : seps.Tells c (c.lens xs)) (ho : orig ≤ a.pos) (h0 : a.pos = orig → a.added = 0)
    (hp : plan fl limit c.width orig fuel (decide (splitPos ≠ 0)) a.pos a.added (c.lens xs) =
      some ys) :
    Fills (splitLoop seps fl limit orig fuel splitPos a) s
      (splitFill fl ys a.added a.sects) := by
  induction fuel generalizing E P s splitPos a xs ys with
  | zero => cases hp
  | succ fuel ih =>
    have next : LoopFills seps c fl limit orig fuel := ih
    have hlen : stretch c.width (c.lens xs) = a.len := by rw [c.stretch_lens, w.length]
    rw [splitLoop_succ, splitTurn]
    by_cases hstop : a.len = 0 ∨ (limit ≠ 0 ∧ ¬ a.added <
        uintSub limit (if fl.remain then 1 else 0))
    · rw [if_pos hstop]
      rw [plan_stop, hlen] at hp
      · obtain rfl := Option.some.inj hp
        exact fills_end s fl limit splitPos a
      · rw [hlen]
        refine hstop.imp_right fun h => ⟨h.1, ?_⟩
        rw [← room_eq h.1]
        exact h.2
    have hgo : ¬ (limit ≠ 0 ∧ ¬ a.added < splitRoom fl limit) := fun h =>
      hstop (.inr ⟨h.1, by rw [room_eq h.1]; exact h.2⟩)
    rw [if_neg hstop, bind_assoc]
    refine Fills.ask (hf.srch w) fun t r => ?_
    have wt := w.reads r
    obtain ⟨n, ns, e⟩ := List.exists_cons_of_ne_nil c.lens_ne_nil
    rw [e] at hp hlen
    by_cases hns : ns = []
    · subst hns
      obtain rfl : n = a.len := hlen
      rw [plan_one (fun h => hstop (.inl h)) hgo] at hp
      obtain rfl := Option.some.inj hp
      rw [e]
      exact fills_end t fl limit 0 a
    have hfound : foundAt a.pos (c.lens xs) = a.pos + n := by
      obtain ⟨m, ms, rfl⟩ := List.exists_cons_of_ne_nil hns
      rw [e]
      rfl
    have hpos := w.one_le
    rw [hfound, if_neg (by omega)]
    cases n with
    | succ n =>
      rw [if_neg (by omega)]
      exact fills_field next hf wt ht ho e hns hgo hp
    | zero =>
      rw [Nat.add_zero, if_pos (.inr rfl), splitTurnNull, bind_assoc]
      refine Fills.ask (ht.nullEnd wt (c.hit_of_lens e hns) ⟨0, rfl⟩) fun u r' => ?_
      rw [e, bare_cons_zero]
      cases hb : bare ns with
      | true => exact fills_bare hf (wt.reads r') h0 e hns hb hgo hp
      | false => exact fills_null next hf (wt.reads r') ht ho h0 e hns hb hgo hp

end Vstr
