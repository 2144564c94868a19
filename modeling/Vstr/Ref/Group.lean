import Mathlib.Data.Nat.Count
import Mathlib.Data.Set.Insert
import Vstr.Lib.Run
import Vstr.Model.RefGrp

/-!
# The allocator of references

A slot of a group is free, or it is that of a reference. The references of a group lie below
`make_num`, the one at the top among them, and `free_num` counts the slots between them. A
group is written only while it is there: the configuration points to it, or some reference
of it is left.
-/

namespace Vstr.Grp

open Runs

variable {w w' : Grps} {busy : Set (Nat × Nat)} {g off m : Nat} {p : RefGrp} {f : RefFunc}
  {refs : Nat → Bool} {r : Nat × Nat} {s : State}

/-! ## The slots of one group -/

/-- The free slots below `m`. -/
def freeSlots (refs : Nat → Bool) (m : Nat) : Nat := Nat.count (fun i => refs i = false) m

theorem freeSlots_succ (refs : Nat → Bool) (m : Nat) :
    freeSlots refs (m + 1) = freeSlots refs m + if refs m = false then 1 else 0 :=
  Nat.count_succ _ _

theorem freeSlots_update_of_le (refs : Nat → Bool) (b : Bool) (h : m ≤ off) :
    freeSlots (Function.update refs off b) m = freeSlots refs m := by
  induction m with
  | zero => rfl
  | succ m ih =>
    rw [freeSlots_succ, freeSlots_succ, ih (by omega), Function.update_of_ne (by omega)]

/-- A reference less is a free slot more. -/
theorem freeSlots_free (ho : off < m) (hr : refs off = true) :
    freeSlots (Function.update refs off false) m = freeSlots refs m + 1 := by
  induction m with
  | zero => omega
  | succ m ih =>
    rw [freeSlots_succ, freeSlots_succ]
    by_cases h : off = m
    · subst h
      rw [freeSlots_update_of_le refs false (Nat.le_refl _), Function.update_self, hr]
      simp
    · rw [ih (by omega), Function.update_of_ne (Ne.symm h)]
      omega

theorem freeSlots_le (refs : Nat → Bool) (m : Nat) : freeSlots refs m ≤ m := Nat.count_le _

/-- All slots are free. -/
theorem freeSlots_eq_iff (refs : Nat → Bool) (m : Nat) :
    freeSlots refs m = m ↔ ∀ i < m, refs i = false := by
  induction m with
  | zero => simp [freeSlots]
  | succ m ih =>
    have hle := freeSlots_le refs m
    rw [freeSlots_succ, Nat.forall_lt_succ_right, ← ih]
    cases refs m <;> simp
    omega

/-- A group between two events. -/
structure RefGrp.Ok (p : RefGrp) : Prop where
  /-- There are so many slots. -/
  le : p.makeNum ≤ refGrpMakeSz
  /-- The free slots are counted. -/
  count : p.freeNum = freeSlots p.refs p.makeNum
  /-- The slot at the top is that of a reference. -/
  top : 0 < p.makeNum → p.refs (p.makeNum - 1) = true

/-- The loop ends below the first slot from the top that is that of a reference. -/
theorem refGrpShrink_spec (h : ∃ i < m, refs i = true) :
    ∃ k, 0 < k ∧ k ≤ m ∧ refs (k - 1) = true ∧ (∀ i, k ≤ i → i < m → refs i = false) ∧
      refGrpShrink refs m (freeSlots refs m) = some (k, freeSlots refs k) := by
  induction m with
  | zero =>
    obtain ⟨i, hi, -⟩ := h
    omega
  | succ m ih =>
    rw [refGrpShrink]
    by_cases hm : refs m = true
    · rw [if_pos hm]
      exact ⟨m + 1, by omega, Nat.le_refl _, hm, fun i h1 h2 => by omega, rfl⟩
    · rw [if_neg hm]
      have hm' : refs m = false := by simpa using hm
      obtain ⟨i, hi, hr⟩ := h
      have hne : i ≠ m := by
        rintro rfl
        exact hm hr
      obtain ⟨k, h0, hk, ht, hall, e⟩ := ih ⟨i, by omega, hr⟩
      refine ⟨k, h0, by omega, ht, fun j h1 h2 => ?_, ?_⟩
      · by_cases hj : j = m
        · exact hj ▸ hm'
        · exact hall j h1 (by omega)
      · rw [freeSlots_succ, if_pos hm', Nat.add_sub_cancel, e]

/-! ## All groups -/

/-- The groups between two events; the slots in `busy` are those of references. -/
structure Grps.Ok (w : Grps) (busy : Set (Nat × Nat)) : Prop where
  /-- Each group is right. -/
  grp : ∀ g p, w.grp g = some p → p.Ok
  /-- The flag says whether the configuration points to the group. -/
  flag : ∀ g p, w.grp g = some p → (p.flag = true ↔ w.ptr p.func = some g)
  /-- A group that is left alone has references. -/
  held : ∀ g p, w.grp g = some p → p.flag = false → 0 < p.makeNum
  /-- The references are in groups that are there. -/
  busy : ∀ g off, (g, off) ∈ busy ↔
    ∃ p, w.grp g = some p ∧ off < p.makeNum ∧ p.refs off = true
  /-- The pointers name groups with their callback. -/
  ptr : ∀ f g, w.ptr f = some g → ∃ p, w.grp g = some p ∧ p.func = f
  /-- A group that is there was made, and not given back. -/
  there : ∀ g p, w.grp g = some p → g < w.made ∧ w.freed g = 0
  /-- A group that is not there any more was given back once. -/
  gone : ∀ g, w.grp g = none → g < w.made → w.freed g = 1
  /-- What was not made was not given back. -/
  fresh : ∀ g, w.made ≤ g → w.freed g = 0

theorem Grps.Ok.mem (h : w.Ok busy) (hg : w.grp g = some p) :
    (g, off) ∈ busy ↔ off < p.makeNum ∧ p.refs off = true := by
  rw [h.busy]
  constructor
  · rintro ⟨p', e, hp⟩
    obtain rfl := Option.some.inj (e.symm.trans hg)
    exact hp
  · exact fun hp => ⟨p, hg, hp⟩

theorem Grps.Ok.func (h : w.Ok busy) (hg : w.grp g = some p) (hf : w.ptr f = some g) :
    p.func = f := by
  obtain ⟨p', e, hp⟩ := h.ptr f g hf
  obtain rfl := Option.some.inj (e.symm.trans hg)
  exact hp

theorem Grps.Ok.ptr_func (h : w.Ok busy) (hg : w.grp g = some p) (hf : w.ptr f = some g) :
    p.flag = true := by
  rw [h.flag g p hg, h.func hg hf]
  exact hf

/-- What the groups are once a group is written, and the pointer to it moved. -/
theorem Grps.Ok.write {busy' : Set (Nat × Nat)} {q : RefGrp} {ptr : RefFunc → Option Nat}
    (h : w.Ok busy) (hg : w.grp g = some p) (hq : q.Ok) (hfunc : q.func = p.func)
    (hflag : q.flag = true ↔ ptr q.func = some g) (hheld : q.flag = false → 0 < q.makeNum)
    (hother : ∀ f g', g' ≠ g → (ptr f = some g' ↔ w.ptr f = some g'))
    (hself : ∀ f, ptr f = some g → w.ptr f = some g)
    (hmem : ∀ off, (g, off) ∈ busy' ↔ off < q.makeNum ∧ q.refs off = true)
    (hrest : ∀ g' off, g' ≠ g → ((g', off) ∈ busy' ↔ (g', off) ∈ busy)) :
    ({ w.set g q with ptr := ptr } : Grps).Ok busy' where
  grp g' p' e := by
    by_cases hgg : g' = g
    · subst hgg
      obtain rfl : q = p' := by simpa [Grps.set] using e
      exact hq
    · exact h.grp g' p' (by simpa [Grps.set, hgg] using e)
  flag g' p' e := by
    by_cases hgg : g' = g
    · subst hgg
      obtain rfl : q = p' := by simpa [Grps.set] using e
      exact hflag
    · rw [h.flag g' p' (by simpa [Grps.set, hgg] using e)]
      exact (hother _ _ hgg).symm
  held g' p' e := by
    by_cases hgg : g' = g
    · subst hgg
      obtain rfl : q = p' := by simpa [Grps.set] using e
      exact hheld
    · exact h.held g' p' (by simpa [Grps.set, hgg] using e)
  busy g' off := by
    by_cases hgg : g' = g
    · subst hgg
      rw [hmem]
      simp [Grps.set]
    · rw [hrest _ _ hgg, h.busy]
      simp [Grps.set, hgg]
  ptr f g' e := by
    by_cases hgg : g' = g
    · subst hgg
      refine ⟨q, by simp [Grps.set], ?_⟩
      rw [hfunc]
      exact h.func hg (hself f e)
    · obtain ⟨p', e', hp⟩ := h.ptr f g' ((hother f g' hgg).mp e)
      exact ⟨p', by simpa [Grps.set, hgg] using e', hp⟩
  there g' p' e := by
    by_cases hgg : g' = g
    · subst hgg
      exact h.there g' p hg
    · exact h.there g' p' (by simpa [Grps.set, hgg] using e)
  gone g' e := by
    by_cases hgg : g' = g
    · subst hgg
      simp [Grps.set] at e
    · exact h.gone g' (by simpa [Grps.set, hgg] using e)
  fresh := h.fresh

/-- What the groups are once a group is given back. -/
theorem Grps.Ok.give {busy' : Set (Nat × Nat)} {ptr : RefFunc → Option Nat}
    (h : w.Ok busy) (hg : w.grp g = some p)
    (hother : ∀ f g', g' ≠ g → (ptr f = some g' ↔ w.ptr f = some g'))
    (hself : ∀ f, ptr f ≠ some g) (hmem : ∀ off, (g, off) ∉ busy')
    (hrest : ∀ g' off, g' ≠ g → ((g', off) ∈ busy' ↔ (g', off) ∈ busy)) :
    ({ w.without g with ptr := ptr } : Grps).Ok busy' := by
  have hgm := (h.there g p hg).1
  constructor
  · intro g' p' e
    by_cases hgg : g' = g
    · subst hgg
      simp [Grps.without] at e
    · exact h.grp g' p' (by simpa [Grps.without, hgg] using e)
  · intro g' p' e
    by_cases hgg : g' = g
    · subst hgg
      simp [Grps.without] at e
    · rw [h.flag g' p' (by simpa [Grps.without, hgg] using e)]
      exact (hother _ _ hgg).symm
  · intro g' p' e
    by_cases hgg : g' = g
    · subst hgg
      simp [Grps.without] at e
    · exact h.held g' p' (by simpa [Grps.without, hgg] using e)
  · intro g' off
    by_cases hgg : g' = g
    · subst hgg
      simp [Grps.without, hmem]
    · rw [hrest _ _ hgg, h.busy]
      simp [Grps.without, hgg]
  · intro f g' e
    have hgg : g' ≠ g := by
      rintro rfl
      exact hself f e
    obtain ⟨p', e', hp⟩ := h.ptr f g' ((hother f g' hgg).mp e)
    exact ⟨p', by simpa [Grps.without, hgg] using e', hp⟩
  · intro g' p' e
    by_cases hgg : g' = g
    · subst hgg
      simp [Grps.without] at e
    · obtain ⟨h1, h2⟩ := h.there g' p' (by simpa [Grps.without, hgg] using e)
      exact ⟨h1, by simpa [Grps.without, hgg] using h2⟩
  · intro g' e hlt
    by_cases hgg : g' = g
    · subst hgg
      simp [Grps.without, (h.there g' p hg).2]
    · have := h.gone g' (by simpa [Grps.without, hgg] using e) hlt
      simpa [Grps.without, hgg] using this
  · intro g' hle
    have hgg : g' ≠ g := by
      rintro rfl
      exact absurd hgm (Nat.not_lt.mpr hle)
    simpa [Grps.without, hgg] using h.fresh g' hle

/-- A new group. -/
theorem Grps.Ok.make (h : w.Ok busy) (hf : w.ptr f = none) (refs : Nat → Bool) :
    ({ w.set w.made ⟨0, 0, true, f, refs⟩ with
        made := w.made + 1
        ptr := Function.update w.ptr f (some w.made) } : Grps).Ok busy := by
  have hnone : w.grp w.made = none := by
    cases e : w.grp w.made with
    | none => rfl
    | some p => exact absurd (h.there _ p e).1 (Nat.lt_irrefl _)
  have hlt : ∀ {g' : Nat} {p'}, w.grp g' = some p' → g' ≠ w.made := by
    rintro g' p' e rfl
    rw [hnone] at e
    cases e
  constructor
  · intro g' p' e
    by_cases hgg : g' = w.made
    · subst hgg
      obtain rfl : _ = p' := by simpa [Grps.set] using e
      exact ⟨Nat.zero_le _, rfl, fun h0 => absurd h0 (Nat.lt_irrefl _)⟩
    · exact h.grp g' p' (by simpa [Grps.set, hgg] using e)
  · intro g' p' e
    by_cases hgg : g' = w.made
    · subst hgg
      obtain rfl : _ = p' := by simpa [Grps.set] using e
      simp
    · have e' : w.grp g' = some p' := by simpa [Grps.set, hgg] using e
      rw [h.flag g' p' e']
      by_cases hff : p'.func = f
      · have hw : w.made ≠ g' := Ne.symm hgg
        simp [hff, hf, hw]
      · simp [hff]
  · intro g' p' e hfl
    by_cases hgg : g' = w.made
    · subst hgg
      obtain rfl : _ = p' := by simpa [Grps.set] using e
      cases hfl
    · exact h.held g' p' (by simpa [Grps.set, hgg] using e) hfl
  · intro g' off
    rw [h.busy]
    by_cases hgg : g' = w.made
    · subst hgg
      simp [Grps.set, hnone]
    · simp [Grps.set, hgg]
  · intro f' g' e
    by_cases hff : f' = f
    · subst hff
      obtain rfl : w.made = g' := by simpa using e
      exact ⟨⟨0, 0, true, f', refs⟩, by simp [Grps.set], rfl⟩
    · have e' : w.ptr f' = some g' := by simpa [hff] using e
      obtain ⟨p', hp, hq⟩ := h.ptr f' g' e'
      exact ⟨p', by simpa [Grps.set, hlt hp] using hp, hq⟩
  · intro g' p' e
    by_cases hgg : g' = w.made
    · subst hgg
      exact ⟨Nat.lt_succ_self _, h.fresh _ (Nat.le_refl _)⟩
    · obtain ⟨h1, h2⟩ := h.there g' p' (by simpa [Grps.set, hgg] using e)
      exact ⟨Nat.lt_succ_of_lt h1, h2⟩
  · intro g' e hlt'
    by_cases hgg : g' = w.made
    · subst hgg
      simp [Grps.set] at e
    · refine h.gone g' (by simpa [Grps.set, hgg] using e) ?_
      have : g' < w.made + 1 := hlt'
      omega
  · intro g' hle
    exact h.fresh g' (Nat.le_of_succ_le hle)

/-! ## The functions -/

theorem Grps.withPtr_self (w : Grps) : ({ w with ptr := w.ptr } : Grps) = w := rfl

/-- A group that the configuration does not point to any more. -/
theorem Grps.Ok.free (h : w.Ok busy) (hf : w.ptr f = some g) :
    ∃ w', refGrpFree w (some g) = some w' ∧ w'.ptr = w.ptr ∧
      ({ w' with ptr := Function.update w.ptr f none } : Grps).Ok busy := by
  obtain ⟨p, hg, rfl⟩ := h.ptr f g hf
  have hother : ∀ f' g', g' ≠ g →
      (Function.update w.ptr p.func none f' = some g' ↔ w.ptr f' = some g') := by
    intro f' g' hne
    by_cases hff : f' = p.func
    · subst hff
      rw [Function.update_self, hf]
      simp [Ne.symm hne]
    · rw [Function.update_of_ne hff]
  have hself : ∀ f', Function.update w.ptr p.func none f' ≠ some g := by
    intro f' e
    by_cases hff : f' = p.func
    · subst hff
      rw [Function.update_self] at e
      cases e
    · rw [Function.update_of_ne hff] at e
      exact hff (h.func hg e).symm
  rw [refGrpFree, hg, Option.bind_some]
  by_cases h0 : p.makeNum = 0
  · rw [if_pos h0, Grps.release, hg]
    refine ⟨_, rfl, rfl, h.give hg hother hself (fun off hm => ?_) fun _ _ _ => Iff.rfl⟩
    have := ((h.mem hg).mp hm).1
    omega
  · rw [if_neg h0]
    have hp := h.grp g p hg
    refine ⟨_, rfl, rfl, h.write hg ⟨hp.le, hp.count, hp.top⟩ rfl ?_ (fun _ => ?_) hother
      (fun f' e => absurd e (hself f')) (fun off => (h.mem (p := p) hg)) fun _ _ _ => Iff.rfl⟩
    · exact iff_of_false (by simp) (hself p.func)
    · exact Nat.pos_of_ne_zero h0

/-- The next slot of a group with room. -/
theorem Grps.Ok.take (h : w.Ok busy) (hg : w.grp g = some p) (hlt : p.makeNum < refGrpMakeSz) :
    ∃ w', refGrpTake w g = some (some (g, p.makeNum), w') ∧ (g, p.makeNum) ∉ busy ∧
      w'.Ok (insert (g, p.makeNum) busy) := by
  have hp := h.grp g p hg
  rw [refGrpTake, hg]
  refine ⟨_, rfl, fun hm => absurd ((h.mem hg).mp hm).1 (Nat.lt_irrefl _), ?_⟩
  rw [← Grps.withPtr_self (w.set g _)]
  refine h.write hg ⟨hlt, ?_, fun _ => ?_⟩ rfl (h.flag g p hg) (fun _ => Nat.succ_pos _)
    (fun _ _ _ => Iff.rfl) (fun _ e => e) (fun off => ?_) fun g' off hne => ?_
  · simp [freeSlots_succ, freeSlots_update_of_le, hp.count]
  · simp
  · by_cases hoff : off = p.makeNum
    · subst hoff
      simp
    · have hne : (g, off) ≠ (g, p.makeNum) := fun e => hoff (Prod.mk.inj e).2
      rw [Set.mem_insert_iff, or_iff_right hne, h.mem hg]
      simp only [Function.update_of_ne hoff]
      refine and_congr_left fun _ => ?_
      omega
  · have hne' : (g', off) ≠ (g, p.makeNum) := fun e => hne (Prod.mk.inj e).1
    rw [Set.mem_insert_iff, or_iff_right hne']

/-- A reference that was handed out has a slot of its own. -/
def Handed (busy : Set (Nat × Nat)) (res : Option (Nat × Nat)) (w : Grps) : Prop :=
  match res with
  | none => w.Ok busy
  | some r => r ∉ busy ∧ w.Ok (insert r busy)

/-- `vstr__ref_grp_add`. -/
theorem Grps.Ok.add (h : w.Ok busy) (hf : w.ptr f = some g) (mem : Option (Nat → Bool)) :
    ∃ res w', refGrpAdd w f mem = some (res, w') ∧ Handed busy res w' := by
  obtain ⟨p, hg, rfl⟩ := h.ptr f g hf
  have hp := h.grp g p hg
  rw [refGrpAdd, hf, Option.bind_some, hg, Option.bind_some]
  by_cases hfull : p.makeNum = refGrpMakeSz
  · rw [if_pos hfull]
    cases mem with
    | none => exact ⟨none, w, rfl, h⟩
    | some refs =>
      have hgm : w.made ≠ g := Nat.ne_of_gt (h.there g p hg).1
      have hp0 : p.makeNum ≠ 0 := by
        rw [hfull]
        decide
      obtain ⟨w₁, e₁, -, ok₁⟩ := h.free hf
      rw [refGrpFree, hg, Option.bind_some, if_neg hp0] at e₁
      obtain rfl := Option.some.inj e₁
      have ok₂ := ok₁.make (f := p.func) (Function.update_self _ _ _) refs
      have hg' : (w.set w.made ⟨0, 0, true, p.func, refs⟩).grp g = some p := by
        dsimp only [Grps.set]
        rw [Function.update_of_ne (Ne.symm hgm), hg]
      simp only [refGrpMake, refGrpFree, hg', Option.bind_some, if_neg hp0]
      have e : ({ ({ w.set w.made ⟨0, 0, true, p.func, refs⟩ with made := w.made + 1 } : Grps).set g
          { p with flag := false } with
          ptr := Function.update w.ptr p.func (some w.made) } : Grps) =
          { ({ w.set g { p with flag := false } with
            ptr := Function.update w.ptr p.func none } : Grps).set w.made
              ⟨0, 0, true, p.func, refs⟩ with
            made := w.made + 1
            ptr := Function.update (Function.update w.ptr p.func none) p.func (some w.made) } := by
        simp only [Grps.set, Function.update_idem]
        rw [Function.update_comm hgm]
      obtain ⟨w', et, hn, ok⟩ := ok₂.take (g := w.made) (p := ⟨0, 0, true, p.func, refs⟩)
        (by simp [Grps.set]) (show 0 < refGrpMakeSz by decide)
      refine ⟨some (w.made, 0), w', ?_, hn, ok⟩
      exact (congrArg (refGrpTake · w.made) e).trans et
  · rw [if_neg hfull]
    obtain ⟨w', e, hn, ok⟩ := h.take hg (Nat.lt_of_le_of_ne hp.le hfull)
    exact ⟨some (g, p.makeNum), w', e, hn, ok⟩

/-- A reference is asked for. -/
theorem Grps.Ok.use (h : w.Ok busy) (f : RefFunc) (mem mem' : Option (Nat → Bool)) :
    ∃ res w', refGrpUse w f mem mem' = some (res, w') ∧ Handed busy res w' := by
  rw [refGrpUse]
  cases hf : w.ptr f with
  | some g => exact h.add hf mem'
  | none =>
    cases mem with
    | none => exact ⟨none, w, rfl, h⟩
    | some refs => exact (h.make hf refs).add (Function.update_self _ _ _) mem'

/-- `vstr__ref_cb_free_grp_main`, behind the call of `func`. -/
theorem Grps.Ok.done (h : w.Ok busy) (hr : (g, off) ∈ busy) :
    ∃ w', cbFreeGrpDone w g off = some w' ∧ w'.ptr = w.ptr ∧ w'.Ok (busy \ {(g, off)}) := by
  obtain ⟨p, hg, hlt, hlive⟩ := (h.busy g off).mp hr
  have hp := h.grp g p hg
  have hcount := freeSlots_free hlt hlive
  have hrest : ∀ g' off', g' ≠ g → ((g', off') ∈ busy \ {(g, off)} ↔ (g', off') ∈ busy) := by
    intro g' off' hne
    have hne' : (g', off') ≠ (g, off) := fun e => hne (Prod.mk.inj e).1
    simp [hne']
  have hmem : ∀ off', (g, off') ∈ busy \ {(g, off)} ↔
      off' < p.makeNum ∧ Function.update p.refs off false off' = true := by
    intro off'
    by_cases ho : off' = off
    · subst ho
      simp
    · have hne : (g, off') ≠ (g, off) := fun e => ho (Prod.mk.inj e).2
      rw [Set.mem_sdiff, Set.mem_singleton_iff, and_iff_left hne, h.mem hg,
        Function.update_of_ne ho]
  rw [cbFreeGrpDone, hg, Option.bind_some, hp.count, ← hcount]
  by_cases hall : freeSlots (Function.update p.refs off false) p.makeNum = p.makeNum
  · rw [if_pos hall]
    rw [freeSlots_eq_iff] at hall
    have hnone : ∀ off', (g, off') ∉ busy \ {(g, off)} := by
      intro off' hm
      obtain ⟨h1, h2⟩ := (hmem off').mp hm
      rw [hall off' h1] at h2
      cases h2
    by_cases hfl : p.flag = true
    · rw [if_pos hfl, ← Grps.withPtr_self (w.set g _)]
      refine ⟨_, rfl, rfl, h.write hg
        ⟨Nat.zero_le _, rfl, fun h0 => absurd h0 (Nat.lt_irrefl _)⟩ rfl (h.flag g p hg)
        (fun e => absurd (hfl.symm.trans e) (by decide)) (fun _ _ _ => Iff.rfl) (fun _ e => e)
        (fun off' => ?_) hrest⟩
      exact iff_of_false (hnone off') (fun hm => Nat.not_lt_zero _ hm.1)
    · rw [if_neg hfl, Grps.release, hg, ← Grps.withPtr_self (w.without g)]
      exact ⟨_, rfl, rfl, h.give hg (fun _ _ _ => Iff.rfl) (fun f e => hfl (h.ptr_func hg e)) hnone
        hrest⟩
  · rw [if_neg hall]
    rw [freeSlots_eq_iff] at hall
    push Not at hall
    obtain ⟨i, hi, hri⟩ := hall
    obtain ⟨k, h0, hk, htop, hfree, e⟩ := refGrpShrink_spec (m := p.makeNum)
      ⟨i, hi, by simpa using hri⟩
    rw [e, Option.map_some, ← Grps.withPtr_self (w.set g _)]
    refine ⟨_, rfl, rfl, h.write hg ⟨Nat.le_trans hk hp.le, rfl, fun _ => htop⟩ rfl (h.flag g p hg)
      (fun _ => h0) (fun _ _ _ => Iff.rfl) (fun _ e => e) (fun off' => ?_) hrest⟩
    rw [hmem]
    refine and_congr_left fun hr' => ⟨fun h1 => ?_, fun h1 => Nat.lt_of_lt_of_le h1 hk⟩
    by_contra h2
    rw [hfree off' (Nat.not_lt.mp h2) h1] at hr'
    cases hr'

/-- Freeing a group does not look at the pointers. -/
theorem refGrpFree_ptr (w : Grps) (o : Option Nat) (ptr : RefFunc → Option Nat) :
    refGrpFree { w with ptr := ptr } o =
      (refGrpFree w o).map fun w => { w with ptr := ptr } := by
  cases o with
  | none => rfl
  | some g =>
    simp only [refGrpFree, Grps.release]
    cases w.grp g with
    | none => rfl
    | some p =>
      simp only [Option.bind_some, Option.map_some]
      split <;> rfl

theorem Grps.Ok.freePtr (h : w.Ok busy) (f : RefFunc) :
    ∃ w', refGrpFree w (w.ptr f) = some w' ∧ w'.ptr = w.ptr ∧
      ({ w' with ptr := Function.update w.ptr f none } : Grps).Ok busy := by
  cases hf : w.ptr f with
  | some g => exact h.free hf
  | none =>
    refine ⟨w, rfl, rfl, ?_⟩
    rw [← hf, Function.update_eq_self]
    exact h

/-- `vstr__del_conf`. -/
theorem Grps.Ok.delConf (h : w.Ok busy) :
    ∃ w', delConfGrps w = some w' ∧ w'.Ok busy ∧ ∀ f, w'.ptr f = none := by
  obtain ⟨w₁, e₁, hp₁, ok₁⟩ := h.freePtr .nothing
  obtain ⟨w₂, e₂, hp₂, ok₂⟩ := ok₁.freePtr .relink
  rw [refGrpFree_ptr] at e₂
  obtain ⟨w₃, e₃, rfl⟩ := Option.map_eq_some_iff.mp e₂
  have hr : w₁.ptr .relink = Function.update w.ptr .nothing none .relink := by
    rw [Function.update_of_ne (by decide), hp₁]
  refine ⟨{ w₃ with ptr := fun _ => none }, ?_, ?_, fun _ => rfl⟩
  · rw [delConfGrps, e₁, Option.bind_some, hr, e₃, Option.map_some]
  · have e : Function.update (Function.update w.ptr .nothing none) .relink none =
        fun _ => none := by
      funext f
      cases f <;> simp
    rw [← e]
    exact ok₂

/-! ## Runs -/

/-- The references whose slots are taken. -/
def State.taken (s : State) : Set (Nat × Nat) := { r | r ∈ s.dying ∨ r ∈ s.live }

/-- What holds between two events. -/
structure State.Ok (s : State) : Prop where
  /-- The groups are right. -/
  grps : s.grps.Ok s.taken
  /-- No reference is there twice. -/
  nodup : (s.dying ++ s.live).Nodup
  /-- Without a configuration there are no pointers. -/
  conf : s.conf = false → ∀ f, s.grps.ptr f = none

theorem ok_init : State.init.Ok where
  grps := by
    refine ⟨fun g p e => ?_, fun g p e => ?_, fun g p e => ?_, fun g off => ?_, fun f g e => ?_,
      fun g p e => ?_, fun g _ hg => absurd hg (Nat.not_lt_zero _), fun _ _ => rfl⟩
    all_goals simp_all [State.init, State.taken]
  nodup := List.nodup_nil
  conf := fun h => absurd h (by decide)

/-- An event that can happen accesses no memory that is not there, and leaves everything right.
A reference that is handed out has a slot that no other reference has. -/
theorem State.Ok.step? {e : Event} (h : s.Ok) (he : s.Admits e) :
    ∃ s', s.step? e = some s' ∧ s'.Ok := by
  cases e with
  | add func mem mem' =>
    obtain ⟨res, w', eu, hh⟩ := h.grps.use func mem mem'
    refine ⟨_, by rw [State.step?, eu, Option.map_some], ?_⟩
    have hc : s.conf = true := he
    cases res with
    | none => exact ⟨hh, h.nodup, fun hf => absurd (hc.symm.trans hf) (by decide)⟩
    | some r =>
      obtain ⟨hn, ok⟩ := hh
      refine ⟨?_, ?_, fun hf => absurd (hc.symm.trans hf) (by decide)⟩
      · convert ok using 1
        ext x
        simp only [State.taken, Option.toList_some, List.singleton_append, List.mem_cons,
          Set.mem_ofPred_eq, Set.mem_insert_iff]
        tauto
      · have hn' : r ∉ s.dying ++ s.live := fun hm => hn (List.mem_append.mp hm)
        exact List.nodup_middle.mpr (List.nodup_cons.mpr ⟨hn', h.nodup⟩)
  | enter r =>
    have hr : r ∈ s.live := he
    obtain ⟨p, hg, -⟩ := (h.grps.busy r.1 r.2).mp (.inr hr)
    refine ⟨{ s with live := s.live.erase r, dying := r :: s.dying },
      by rw [State.step?, hg, Option.map_some], ?_, ?_, h.conf⟩
    · convert h.grps using 1
      ext x
      have hnd : s.live.Nodup := (List.nodup_append.mp h.nodup).2.1
      simp only [State.taken, List.mem_cons, hnd.mem_erase_iff, Set.mem_ofPred_eq]
      by_cases hx : x = r
      · simp [hx, hr]
      · simp [hx]
    · have hperm : (s.dying ++ s.live).Perm (r :: s.dying ++ s.live.erase r) :=
        ((List.perm_cons_erase hr).append_left _).trans List.perm_middle
      exact hperm.nodup_iff.mp h.nodup
  | leave =>
    cases hd : s.dying with
    | nil => exact absurd hd he
    | cons r rest =>
      have hnd := h.nodup
      rw [hd, List.cons_append, List.nodup_cons] at hnd
      obtain ⟨w', ew, hp, ok⟩ := h.grps.done (g := r.1)
        (.inl (by rw [hd]; exact List.mem_cons_self))
      refine ⟨{ s with grps := w', dying := rest }, ?_, ?_, hnd.2, fun hc => ?_⟩
      · rw [State.step?, hd]
        exact congrArg (Option.map _) ew
      · convert ok using 1
        ext x
        simp only [State.taken, hd, List.mem_cons, Set.mem_ofPred_eq, Set.mem_sdiff,
          Set.mem_singleton_iff]
        by_cases hx : x = r
        · subst hx
          refine iff_of_false (fun hm => hnd.1 (List.mem_append.mpr hm)) (fun hm => hm.2 rfl)
        · simp [hx]
      · rw [hp]
        exact h.conf hc
  | delConf =>
    obtain ⟨w', ew, ok, hp⟩ := h.grps.delConf
    exact ⟨{ s with grps := w', conf := false }, by rw [State.step?, ew, Option.map_some], ok,
      h.nodup, fun _ => hp⟩

theorem State.Ok.step {e : Event} (h : s.Ok) (he : s.Admits e) : (s.step e).Ok := by
  obtain ⟨s', e', ok⟩ := h.step? he
  rw [State.step, e']
  exact ok

theorem ok_run {es : List Event} (h : Run State.step State.Admits State.init es s) : s.Ok :=
  h.invariant State.Ok ok_init fun _ _ ht he => ht.step he

/-- Freeing a reference is the call of `func` and what comes behind it, whatever happens
between. -/
theorem cbFreeGrpMain_eq {s₁ : State} (h : s.Ok) (hr : r ∈ s.live) (hd : s₁.dying = r :: s.dying) :
    cbFreeGrpMain s.grps (fun _ => some s₁.grps) r.1 r.2 =
      (s₁.step? .leave).map State.grps := by
  obtain ⟨p, hg, -⟩ := (h.grps.busy r.1 r.2).mp (.inr hr)
  rw [cbFreeGrpMain, hg, Option.bind_some, Option.bind_some, State.step?, hd]
  dsimp only
  rw [Option.map_map]
  exact (congrFun Option.map_id _).symm

/-- With memory a full group is replaced, and a slot is handed out. -/
theorem refGrpAdd_granted {w w' : Grps} {func : RefFunc} {mem : Nat → Bool}
    {r : Option (Nat × Nat)} (h : refGrpAdd w func (some mem) = some (r, w')) : r.isSome := by
  have htake : ∀ {v : Grps} {g : Nat}, refGrpTake v g = some (r, w') → r.isSome := by
    intro v g ht
    obtain ⟨p, -, e⟩ := Option.map_eq_some_iff.mp ht
    rw [← (Prod.mk.inj e).1]
    rfl
  obtain ⟨parent, -, h⟩ := Option.bind_eq_some_iff.mp h
  obtain ⟨p, -, h⟩ := Option.bind_eq_some_iff.mp h
  split at h
  · obtain ⟨v, -, h⟩ := Option.bind_eq_some_iff.mp h
    exact htake h
  · exact htake h

/-- With memory a slot is handed out. -/
theorem refGrpUse_granted {w w' : Grps} {func : RefFunc} {mem mem' : Nat → Bool}
    {r : Option (Nat × Nat)} (h : refGrpUse w func (some mem) (some mem') = some (r, w')) :
    r.isSome := by
  unfold refGrpUse at h
  split at h
  · exact refGrpAdd_granted h
  · exact refGrpAdd_granted h

/-- Whatever was done with a configuration: no memory is used that is not there, a slot is
handed out when there is memory, and only while no reference has it, the free slots are counted,
the slot at the top has a reference, a group that the configuration does not point to any more
is given back once, with its last reference, and all this may happen while a reference is
freed. -/
theorem ref_grp_runs {es : List Event} (h : Run State.step State.Admits State.init es s) :
    (∀ e, s.Admits e → (s.step? e).isSome) ∧
    (∀ func mem mem' r w', refGrpUse s.grps func mem mem' = some (some r, w') →
      r ∉ s.live ∧ r ∉ s.dying) ∧
    (∀ func mem mem', ∃ r w', refGrpUse s.grps func (some mem) (some mem') = some (some r, w')) ∧
    (∀ g p, s.grps.grp g = some p →
      p.freeNum = freeSlots p.refs p.makeNum ∧
      (∀ off < p.makeNum, p.refs off = false ↔ (g, off) ∉ s.live ∧ (g, off) ∉ s.dying) ∧
      (0 < p.makeNum → (g, p.makeNum - 1) ∈ s.live ∨ (g, p.makeNum - 1) ∈ s.dying)) ∧
    (∀ g < s.grps.made, s.grps.freed g ≤ 1 ∧
      (s.grps.freed g = 1 ↔
        (∀ f, s.grps.ptr f ≠ some g) ∧ ∀ off, (g, off) ∉ s.live ∧ (g, off) ∉ s.dying)) ∧
    ∀ r ∈ s.live, ∀ (cb : List Event) (t : State),
      Run State.step State.Admits (s.step (.enter r)) cb t → t.dying = r :: s.dying →
      cbFreeGrpMain s.grps (fun _ => some t.grps) r.1 r.2 = some (t.step .leave).grps := by
  have ok := ok_run h
  have htaken : ∀ r, r ∉ s.taken ↔ r ∉ s.live ∧ r ∉ s.dying := fun r => by
    simp only [State.taken, Set.mem_ofPred_eq]
    tauto
  refine ⟨fun e he => ?_, fun func mem mem' r w' e => ?_, fun func mem mem' => ?_,
    fun g p hg => ⟨?_, ?_, ?_⟩, fun g hlt => ?_, fun r hr cb t ht hd => ?_⟩
  · obtain ⟨s', e', -⟩ := ok.step? he
    rw [e']
    rfl
  · obtain ⟨res, w₁, e₁, hh⟩ := ok.grps.use func mem mem'
    obtain ⟨rfl, rfl⟩ := Prod.mk.inj (Option.some.inj (e₁.symm.trans e))
    exact (htaken r).mp hh.1
  · obtain ⟨res, w₁, e₁, -⟩ := ok.grps.use func (some mem) (some mem')
    obtain ⟨r, rfl⟩ := Option.isSome_iff_exists.mp (refGrpUse_granted e₁)
    exact ⟨r, w₁, e₁⟩
  · exact (ok.grps.grp g p hg).count
  · intro off hoff
    rw [← htaken, ok.grps.mem hg, not_and]
    simp [hoff]
  · intro h0
    have hm := (ok.grps.mem hg).mpr ⟨Nat.sub_lt h0 Nat.one_pos, (ok.grps.grp g p hg).top h0⟩
    exact hm.symm
  · cases hg : s.grps.grp g with
    | none =>
      have h1 := ok.grps.gone g hg hlt
      refine ⟨Nat.le_of_eq h1, iff_of_true h1 ⟨fun f e => ?_, fun off => ?_⟩⟩
      · obtain ⟨p, e', -⟩ := ok.grps.ptr f g e
        rw [hg] at e'
        cases e'
      · rw [← htaken, ok.grps.busy]
        rintro ⟨p, e', -⟩
        rw [hg] at e'
        cases e'
    | some p =>
      have h0 := (ok.grps.there g p hg).2
      refine ⟨by omega, iff_of_false (by omega) ?_⟩
      rintro ⟨hptr, hnone⟩
      have hfl : p.flag = false := by
        rw [← Bool.not_eq_true, ok.grps.flag g p hg]
        exact hptr p.func
      have hm := ok.grps.held g p hg hfl
      refine (htaken _).mpr (hnone (p.makeNum - 1)) ((ok.grps.mem hg).mpr ?_)
      exact ⟨Nat.sub_lt hm Nat.one_pos, (ok.grps.grp g p hg).top hm⟩
  · have okt := ht.invariant State.Ok (ok.step (e := .enter r) hr) fun _ _ hs he => hs.step he
    obtain ⟨s', e', -⟩ := okt.step? (e := .leave) (by
      rw [State.Admits, hd]
      exact List.cons_ne_nil _ _)
    rw [cbFreeGrpMain_eq ok hr hd, State.step, e']
    rfl

/-- Two references are handed out, and a third while the second is freed. -/
def nestedAdds : List Event :=
  [.add .relink (some fun _ => false) none, .add .relink none none, .enter (0, 1),
    .add .relink none none, .leave]

/-- The configuration is destroyed, and the last reference is freed while the first one is. -/
def nestedFrees : List Event := [.delConf, .enter (0, 0), .enter (0, 2), .leave, .leave]

theorem run_nestedAdds :
    Run State.step State.Admits State.init nestedAdds (nestedAdds.foldl State.step State.init) :=
  Run.nil.append ⟨rfl, rfl, List.mem_cons_self, rfl, List.cons_ne_nil _ _, trivial⟩

/-- A slot that is handed out then is a new one, and afterwards the group is given back once. -/
theorem ref_grp_runs_nested :
    (∃ r w', refGrpUse (nestedAdds.foldl State.step State.init).grps .relink
        (some fun _ => false) (some fun _ => false) = some (some r, w') ∧ r ∉ [(0, 2), (0, 0)]) ∧
      ((nestedAdds ++ nestedFrees).foldl State.step State.init).grps.freed 0 = 1 := by
  constructor
  · obtain ⟨-, hnew, hgrant, -⟩ := ref_grp_runs run_nestedAdds
    obtain ⟨r, w', e⟩ := hgrant .relink (fun _ => false) fun _ => false
    exact ⟨r, w', e, (hnew _ _ _ r w' e).1⟩
  · have h : Run State.step State.Admits State.init (nestedAdds ++ nestedFrees)
        (nestedFrees.foldl State.step (nestedAdds.foldl State.step State.init)) :=
      run_nestedAdds.append ⟨rfl, List.mem_cons_of_mem _ List.mem_cons_self, List.mem_cons_self,
        List.cons_ne_nil _ _, List.cons_ne_nil _ _, trivial⟩
    rw [List.foldl_append]
    obtain ⟨-, -, -, -, hfreed, -⟩ := ref_grp_runs h
    refine (hfreed 0 Nat.one_pos).2.mpr ⟨fun f => ?_, fun off => ?_⟩
    · have e : (nestedFrees.foldl State.step
          (nestedAdds.foldl State.step State.init)).grps.ptr f = none := rfl
      rw [e]
      simp
    · exact ⟨List.not_mem_nil, List.not_mem_nil⟩

end Vstr.Grp
