import Vstr.Lib.Count
import Vstr.Model.Conf

/-!
# The counters of configurations

A configuration counts those who hold it: the caller, the bases that use it and the groups
of converted buffers. A state is sound when every count is exact.
-/

namespace Vstr.Confs

open Count

variable {p q : Pool} {u n m : Nat → Nat} {b c d h k : Nat}

/-! ## Reading and writing configurations -/

namespace Pool

theorem conf_putConf (p : Pool) (c d : Nat) (x : Conf) (hc : c < p.confs.length) :
    (p.putConf c x).conf d = if d = c then x else p.conf d := by
  unfold conf putConf
  simp only [List.getD_eq_getElem?_getD, List.getElem?_set]
  by_cases hd : d = c
  · subst hd
    simp [hc]
  · rw [if_neg (fun hcd => hd hcd.symm), if_neg hd]

theorem conf_of_le (hc : p.confs.length ≤ c) : p.conf c = .gone := by
  simp [conf, List.getElem?_eq_none hc]

theorem conf_newConf (p : Pool) (c : Nat) :
    p.newConf.conf c = if c = p.confs.length then .made else p.conf c := by
  unfold conf newConf
  simp only [List.getD_eq_getElem?_getD]
  split
  · rename_i hc
    subst hc
    simp
  · rename_i hc
    rcases Nat.lt_or_ge c p.confs.length with hlt | hge
    · rw [List.getElem?_append_left hlt]
    · rw [List.getElem?_append_right hge, List.getElem?_eq_none hge,
        List.getElem?_eq_none (by simp only [List.length_singleton]; omega)]

/-- Bases that use a configuration. -/
def basesOf (p : Pool) (c : Nat) : Nat := tally Base.conf p.bases c

/-- Groups that hold a configuration. -/
def groupsOf (p : Pool) (c : Nat) : Nat := tally RefLinked.conf p.groups c

/-- References of the caller, the default one included. -/
def usersOf (p : Pool) (c : Nat) : Nat := tally id p.handles c + p.dflt.elim 0 fun d => bump d c

/-- Converted buffers of a group. -/
def bufsOf (p : Pool) (g : Nat) : Nat := tally id p.bufs g

/-- All who hold a configuration. -/
def holders (p : Pool) (c : Nat) : Nat := p.usersOf c + p.basesOf c + p.groupsOf c

end Pool

/-! ## The counters -/

/-- What is left of a configuration that was released. -/
structure Released (x : Conf) : Prop where
  /-- No spare node. -/
  spares : x.spares = ⟨0, 0, 0, 0⟩
  /-- No cache callback. -/
  cacheCbs : x.cacheCbs = []
  /-- No other table. -/
  tables : x.tables = .gone

/-- A configuration has the tables every configuration has. -/
structure Intact (x : Conf) : Prop where
  /-- The locale. -/
  loc : x.tables.loc.isSome = true
  /-- The user data. -/
  dataUsr : x.tables.dataUsr.isSome = true
  /-- The internal cache callbacks. -/
  cacheCbs : internalCbs <+: x.cacheCbs

/-- Only tables matter. -/
theorem Intact.congr {x y : Conf} (i : Intact x) (ht : y.tables.loc = x.tables.loc)
    (hd : y.tables.dataUsr = x.tables.dataUsr) (hc : y.cacheCbs = x.cacheCbs) : Intact y :=
  ⟨ht ▸ i.loc, hd ▸ i.dataUsr, hc ▸ i.cacheCbs⟩

/-- What has its tables is not released. -/
theorem Intact.not_released {x : Conf} (i : Intact x) : ¬ Released x := by
  intro r
  have hl := i.loc
  rw [r.tables] at hl
  cases hl

/-- The counters of all configurations; those without a reference are gone, with all they
had, and no others. -/
structure Refs (p : Pool) (u n : Nat → Nat) : Prop where
  /-- No pointer to freed memory was followed. -/
  fault : p.fault = false
  /-- `user_ref`. -/
  users : ∀ c, (p.conf c).userRef = u c
  /-- `ref`. -/
  refs : ∀ c, (p.conf c).ref = n c
  /-- Freed without a reference. -/
  freed : ∀ c, (p.conf c).freed = true ↔ n c = 0
  /-- What a freed one has. -/
  released : ∀ c, n c = 0 → Released (p.conf c)
  /-- What another one has. -/
  intact : ∀ c, 0 < n c → Intact (p.conf c)

theorem Refs.congr {v : Nat → Nat} (r : Refs p u n) (hu : ∀ c, u c = v c) (hn : ∀ c, n c = m c) :
    Refs p v m := by
  obtain rfl : u = v := funext hu
  obtain rfl : n = m := funext hn
  exact r

/-- Only configurations matter. -/
theorem Refs.frame (r : Refs p u n) (hq : q.confs = p.confs) (hf : q.fault = p.fault) :
    Refs q u n := by
  have hc : ∀ c, q.conf c = p.conf c := fun c => by unfold Pool.conf; rw [hq]
  exact ⟨hf.trans r.fault, fun c => hc c ▸ r.users c, fun c => hc c ▸ r.refs c,
    fun c => hc c ▸ r.freed c, fun c hn => hc c ▸ r.released c hn,
    fun c hn => hc c ▸ r.intact c hn⟩

theorem Refs.freed_false (r : Refs p u n) (hc : 0 < n c) : (p.conf c).freed = false := by
  rw [Bool.eq_false_iff]
  intro hf
  rw [(r.freed c).1 hf] at hc
  exact absurd hc (Nat.lt_irrefl 0)

theorem Refs.lt (r : Refs p u n) (hc : 0 < n c) : c < p.confs.length := by
  rcases Nat.lt_or_ge c p.confs.length with hlt | hge
  · exact hlt
  · have hf := r.freed_false hc
    rw [Pool.conf_of_le hge] at hf
    exact absurd hf (by decide)

theorem Refs.touch (r : Refs p u n) (hc : 0 < n c) : Refs (p.touch c) u n := by
  refine r.frame rfl ?_
  show (p.fault || (p.conf c).freed) = p.fault
  rw [r.freed_false hc, Bool.or_false]

/-- Writing a configuration that somebody holds. -/
theorem Refs.putConf {x : Conf} (r : Refs p u n) (hc : 0 < n c)
    (hx : x.freed = true ↔ x.ref = 0) (he : x.ref = 0 → Released x) (hi : 0 < x.ref → Intact x) :
    Refs (p.putConf c x) (fun d => if d = c then x.userRef else u d)
      (fun d => if d = c then x.ref else n d) := by
  have hp := fun d => p.conf_putConf c d x (r.lt hc)
  refine ⟨(r.touch hc).fault, fun d => ?_, fun d => ?_, fun d => ?_, fun d => ?_, fun d => ?_⟩
  all_goals
    rw [hp d]
    split
  · rfl
  · exact r.users d
  · rfl
  · exact r.refs d
  · exact hx
  · exact r.freed d
  · exact he
  · exact r.released d
  · exact hi
  · exact r.intact d

/-- Writing what is not a counter. -/
theorem Refs.putConf_same {x : Conf} (r : Refs p u n) (hc : 0 < n c)
    (h1 : x.userRef = (p.conf c).userRef) (h2 : x.ref = (p.conf c).ref)
    (h3 : x.freed = (p.conf c).freed) (hi : Intact (p.conf c) → Intact x) :
    Refs (p.putConf c x) u n := by
  have href : x.ref = n c := h2.trans (r.refs c)
  have hw := r.putConf (x := x) hc (by rw [h3, href]; exact r.freed c)
    (fun h0 => absurd (href ▸ h0) (by omega)) fun _ => hi (r.intact c hc)
  refine hw.congr (fun d => ?_) (fun d => ?_)
  · split
    · rename_i hd
      rw [hd, h1, r.users]
    · rfl
  · split
    · rename_i hd
      rw [hd, href]
    · rfl

/-- One more reference. -/
theorem Refs.addConf (r : Refs p u n) (hc : 0 < n c) :
    Refs (p.addConf c) u (fun d => n d + bump c d) := by
  have href := r.refs c
  have hw := r.putConf (x := { p.conf c with ref := (p.conf c).ref + 1 }) hc
    (by
      rw [show ({ p.conf c with ref := (p.conf c).ref + 1 } : Conf).freed =
        (p.conf c).freed from rfl,
        r.freed_false hc]
      simp)
    (fun h0 => absurd h0 (Nat.succ_ne_zero _)) fun _ => (r.intact c hc).congr rfl rfl rfl
  refine hw.congr (fun d => ?_) (fun d => ?_)
  · split
    · rename_i hd
      rw [hd]
      exact r.users c
    · rfl
  · unfold bump
    split
    · rename_i hd
      rw [hd]
      exact congrArg (· + 1) href
    · rfl

/-- Writing the number of the caller's references. -/
theorem Refs.putUser (r : Refs p u n) (hc : 0 < n c) (w : Nat) :
    Refs (p.putConf c { p.conf c with userRef := w }) (fun d => if d = c then w else u d) n := by
  have hw := r.putConf (x := { p.conf c with userRef := w }) hc
    (by rw [show ({ p.conf c with userRef := w } : Conf).ref = n c from r.refs c]
        exact r.freed c)
    (fun h0 => absurd ((r.refs c).symm.trans h0) (by omega))
    fun _ => (r.intact c hc).congr rfl rfl rfl
  refine hw.congr (fun d => rfl) (fun d => ?_)
  split
  · rename_i hd
    rw [hd]
    exact r.refs c
  · rfl

/-- One reference of the caller more. -/
theorem Refs.addUserConf (r : Refs p u n) (hc : 0 < n c) :
    Refs (p.addUserConf c) (fun d => u d + bump c d) (fun d => n d + bump c d) := by
  have hw := r.putUser hc ((p.conf c).userRef + 1)
  refine Refs.addConf (hw.congr (fun d => ?_) (fun d => rfl)) hc
  unfold bump
  split
  · rename_i hd
    rw [hd, r.users]
  · rfl

/-- One reference less; with the last one the configuration is released. -/
theorem Refs.delConf (r : Refs p u (fun d => n d + bump c d)) : Refs (p.delConf c) u n := by
  have hb : bump c c = 1 := if_pos rfl
  have hc : 0 < n c + bump c c := by omega
  have href : (p.conf c).ref - 1 = n c := by
    have := r.refs c
    omega
  have hdone : ∀ x : Conf, x.userRef = (p.conf c).userRef → x.ref = (p.conf c).ref - 1 →
      (x.freed = true ↔ x.ref = 0) → (x.ref = 0 → Released x) → (0 < x.ref → Intact x) →
      Refs (p.putConf c x) u n := by
    intro x hu hr hf he hi
    refine (r.putConf (x := x) hc hf he hi).congr (fun d => ?_) (fun d => ?_)
    · split
      · rename_i hd
        rw [hd, hu]
        exact r.users c
      · rfl
    · split
      · rename_i hd
        rw [hd, hr, href]
      · rename_i hd
        unfold bump
        rw [if_neg hd, Nat.add_zero]
  unfold Pool.delConf
  split
  · rename_i h0
    exact hdone _ rfl rfl (by simpa using h0) (fun _ => ⟨rfl, rfl, rfl⟩)
      fun h => absurd h0 (Nat.ne_of_gt h)
  · rename_i h0
    refine hdone _ rfl rfl ?_ (fun h => absurd h h0) fun _ => (r.intact c hc).congr rfl rfl rfl
    rw [show ({ p.conf c with ref := (p.conf c).ref - 1 } : Conf).freed = (p.conf c).freed from rfl,
      r.freed_false hc]
    simpa using h0

/-- One reference of the caller less. -/
theorem Refs.freeUserConf (r : Refs p (fun d => u d + bump c d) (fun d => n d + bump c d)) :
    Refs (p.freeUserConf c) u n := by
  have hb : bump c c = 1 := if_pos rfl
  have hc : 0 < n c + bump c c := by omega
  have hw := r.putUser hc ((p.conf c).userRef - 1)
  refine Refs.delConf (hw.congr (fun d => ?_) (fun d => rfl))
  split
  · rename_i hd
    have := r.users c
    rw [hd]
    omega
  · rename_i hd
    unfold bump
    rw [if_neg hd, Nat.add_zero]

/-- A new configuration. -/
theorem Refs.newConf (r : Refs p u n) :
    Refs p.newConf (fun d => u d + bump p.confs.length d)
      (fun d => n d + bump p.confs.length d) := by
  have hg : p.conf p.confs.length = .gone := Pool.conf_of_le (Nat.le_refl _)
  have hu : u p.confs.length = 0 := by
    rw [← r.users, hg]
    rfl
  have hn : n p.confs.length = 0 := by
    rw [← r.refs, hg]
    rfl
  refine ⟨r.fault, fun d => ?_, fun d => ?_, fun d => ?_, fun d => ?_, fun d => ?_⟩
  all_goals
    rw [p.conf_newConf d]
    unfold bump
    split
  · rename_i hd
    rw [hd, hu]
    rfl
  · exact r.users d
  · rename_i hd
    rw [hd, hn]
    rfl
  · exact r.refs d
  · simp [Conf.made]
  · exact r.freed d
  · exact fun h0 => absurd h0 (Nat.succ_ne_zero _)
  · exact r.released d
  · exact fun _ => ⟨rfl, rfl, List.prefix_refl _⟩
  · exact r.intact d

/-! ## Groups of converted buffers -/

/-- The groups: each counts the converted buffers that name it and goes away with the last
one, and the group a configuration keeps at hand is one of its own. A group just made has
no buffer yet. -/
structure Linked (made : Option Nat) (p : Pool) : Prop where
  /-- `l_ref`. -/
  lRef : ∀ g ln, p.groups[g]? = some (some ln) →
    ln.lRef = p.bufsOf g ∧ (made ≠ some g → 0 < ln.lRef)
  /-- A buffer names a group that is there. -/
  named : ∀ g, 0 < p.bufsOf g → ∃ ln, p.groups[g]? = some (some ln)
  /-- `ref_link`. -/
  link : ∀ c g, (p.conf c).refLink = some g → ∃ ln, p.groups[g]? = some (some ln) ∧ ln.conf = c

/-- What is written as it was stays as it was everywhere. -/
theorem Pool.field_putConf {α : Type} (f : Conf → α) (p : Pool) (c d : Nat) (x : Conf)
    (hx : f x = f (p.conf c)) : f ((p.putConf c x).conf d) = f (p.conf d) := by
  rcases Nat.lt_or_ge c p.confs.length with hlt | hge
  · rw [p.conf_putConf c d x hlt]
    split
    · rename_i hd
      rw [hd, hx]
    · rfl
  · unfold Pool.conf Pool.putConf
    simp only [List.set_eq_of_length_le hge]

theorem Pool.refLink_putConf (p : Pool) (c d : Nat) (x : Conf)
    (hx : x.refLink = (p.conf c).refLink) : ((p.putConf c x).conf d).refLink = (p.conf d).refLink :=
  p.field_putConf Conf.refLink c d x hx

theorem Pool.refLink_delConf (p : Pool) (c d : Nat) :
    ((p.delConf c).conf d).refLink = (p.conf d).refLink := by
  unfold Pool.delConf
  split
  · exact p.refLink_putConf c d _ rfl
  · exact p.refLink_putConf c d _ rfl

theorem Linked.frame {made : Option Nat} (hl : Linked made p) (hg : q.groups = p.groups)
    (hb : q.bufs = p.bufs) (hr : ∀ c, (q.conf c).refLink = (p.conf c).refLink) :
    Linked made q := by
  have hbo : ∀ g, q.bufsOf g = p.bufsOf g := fun g => by unfold Pool.bufsOf; rw [hb]
  refine ⟨fun g ln h => ?_, fun g h => ?_, fun c g h => ?_⟩
  · rw [hbo]
    exact hl.lRef g ln (hg ▸ h)
  · rw [hg]
    exact hl.named g (hbo g ▸ h)
  · rw [hg]
    exact hl.link c g ((hr c).symm.trans h)

/-- The counts are exact and no memory was used after it was freed. -/
structure Sound (p : Pool) : Prop where
  /-- The counters of the configurations. -/
  refs : Refs p p.usersOf p.holders
  /-- The groups. -/
  linked : Linked none p

theorem sound_start : Sound .start := by
  have hc : ∀ c, Pool.start.conf c = .gone := fun c => Pool.conf_of_le (Nat.zero_le c)
  have h0 : ∀ c, Pool.start.holders c = 0 := fun c => rfl
  refine ⟨⟨rfl, fun c => ?_, fun c => ?_, fun c => ?_, fun c _ => ?_, fun c hn => ?_⟩, ?_, ?_, ?_⟩
  · rw [hc]
    rfl
  · rw [hc, h0]
    rfl
  · rw [hc, h0]
    exact ⟨fun _ => rfl, fun _ => rfl⟩
  · rw [hc]
    exact ⟨rfl, rfl, rfl⟩
  · rw [h0] at hn
    exact absurd hn (Nat.lt_irrefl 0)
  · intro g ln h
    simp [Pool.start] at h
  · intro g h
    exact absurd h (Nat.lt_irrefl 0)
  · intro c g h
    rw [hc] at h
    exact absurd h (by simp [Conf.gone])

/-! ## Those who hold a configuration -/

theorem Pool.getElem?_of_join {α : Type} {l : List (Option α)} {i : Nat} {a : α}
    (h : (l[i]?).join = some a) : l[i]? = some (some a) := by
  cases hl : l[i]? with
  | none => simp [hl] at h
  | some x =>
    rw [hl, Option.join_some] at h
    rw [h]

theorem holders_of_base {x : Base} (hb : p.base b = some x) : 0 < p.holders x.conf := by
  have := tally_pos Base.conf (Pool.getElem?_of_join hb)
  unfold Pool.holders Pool.basesOf
  omega

theorem usersOf_of_pick {v : Option Nat} (hv : p.pick v = some c) : 0 < p.usersOf c := by
  unfold Pool.usersOf
  cases v with
  | none =>
    rw [show p.dflt = some c from hv]
    simp
  | some h =>
    have hh : p.handles[h]? = some (some c) := Pool.getElem?_of_join hv
    have : 0 < tally id p.handles c := tally_pos id hh
    omega

theorem holders_of_pick {v : Option Nat} (hv : p.pick v = some c) : 0 < p.holders c := by
  have := usersOf_of_pick hv
  unfold Pool.holders
  omega

theorem holders_of_group {g : Nat} {ln : RefLinked} (hg : p.groups[g]? = some (some ln)) :
    0 < p.holders ln.conf := by
  have := tally_pos RefLinked.conf hg
  unfold Pool.holders Pool.groupsOf
  omega

end Vstr.Confs
