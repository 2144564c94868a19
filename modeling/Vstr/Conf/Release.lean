import Vstr.Conf.Lifetime

/-!
# What goes away with a configuration

A call that gives references back leaves every configuration that is still held the tables and
the spare nodes it had. One whose last reference went has nothing left.
-/

namespace Vstr.Confs

variable {p q : Pool} {x y z : Conf} {c d : Nat}

/-! ## Tables that stay -/

/-- Nothing a configuration had is gone; there may be more spare nodes and bases. -/
structure Kept (x y : Conf) : Prop where
  /-- Spare `BUF` nodes. -/
  buf : x.spares.buf ≤ y.spares.buf
  /-- Spare `NON` nodes. -/
  non : x.spares.non ≤ y.spares.non
  /-- Spare `PTR` nodes. -/
  ptr : x.spares.ptr ≤ y.spares.ptr
  /-- Spare `REF` nodes. -/
  ref : x.spares.ref ≤ y.spares.ref
  /-- Cache callbacks. -/
  cacheCbs : y.cacheCbs = x.cacheCbs
  /-- Spare bases. -/
  spareBases : x.tables.spareBases <:+ y.tables.spareBases
  /-- The other tables. -/
  tables : { y.tables with spareBases := x.tables.spareBases } = x.tables

/-- Neither tables nor spare nodes were written. -/
theorem Kept.of_eq (hs : y.spares = x.spares) (hc : y.cacheCbs = x.cacheCbs)
    (ht : y.tables = x.tables) : Kept x y where
  buf := Nat.le_of_eq (by rw [hs])
  non := Nat.le_of_eq (by rw [hs])
  ptr := Nat.le_of_eq (by rw [hs])
  ref := Nat.le_of_eq (by rw [hs])
  cacheCbs := hc
  spareBases := by
    rewrite [ht]
    exact List.suffix_refl _
  tables := by rw [ht]

theorem Kept.trans (h : Kept x y) (h' : Kept y z) : Kept x z where
  buf := Nat.le_trans h.buf h'.buf
  non := Nat.le_trans h.non h'.non
  ptr := Nat.le_trans h.ptr h'.ptr
  ref := Nat.le_trans h.ref h'.ref
  cacheCbs := h'.cacheCbs.trans h.cacheCbs
  spareBases := h.spareBases.trans h'.spareBases
  tables := by
    rw [← h.tables]
    conv_rhs => rw [← h'.tables]

/-- A configuration that is held was held before, and has what it had. -/
def Keeps (p q : Pool) : Prop :=
  ∀ c, 0 < (q.conf c).ref → 0 < (p.conf c).ref ∧ Kept (p.conf c) (q.conf c)

theorem Keeps.refl (p : Pool) : Keeps p p := fun _ h => ⟨h, .of_eq rfl rfl rfl⟩

theorem Keeps.trans {r : Pool} (h : Keeps p q) (h' : Keeps q r) : Keeps p r := by
  intro c hr
  obtain ⟨hq, k'⟩ := h' c hr
  obtain ⟨hp, k⟩ := h c hq
  exact ⟨hp, k.trans k'⟩

/-- Only configurations matter. -/
theorem Keeps.frame {r : Pool} (h : Keeps p q) (hr : r.confs = q.confs) : Keeps p r := by
  have hc : ∀ c, r.conf c = q.conf c := fun c => by unfold Pool.conf; rw [hr]
  intro c h0
  rw [hc] at h0 ⊢
  exact h c h0

theorem Pool.conf_putConf_of_ne (p : Pool) (x : Conf) (hne : d ≠ c) :
    (p.putConf c x).conf d = p.conf d := by
  unfold Pool.conf Pool.putConf
  simp only [List.getD_eq_getElem?_getD, List.getElem?_set_ne (Ne.symm hne)]

theorem keeps_putConf (hx : 0 < x.ref → 0 < (p.conf c).ref ∧ Kept (p.conf c) x) :
    Keeps p (p.putConf c x) := by
  intro d hd
  by_cases hdc : d = c
  · subst hdc
    rcases Nat.lt_or_ge d p.confs.length with hlt | hge
    · rw [p.conf_putConf d d x hlt, if_pos rfl] at hd ⊢
      exact hx hd
    · have hs : (p.putConf d x).conf d = p.conf d := by
        unfold Pool.conf Pool.putConf
        simp only [List.set_eq_of_length_le hge]
      rw [hs] at hd ⊢
      exact Keeps.refl p d hd
  · rw [p.conf_putConf_of_ne x hdc] at hd ⊢
    exact Keeps.refl p d hd

/-! ## Calls that give references back -/

theorem keeps_delConf (p : Pool) (c : Nat) : Keeps p (p.delConf c) := by
  unfold Pool.delConf
  split
  · rename_i h0
    exact keeps_putConf fun h => absurd h0 (Nat.ne_of_gt h)
  · rename_i h0
    exact keeps_putConf fun _ => ⟨by omega, .of_eq rfl rfl rfl⟩

theorem keeps_freeUserConf (p : Pool) (c : Nat) : Keeps p (p.freeUserConf c) := by
  refine Keeps.trans ?_ (keeps_delConf _ c)
  exact keeps_putConf fun h => ⟨h, .of_eq rfl rfl rfl⟩

/-- A configuration that is held gets one more reference. -/
theorem keeps_addConf (h : 0 < (p.conf c).ref) : Keeps p (p.addConf c) :=
  keeps_putConf fun _ => ⟨h, .of_eq rfl rfl rfl⟩

theorem keeps_addUserConf (h : 0 < (p.conf c).ref) : Keeps p (p.addUserConf c) := by
  have hk : Keeps p (p.putConf c { p.conf c with userRef := (p.conf c).userRef + 1 }) :=
    keeps_putConf fun _ => ⟨h, .of_eq rfl rfl rfl⟩
  have hr := p.field_putConf Conf.ref c c { p.conf c with userRef := (p.conf c).userRef + 1 } rfl
  exact hk.trans (keeps_addConf (Nat.lt_of_lt_of_eq h hr.symm))

/-- Spare nodes come. -/
theorem keeps_relinkNodes (p : Pool) (c : Nat) (nodes : Spares) : Keeps p (p.relinkNodes c nodes) :=
  keeps_putConf fun h => ⟨h, Nat.le_add_right _ _, Nat.le_add_right _ _, Nat.le_add_right _ _,
    Nat.le_add_right _ _, rfl, List.suffix_refl _, rfl⟩

theorem keeps_relinkBuf (p : Pool) (c : Nat) : Keeps p (p.relinkBuf c) :=
  keeps_relinkNodes p c ⟨1, 0, 0, 0⟩

theorem keeps_keepBase (p : Pool) (x : Base) : Keeps p (p.keepBase x) := by
  unfold Pool.keepBase
  dsimp only
  split
  · exact keeps_putConf fun h => ⟨h, Nat.le_refl _, Nat.le_refl _, Nat.le_refl _,
      Nat.le_refl _, rfl,
      List.suffix_cons _ _, rfl⟩
  · exact (Keeps.refl p).frame rfl

theorem keeps_dropRef (p : Pool) (k : Nat) : Keeps p (p.dropRef k) := by
  unfold Pool.dropRef
  split
  · exact .refl p
  · split
    · exact (Keeps.refl p).frame rfl
    · rename_i g _ _ ln _
      dsimp only
      have hr : Keeps p { p.relinkBuf ln.conf with bufs := p.bufs.set k none } :=
        (keeps_relinkBuf p ln.conf).frame rfl
      split
      · generalize ({ p.relinkBuf ln.conf with bufs := p.bufs.set k none } : Pool) = r at hr
        have hu : Keeps r (r.unlink g ln.conf) := by
          unfold Pool.unlink
          split
          · exact keeps_putConf fun h => ⟨h, .of_eq rfl rfl rfl⟩
          · exact .refl r
        exact (hr.trans (hu.frame (r := { r.unlink g ln.conf with groups := r.groups.set g none })
          rfl)).trans (keeps_delConf _ _)
      · exact hr.frame rfl

theorem keeps_dropRefs (p : Pool) (ks : List Nat) : Keeps p (p.dropRefs ks) := by
  unfold Pool.dropRefs
  induction ks generalizing p with
  | nil => exact .refl p
  | cons k ks ih => exact (keeps_dropRef p k).trans (ih _)

theorem keeps_freeBase (p : Pool) (b : Nat) (ks : List Nat) (nodes : Spares) :
    Keeps p (p.freeBase b ks nodes) := by
  have hc : Keeps p (p.cacheCbs b 0 fun _ => false) := by
    refine (Keeps.refl p).frame ?_
    unfold Pool.cacheCbs
    split
    · rfl
    · split
      · rfl
      · rfl
  unfold Pool.freeBase
  dsimp only
  generalize p.cacheCbs b 0 (fun _ => false) = q at hc
  split
  · exact hc
  · rename_i x hx
    have hk := ((hc.trans (keeps_dropRefs q ks)).trans (keeps_relinkNodes _ x.conf nodes)).trans
      (keeps_keepBase _ x)
    exact (hk.frame (r := { ((q.dropRefs ks).relinkNodes x.conf nodes).keepBase x with
      bases := q.bases.set b none }) rfl).trans (keeps_delConf _ _)

theorem Sound.keeps_optSetConf (s : Sound p) (h : Nat) : Keeps p (p.optSetConf h) := by
  unfold Pool.optSetConf
  split
  · rename_i c v hc hv
    split
    · exact .refl p
    · rename_i hne
      have hpos : 0 < ((p.freeUserConf c).conf v).ref := by
        have hd : (p.freeUserConf c).conf v = p.conf v := by
          unfold Pool.freeUserConf Pool.delConf
          split
          · rw [Pool.conf_putConf_of_ne _ _ (Ne.symm hne), p.conf_putConf_of_ne _ (Ne.symm hne)]
          · rw [Pool.conf_putConf_of_ne _ _ (Ne.symm hne), p.conf_putConf_of_ne _ (Ne.symm hne)]
        rw [hd, s.refs.refs]
        exact holders_of_pick hv
      exact ((keeps_freeUserConf p c).trans (keeps_addUserConf hpos)).frame rfl
  · exact .refl p

theorem Sound.keeps_baseSetConf (s : Sound p) (b : Nat) (v : Option Nat) :
    Keeps p (p.baseSetConf b v).2 := by
  unfold Pool.baseSetConf
  split
  · rename_i x c hx hc
    split
    · exact .refl p
    · rename_i hne
      have ht : Keeps p ((p.touch x.conf).touch c) := (Keeps.refl p).frame rfl
      dsimp only
      split
      · have hpos : 0 < ((((p.touch x.conf).touch c).delConf x.conf).conf c).ref := by
          have hd : (((p.touch x.conf).touch c).delConf x.conf).conf c = p.conf c := by
            unfold Pool.delConf
            split
            · rw [Pool.conf_putConf_of_ne _ _ (Ne.symm hne)]
              rfl
            · rw [Pool.conf_putConf_of_ne _ _ (Ne.symm hne)]
              rfl
          rw [hd, s.refs.refs]
          exact holders_of_pick hc
        refine (ht.trans (keeps_delConf _ x.conf)).trans ?_
        exact (Keeps.refl _).frame rfl |>.trans (keeps_addConf hpos)
      · exact ht
  · exact .refl p

/-- The calls that give references to configurations back. -/
def Action.GivesBack : Action → Prop
  | .exit | .freeConf _ | .optSetConf _ | .freeBase _ _ _ | .baseSetConf _ _ | .dropRef _ => True
  | _ => False

theorem Sound.keeps_step {a : Action} (s : Sound p) (ha : a.GivesBack) : Keeps p (p.step a) := by
  cases a with
  | exit =>
    simp only [Pool.step, Pool.exit]
    split
    · exact .refl p
    · exact (keeps_freeUserConf p _).frame rfl
  | freeConf h =>
    simp only [Pool.step, Pool.freeConf]
    split
    · exact .refl p
    · exact (keeps_freeUserConf p _).frame rfl
  | optSetConf h => exact s.keeps_optSetConf h
  | freeBase b ks nodes => exact keeps_freeBase p b ks nodes
  | baseSetConf b v => exact s.keeps_baseSetConf b v
  | dropRef k => exact keeps_dropRef p k
  | _ => exact ha.elim

/-! ## Sequences of calls -/

/-- A configuration lives as long as it is held, and no longer. -/
structure Lifetime (p : Pool) (c : Nat) : Prop where
  /-- The references are those of the caller, of the bases and of the groups. -/
  ref_eq : (p.conf c).ref = (p.conf c).userRef + p.basesOf c + p.groupsOf c
  /-- The caller's references are those it holds. -/
  userRef_eq : (p.conf c).userRef = p.usersOf c
  /-- What the source asserts. -/
  userRef_le : (p.conf c).userRef ≤ (p.conf c).ref
  /-- Freed when the last reference is gone, and only then. -/
  freed_iff : (p.conf c).freed = true ↔ (p.conf c).ref = 0
  /-- With it go the spare nodes and all tables. -/
  released_iff : Released (p.conf c) ↔ (p.conf c).ref = 0
  /-- Before, the tables it was made with are there. -/
  intact : 0 < (p.conf c).ref → Intact (p.conf c)
  /-- Neither freed nor without its tables while a base uses it. -/
  base : ∀ b x, p.base b = some x → x.conf = c → (p.conf c).freed = false ∧ Intact (p.conf c)
  /-- Nor while one of its converted buffers is referenced; the group of a buffer is there. -/
  buf : ∀ (k g : Nat), p.bufs[k]? = some (some g) → ∃ ln : RefLinked,
    p.groups[g]? = some (some ln) ∧ (ln.conf = c → (p.conf c).freed = false ∧ Intact (p.conf c))
  /-- A group is there as long as one of its buffers is referenced, and no longer. -/
  group : ∀ (g : Nat) (ln : RefLinked), p.groups[g]? = some (some ln) →
    ln.lRef = p.bufsOf g ∧ 0 < p.bufsOf g

theorem Sound.lifetime (s : Sound p) (c : Nat) : Lifetime p c := by
  have hu := s.refs.users c
  have hr := s.refs.refs c
  have hsum : (p.conf c).ref = (p.conf c).userRef + p.basesOf c + p.groupsOf c := by
    rw [hr, hu]
    rfl
  have held : ∀ {d}, 0 < p.holders d → d = c → (p.conf c).freed = false ∧ Intact (p.conf c) := by
    rintro d hd rfl
    exact ⟨s.refs.freed_false hd, s.refs.intact d hd⟩
  refine ⟨hsum, hu, by omega, ?_, ⟨fun h => ?_, ?_⟩, ?_, ?_, ?_, ?_⟩
  · rw [hr]
    exact s.refs.freed c
  · rcases Nat.eq_zero_or_pos (p.holders c) with h0 | h0
    · rw [hr, h0]
    · exact absurd h (s.refs.intact c h0).not_released
  · rw [hr]
    exact s.refs.released c
  · rw [hr]
    exact s.refs.intact c
  · exact fun b x hx => held (holders_of_base hx)
  · intro k g hk
    obtain ⟨ln, hln⟩ := s.linked.named g (Count.tally_pos id hk)
    exact ⟨ln, hln, held (holders_of_group hln)⟩
  · intro g ln hg
    have := s.linked.lRef g ln hg
    exact ⟨this.1, this.1 ▸ this.2 (by simp)⟩

/-- After every sequence of calls no pointer to freed memory was followed, every configuration
lives as long as it is held, and a call that gives references back takes nothing from a
configuration that is still held. -/
theorem conf_lifetime (as : List Action) :
    (Pool.after as).fault = false ∧ (∀ c, Lifetime (Pool.after as) c) ∧
      ∀ a : Action, a.GivesBack → Keeps (Pool.after as) ((Pool.after as).step a) := by
  have s := sound_after as
  exact ⟨s.refs.fault, s.lifetime, fun _ ha => s.keeps_step ha⟩

/-- The caller has user data and custom formats, gives up its reference and frees the base, of
which one buffer was converted. -/
def outlived : List Action :=
  [.makeConf true, .setTables (some 0) [16, 0] [some "/user"] ["IPV4"] 2, .makeBase (some 0) true,
    .edit 0 4 ⟨2, 0, 0, 0⟩ (fun _ => true), .chgNodeBufRef 0 ⟨true, true, true⟩, .freeConf 0]

/-- Then the base is freed and leaves its nodes. -/
def stillHeld : List Action := outlived ++ [.freeBase 0 [] ⟨1, 0, 0, 1⟩]

theorem Pool.after_concat (as : List Action) (a : Action) :
    Pool.after (as ++ [a]) = (Pool.after as).step a := by
  rw [Pool.after, List.foldl_append]
  rfl

/-- The converted buffer keeps what there is, and the last reference to it releases everything. -/
theorem conf_lifetime_outlived :
    Keeps (Pool.after outlived) (Pool.after stillHeld) ∧ Intact ((Pool.after stillHeld).conf 0) ∧
      ((Pool.after stillHeld).conf 0).spares = ⟨3, 0, 0, 1⟩ ∧
      ((Pool.after stillHeld).conf 0).tables.spareBases = [1] ∧
      Released ((Pool.after (stillHeld ++ [.dropRef 0])).conf 0) := by
  have kept := (conf_lifetime outlived).2.2 (.freeBase 0 [] ⟨1, 0, 0, 1⟩) trivial
  have held := (conf_lifetime stillHeld).2.1 0
  have gone := (conf_lifetime (stillHeld ++ [.dropRef 0])).2.1 0
  rw [← Pool.after_concat] at kept
  exact ⟨kept, held.intact (by decide), by decide, by decide, gone.released_iff.mpr (by decide)⟩

end Vstr.Confs
