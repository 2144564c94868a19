import Vstr.Conf.Refs

/-!
# The lifetime of a configuration

Every call keeps the counts of holders exact, so in every state a sequence of calls reaches
a configuration has its tables as long as somebody holds it, is released when its last holder
is gone, and nobody follows a pointer to it later.
-/

namespace Vstr.Confs

open Count

variable {p q : Pool} {u n : Nat → Nat} {b c d k : Nat}

/-! ## Calls that keep every holder -/

/-- Writing what is neither a counter nor a group. -/
theorem Sound.putConf {x : Conf} (s : Sound p) (hc : 0 < p.holders c)
    (h1 : x.userRef = (p.conf c).userRef) (h2 : x.ref = (p.conf c).ref)
    (h3 : x.freed = (p.conf c).freed) (h4 : x.refLink = (p.conf c).refLink)
    (hi : Intact (p.conf c) → Intact x) : Sound (p.putConf c x) :=
  ⟨s.refs.putConf_same hc h1 h2 h3 hi, s.linked.frame rfl rfl fun d => p.refLink_putConf c d x h4⟩

theorem Sound.putSpares (s : Sound p) (hc : 0 < p.holders c) (spares : Spares) :
    Sound (p.putSpares c spares) :=
  s.putConf hc rfl rfl rfl rfl fun i => i.congr rfl rfl rfl

/-- Writing tables that keep the locale and the user data. -/
theorem Sound.putTables (s : Sound p) (tables : Tables) (hc : 0 < p.holders c)
    (hl : tables.loc.isSome = (p.conf c).tables.loc.isSome)
    (hd : tables.dataUsr.isSome = (p.conf c).tables.dataUsr.isSome) :
    Sound (p.putTables c tables) :=
  s.putConf hc rfl rfl rfl rfl fun i => ⟨hl.trans i.loc, hd.trans i.dataUsr, i.cacheCbs⟩

theorem Sound.touch (s : Sound p) (hc : 0 < p.holders c) : Sound (p.touch c) :=
  ⟨s.refs.touch hc, s.linked.frame rfl rfl fun _ => rfl⟩

/-- Writing to a base that keeps its configuration. -/
theorem Sound.putBase {x y : Base} (s : Sound p) (hb : p.base b = some x) (hy : y.conf = x.conf) :
    Sound (p.putBase b y) := by
  have hn : ∀ d, p.holders d = (p.putBase b y).holders d := by
    intro d
    have := tally_set (b := y) (c := d) Base.conf (Pool.getElem?_of_join hb)
    rw [hy] at this
    show p.usersOf d + tally Base.conf p.bases d + p.groupsOf d =
      p.usersOf d + tally Base.conf (p.bases.set b (some y)) d + p.groupsOf d
    omega
  exact ⟨(s.refs.frame (q := p.putBase b y) rfl rfl).congr (fun _ => rfl) hn,
    s.linked.frame rfl rfl fun _ => rfl⟩

theorem Sound.calls (s : Sound p) (l : List (String × Option String)) :
    Sound { p with calls := l } :=
  ⟨s.refs.frame rfl rfl, s.linked.frame rfl rfl fun _ => rfl⟩

theorem Sound.cacheCbs (s : Sound p) (b first : Nat) (answer : Nat → Bool) :
    Sound (p.cacheCbs b first answer) := by
  unfold Pool.cacheCbs
  split
  · exact s
  · rename_i x hx
    split
    · refine ((s.touch (holders_of_base hx)).putBase (p := p.touch x.conf) hx ?_).calls _
      rfl
    · exact s

theorem Sound.cacheCbFree (s : Sound p) (b num : Nat) : Sound (p.cacheCbFree b num) := by
  unfold Pool.cacheCbFree
  split
  · exact s
  · rename_i x hx
    split
    · split
      · exact s
      · split
        · dsimp only
          split
          · exact s.touch (holders_of_base hx)
          · refine ((s.touch (holders_of_base hx)).putBase (p := p.touch x.conf) hx ?_).calls _
            rfl
        · exact s.cacheCbs b _ _
    · exact s

theorem Sound.edit (s : Sound p) (b n : Nat) (spares : Spares) (answer : Nat → Bool) :
    Sound (p.edit b n spares answer) := by
  unfold Pool.edit
  split
  · exact s
  · rename_i x hx
    have hp := s.putSpares (holders_of_base hx) spares
    refine (hp.putBase (y := { x with len := n }) hx ?_).cacheCbs b 0 answer
    rfl

theorem Sound.setBufSz (s : Sound p) (v : Option Nat) (n : Nat) : Sound (p.setBufSz v n) := by
  unfold Pool.setBufSz
  split
  · exact s
  · rename_i c hc
    split
    · exact s.putConf (holders_of_pick hc) rfl rfl rfl rfl fun i => i.congr rfl rfl rfl
    · exact s.touch (holders_of_pick hc)

theorem Sound.setGrpallocCache (s : Sound p) (v : Option Nat) (g : GrpallocCache) :
    Sound (p.setGrpallocCache v g) := by
  unfold Pool.setGrpallocCache
  split
  · exact s
  · rename_i c hc
    split
    · exact s.touch (holders_of_pick hc)
    · exact s.putConf (holders_of_pick hc) rfl rfl rfl rfl fun i => i.congr rfl rfl rfl

theorem Sound.refGrpPtr (s : Sound p) (b : Nat) (grant : Bool) : Sound (p.refGrpPtr b grant) := by
  unfold Pool.refGrpPtr
  split
  · exact s
  · rename_i x hx
    split
    · exact s.putTables _ (holders_of_base hx) rfl rfl
    · exact s.touch (holders_of_base hx)

theorem Sound.setTables (s : Sound p) (v : Option Nat) (loc : List Nat)
    (dataUsr : List (Option String)) (fmtUsrNames : List String) (fmtSpecMake : Nat) :
    Sound (p.setTables v loc dataUsr fmtUsrNames fmtSpecMake) := by
  unfold Pool.setTables
  split
  · exact s
  · rename_i c hc
    have i := s.refs.intact c (holders_of_pick hc)
    exact s.putTables _ (holders_of_pick hc) i.loc.symm i.dataUsr.symm

theorem Sound.cacheAddConf (s : Sound p) (hc : 0 < p.holders c) (name : String) (grant : Bool) :
    Sound (p.cacheAddConf c name grant).2 := by
  unfold Pool.cacheAddConf
  split
  · exact s.putConf hc rfl rfl rfl rfl fun i =>
      ⟨i.loc, i.dataUsr, i.cacheCbs.trans (List.prefix_append _ _)⟩
  · exact s.touch hc

theorem Sound.cacheAdd (s : Sound p) (v : Option Nat) (name : String) (grant : Bool) :
    Sound (p.cacheAdd v name grant) := by
  unfold Pool.cacheAdd
  split
  · exact s
  · rename_i c hc
    exact s.cacheAddConf (holders_of_pick hc) name grant

theorem Sound.cacheSetFor (s : Sound p) (b pos : Nat) (owner : Option String) (grant : Bool) :
    Sound (p.cacheSetFor b pos owner grant).2 := by
  unfold Pool.cacheSetFor
  split
  · exact s
  · rename_i x hx
    split
    · exact s
    · split
      · exact s
      · exact s.putBase hx rfl

theorem Sound.cacheSet (s : Sound p) (b pos : Nat) (data grant : Bool) :
    Sound (p.cacheSet b pos data grant) := by
  unfold Pool.cacheSet
  split
  · exact s
  · exact s.cacheSetFor b pos _ grant

theorem Sound.sectsUpdateDel (s : Sound p) (b : Nat) (last : Bool) :
    Sound (p.sectsUpdateDel b last) := by
  unfold Pool.sectsUpdateDel
  split
  · exact s
  · rename_i x hx
    have ht := s.touch (holders_of_base hx)
    split
    · exact ht.cacheSetFor b _ none false
    · exact ht

theorem Sound.sectsCbAdd (s : Sound p) (hc : 0 < p.holders c) (grant : Bool) :
    Sound (p.sectsCbAdd c grant) := by
  unfold Pool.sectsCbAdd
  split
  · refine (s.cacheAddConf hc sectsCb grant).putConf ?_ rfl rfl rfl rfl
      fun i => i.congr rfl rfl rfl
    unfold Pool.cacheAddConf
    split
    · exact hc
    · exact hc
  · exact s

theorem Sound.sectsListAdd (s : Sound p) (b : Nat) (x : Base) (k : Nat)
    (grants : Pool.SectsGrants) :
    Sound (p.sectsListAdd b x k grants).2 := by
  have hn := s.cacheSetFor b k none grants.slots
  unfold Pool.sectsListAdd
  split
  · split
    · rename_i q he
      rw [he] at hn
      exact hn
    · rename_i q he
      rw [he] at hn
      split
      · exact hn.cacheSetFor b k _ true
      · exact hn
  · split
    · exact s.cacheSetFor b k _ true
    · exact s

theorem Sound.sectsUpdateAdd (s : Sound p) (b : Nat) (grants : Pool.SectsGrants) :
    Sound (p.sectsUpdateAdd b grants).2 := by
  unfold Pool.sectsUpdateAdd
  split
  · exact s
  · rename_i x hx
    have hc : 0 < p.holders x.conf := holders_of_base hx
    have ht := (s.touch hc).sectsCbAdd hc grants.table
    dsimp only
    split
    · exact ht
    · exact ht.sectsListAdd b x _ grants

/-! ## Calls that change who holds a configuration -/

theorem Pool.refLink_newConf (p : Pool) (c : Nat) :
    (p.newConf.conf c).refLink = (p.conf c).refLink := by
  rw [p.conf_newConf c]
  split
  · rename_i hc
    rw [hc, Pool.conf_of_le (Nat.le_refl _)]
    rfl
  · rfl

theorem Pool.refLink_addConf (p : Pool) (c d : Nat) :
    ((p.addConf c).conf d).refLink = (p.conf d).refLink := p.refLink_putConf c d _ rfl

theorem Pool.refLink_addUserConf (p : Pool) (c d : Nat) :
    ((p.addUserConf c).conf d).refLink = (p.conf d).refLink :=
  (Pool.refLink_addConf _ c d).trans (p.refLink_putConf c d _ rfl)

theorem Pool.refLink_freeUserConf (p : Pool) (c d : Nat) :
    ((p.freeUserConf c).conf d).refLink = (p.conf d).refLink :=
  (Pool.refLink_delConf _ c d).trans (p.refLink_putConf c d _ rfl)

theorem Pool.delConf_tables (p : Pool) (c : Nat) :
    (p.delConf c).bases = p.bases ∧ (p.delConf c).groups = p.groups ∧ (p.delConf c).bufs = p.bufs ∧
      (p.delConf c).handles = p.handles ∧ (p.delConf c).dflt = p.dflt := by
  unfold Pool.delConf
  split
  · exact ⟨rfl, rfl, rfl, rfl, rfl⟩
  · exact ⟨rfl, rfl, rfl, rfl, rfl⟩

theorem Pool.freeUserConf_tables (p : Pool) (c : Nat) :
    (p.freeUserConf c).bases = p.bases ∧ (p.freeUserConf c).groups = p.groups ∧
      (p.freeUserConf c).bufs = p.bufs ∧ (p.freeUserConf c).handles = p.handles ∧
      (p.freeUserConf c).dflt = p.dflt := Pool.delConf_tables _ c

/-- After the counters were moved: the new state is sound when they say who holds what. -/
theorem Sound.moved {r : Pool} (s : Sound p) (hr : Refs q u n)
    (hl : ∀ d, (q.conf d).refLink = (p.conf d).refLink) (hc : r.confs = q.confs)
    (hf : r.fault = q.fault) (hg : r.groups = p.groups) (hb : r.bufs = p.bufs)
    (hu : ∀ d, u d = r.usersOf d) (hn : ∀ d, n d = r.holders d) : Sound r := by
  refine ⟨(hr.frame hc hf).congr hu hn, s.linked.frame hg hb fun d => ?_⟩
  rw [← hl d, Pool.conf, Pool.conf, hc]

theorem Sound.init (s : Sound p) (grant : Bool) : Sound (p.init grant) := by
  unfold Pool.init
  split
  · rename_i hd
    refine s.moved s.refs.newConf p.refLink_newConf rfl rfl rfl rfl (fun d => ?_) (fun d => ?_)
    · simp only [Pool.usersOf, hd, Option.elim]
      rfl
    · simp only [Pool.holders, Pool.usersOf, Pool.basesOf, Pool.groupsOf, Pool.newConf, hd,
        Option.elim]
      omega
  · exact s

theorem Sound.makeConf (s : Sound p) (grant : Bool) : Sound (p.makeConf grant) := by
  unfold Pool.makeConf
  split
  · have ht := fun d => tally_concat id p.handles p.confs.length d
    refine s.moved s.refs.newConf p.refLink_newConf rfl rfl rfl rfl (fun d => ?_) (fun d => ?_)
    · simp only [Pool.usersOf, Pool.newConf, ht, id]
      omega
    · simp only [Pool.holders, Pool.usersOf, Pool.basesOf, Pool.groupsOf, Pool.newConf, ht, id]
      omega
  · exact s

/-- The caller gives up a reference: the counters are those of the references left. -/
theorem Sound.freeUserConf {r : Pool} (s : Sound p) (hu : ∀ d, p.usersOf d = r.usersOf d + bump c d)
    (hc : r.confs = (p.freeUserConf c).confs) (hf : r.fault = (p.freeUserConf c).fault)
    (hb : r.bases = p.bases) (hg : r.groups = p.groups) (hk : r.bufs = p.bufs) : Sound r := by
  have hn : ∀ d, p.holders d = r.holders d + bump c d := by
    intro d
    have := hu d
    simp only [Pool.holders, Pool.basesOf, Pool.groupsOf, hb, hg]
    omega
  exact s.moved (s.refs.congr hu hn).freeUserConf (p.refLink_freeUserConf c) hc hf hg hk
    (fun _ => rfl) (fun _ => rfl)

theorem Sound.freeConf (s : Sound p) (h : Nat) : Sound (p.freeConf h) := by
  unfold Pool.freeConf
  split
  · exact s
  · rename_i c hc
    obtain ⟨t1, t2, t3, t4, t5⟩ := p.freeUserConf_tables c
    refine s.freeUserConf (fun d => ?_) rfl rfl t1 t2 t3
    have ht := tally_set_none (c := d) id (Pool.getElem?_of_join hc)
    show tally id p.handles d + p.dflt.elim 0 (fun e => bump e d) =
      tally id (p.handles.set h none) d +
      (p.freeUserConf c).dflt.elim 0 (fun e => bump e d) + bump c d
    rw [t5, ← ht, id]
    omega

theorem Sound.exit (s : Sound p) : Sound p.exit := by
  unfold Pool.exit
  split
  · exact s
  · rename_i c hc
    obtain ⟨t1, t2, t3, t4, t5⟩ := p.freeUserConf_tables c
    refine s.freeUserConf (fun d => ?_) rfl rfl t1 t2 t3
    show tally id p.handles d + p.dflt.elim 0 (fun e => bump e d) =
      tally id (p.freeUserConf c).handles d + 0 + bump c d
    rw [t4, hc]
    rfl

/-- The caller gets a reference to a configuration that somebody holds. -/
theorem Sound.newHandle (s : Sound p) (hc : 0 < p.holders c) :
    Sound { p.addUserConf c with handles := p.handles ++ [some c] } := by
  have ht := fun d => tally_concat id p.handles c d
  refine s.moved (s.refs.addUserConf hc) (p.refLink_addUserConf c) rfl rfl rfl rfl
    (fun d => ?_) (fun d => ?_)
  · simp only [Pool.usersOf, ht, id]
    show _ = _ + p.dflt.elim 0 (fun e => bump e d)
    omega
  · simp only [Pool.holders, Pool.usersOf, Pool.basesOf, Pool.groupsOf, ht, id]
    show _ = _ + p.dflt.elim 0 (fun e => bump e d) + tally _ p.bases d + tally _ p.groups d
    omega

theorem Sound.optGetConf (s : Sound p) : Sound p.optGetConf := by
  unfold Pool.optGetConf
  split
  · exact s
  · rename_i c hc
    exact s.newHandle (holders_of_pick (v := none) hc)

theorem Sound.baseGetConf (s : Sound p) (b : Nat) : Sound (p.baseGetConf b) := by
  unfold Pool.baseGetConf
  split
  · exact s
  · rename_i x hx
    exact s.newHandle (holders_of_base hx)

theorem Sound.optSetConf (s : Sound p) (h : Nat) : Sound (p.optSetConf h) := by
  unfold Pool.optSetConf
  split
  · rename_i c v hc hv
    split
    · exact s
    · obtain ⟨t1, t2, t3, t4, t5⟩ := p.freeUserConf_tables c
      have hu : ∀ d, p.usersOf d = tally id p.handles d + bump c d := by
        intro d
        simp only [Pool.usersOf, hc, Option.elim]
      have hn : ∀ d, p.holders d =
          (tally id p.handles d + p.basesOf d + p.groupsOf d) + bump c d := by
        intro d
        rw [Pool.holders, hu d]
        omega
      have hv' : 0 < tally id p.handles v + p.basesOf v + p.groupsOf v := by
        have : 0 < tally id p.handles v := tally_pos id (Pool.getElem?_of_join hv)
        omega
      have hr := (s.refs.congr hu hn).freeUserConf.addUserConf hv'
      refine s.moved hr (fun d => ?_) rfl rfl t2 t3 (fun d => ?_) (fun d => ?_)
      · rw [Pool.refLink_addUserConf, Pool.refLink_freeUserConf]
      · show _ = tally id (p.freeUserConf c).handles d + bump v d
        rw [t4]
      · show _ = tally id (p.freeUserConf c).handles d + bump v d +
          tally Base.conf (p.freeUserConf c).bases d +
          tally RefLinked.conf (p.freeUserConf c).groups d
        rw [t4, t1, t2, Pool.basesOf, Pool.groupsOf]
        omega
  · exact s

theorem Sound.initBase (s : Sound p) (hc : 0 < p.holders c) (sz : Nat) :
    Sound (p.initBase c sz) := by
  refine s.moved (s.refs.addConf hc) (p.refLink_addConf c) rfl rfl rfl rfl
    (fun d => rfl) (fun d => ?_)
  simp only [Pool.initBase, Pool.holders, Pool.basesOf, tally_concat]
  show _ = p.usersOf d + (tally _ p.bases d + bump c d) + p.groupsOf d
  omega

theorem Sound.makeBase (s : Sound p) (v : Option Nat) (grant : Bool) :
    Sound (p.makeBase v grant) := by
  unfold Pool.makeBase
  split
  · exact s
  · rename_i c hc
    have hp := holders_of_pick hc
    split
    · rename_i sz rest _
      exact (s.putTables { (p.conf c).tables with spareBases := rest } hp rfl
        rfl).initBase hp sz
    · split
      · exact s.initBase hp 0
      · exact s.touch hp

/-! ## References to converted buffers that go away -/

/-- The groups after a buffer of the group `g` went away, with the group if it was the last. -/
theorem Linked.drop {g : Nat} {ln : RefLinked} (hl : Linked none p)
    (hk : p.bufs[k]? = some (some g))
    (hg : p.groups[g]? = some (some ln)) (hb : q.bufs = p.bufs.set k none)
    (hq : q.groups = p.groups.set g
      (if ln.lRef - 1 = 0 then none else some { ln with lRef := ln.lRef - 1 }))
    (hr : ∀ c g', (q.conf c).refLink = some g' →
      (p.conf c).refLink = some g' ∧ (ln.lRef - 1 = 0 → g' ≠ g)) : Linked none q := by
  have hlt : g < p.groups.length := (List.getElem?_eq_some_iff.1 hg).1
  have hbo : ∀ g', q.bufsOf g' + bump g g' = p.bufsOf g' := by
    intro g'
    rw [Pool.bufsOf, hb]
    exact tally_set_none (c := g') id hk
  have hself : q.bufsOf g + 1 = p.bufsOf g := by
    have := hbo g
    rwa [bump_self] at this
  have hln := (hl.lRef g ln hg).1
  have hget : ∀ g', g' ≠ g → q.groups[g']? = p.groups[g']? := fun g' hne => by
    rw [hq, List.getElem?_set_ne (fun e => hne e.symm)]
  have hgg : q.groups[g]? =
      some (if ln.lRef - 1 = 0 then none else some { ln with lRef := ln.lRef - 1 }) := by
    rw [hq, List.getElem?_set_self hlt]
  refine ⟨fun g' ln' h => ?_, fun g' h => ?_, fun c g' h => ?_⟩
  · by_cases hne : g' = g
    · subst hne
      rw [hgg] at h
      split at h
      · cases h
      · cases h
        exact ⟨by show ln.lRef - 1 = _; omega, fun _ => by show 0 < ln.lRef - 1; omega⟩
    · have hold := hl.lRef g' ln' (hget g' hne ▸ h)
      have := hbo g'
      rw [bump_of_ne hne] at this
      exact ⟨by omega, hold.2⟩
  · by_cases hne : g' = g
    · subst hne
      exact ⟨_, by rw [hgg, if_neg (by omega)]⟩
    · have := hbo g'
      rw [hget g' hne]
      exact hl.named g' (by omega)
  · obtain ⟨hp, hgone⟩ := hr c g' h
    obtain ⟨ln', hln', hc⟩ := hl.link c g' hp
    by_cases hne : g' = g
    · subst hne
      rw [hg] at hln'
      obtain rfl : ln = ln' := by simpa using hln'
      refine ⟨{ ln with lRef := ln.lRef - 1 }, ?_, hc⟩
      rw [hgg, if_neg (fun h0 => hgone h0 rfl)]
    · exact ⟨ln', by rw [hget g' hne]; exact hln', hc⟩

theorem Pool.freeLink_tables (p : Pool) (g c : Nat) :
    (p.freeLink g c).bases = p.bases ∧ (p.freeLink g c).groups = p.groups.set g none ∧
      (p.freeLink g c).bufs = p.bufs ∧ (p.freeLink g c).handles = p.handles ∧
      (p.freeLink g c).dflt = p.dflt := by
  obtain ⟨t1, t2, t3, t4, t5⟩ :=
    Pool.delConf_tables { p.unlink g c with groups := p.groups.set g none } c
  have hu : (p.unlink g c).bases = p.bases ∧ (p.unlink g c).bufs = p.bufs ∧
      (p.unlink g c).handles = p.handles ∧ (p.unlink g c).dflt = p.dflt := by
    unfold Pool.unlink
    split
    · exact ⟨rfl, rfl, rfl, rfl⟩
    · exact ⟨rfl, rfl, rfl, rfl⟩
  exact ⟨t1.trans hu.1, t2, t3.trans hu.2.1, t4.trans hu.2.2.1, t5.trans hu.2.2.2⟩

theorem Refs.unlink (r : Refs p u n) (hc : 0 < n c) (g : Nat) : Refs (p.unlink g c) u n := by
  unfold Pool.unlink
  split
  · exact r.putConf_same hc rfl rfl rfl fun i => i.congr rfl rfl rfl
  · exact r

theorem Refs.freeLink (r : Refs p u (fun d => n d + bump c d)) (g : Nat) :
    Refs (p.freeLink g c) u n := by
  have hc : 0 < n c + bump c c := by rw [bump_self]; omega
  exact ((r.unlink hc g).frame (q := { p.unlink g c with groups := p.groups.set g none })
    rfl rfl).delConf

/-- Which group a configuration keeps at hand after one of its groups went away. -/
theorem refLink_freeLink {g g' : Nat} (hc : c < p.confs.length)
    (h : ((p.freeLink g c).conf d).refLink = some g') :
    (p.conf d).refLink = some g' ∧ (d = c → g' ≠ g) := by
  unfold Pool.freeLink at h
  rw [Pool.refLink_delConf] at h
  replace h : ((p.unlink g c).conf d).refLink = some g' := h
  unfold Pool.unlink at h
  split at h
  · rw [p.conf_putConf c d _ hc] at h
    split at h
    · cases h
    · rename_i hd
      exact ⟨h, fun e => absurd e hd⟩
  · rename_i hl
    refine ⟨h, fun hd hg => hl ?_⟩
    rw [← hd, ← hg]
    exact h

theorem Sound.dropRef (s : Sound p) (k : Nat) : Sound (p.dropRef k) := by
  unfold Pool.dropRef
  split
  · exact s
  · rename_i g hk
    have hk' := Pool.getElem?_of_join hk
    obtain ⟨ln, hg⟩ := s.linked.named g (tally_pos id hk')
    have hpos : 0 < p.holders ln.conf := holders_of_group hg
    rw [hg, Option.join_some]
    dsimp only
    have hrel : Refs (p.relinkBuf ln.conf) p.usersOf p.holders :=
      s.refs.putConf_same hpos rfl rfl rfl
      fun i => i.congr rfl rfl rfl
    have hlink : ∀ d, ((p.relinkBuf ln.conf).conf d).refLink = (p.conf d).refLink :=
      fun d => p.refLink_putConf _ d _ rfl
    split
    · rename_i h0
      generalize hr : ({ p.relinkBuf ln.conf with bufs := p.bufs.set k none } : Pool) = r
      have hrr : Refs r p.usersOf p.holders := hr ▸ hrel.frame rfl rfl
      have hrl : ∀ d, (r.conf d).refLink = (p.conf d).refLink := hr ▸ hlink
      obtain ⟨e1, e2, e3, e4, e5⟩ : r.bases = p.bases ∧ r.groups = p.groups ∧
          r.handles = p.handles ∧ r.dflt = p.dflt ∧ r.bufs = p.bufs.set k none :=
        hr ▸ ⟨rfl, rfl, rfl, rfl, rfl⟩
      obtain ⟨d1, d2, d3, d4, d5⟩ := r.freeLink_tables g ln.conf
      have hn : ∀ d, p.holders d = p.usersOf d + p.basesOf d +
          tally RefLinked.conf (p.groups.set g none) d + bump ln.conf d := by
        intro d
        have := tally_set_none (c := d) RefLinked.conf hg
        rw [Pool.holders, Pool.groupsOf]
        omega
      have hdel := Refs.freeLink (hrr.congr (fun _ => rfl) hn) g
      refine ⟨hdel.congr (fun d => ?_) (fun d => ?_), ?_⟩
      · simp only [Pool.usersOf, d4, d5, e3, e4]
      · simp only [Pool.holders, Pool.usersOf, Pool.basesOf, Pool.groupsOf, d1, d2, d4, d5,
          e1, e2, e3, e4]
      · refine s.linked.drop hk' hg (by rw [d3, e5]) (by rw [d2, if_pos h0, e2]) fun c g' h => ?_
        obtain ⟨h1, h2⟩ := refLink_freeLink (hrr.lt hpos) h
        rw [hrl] at h1
        refine ⟨h1, fun _ hgg => ?_⟩
        obtain ⟨ln', hln', hc⟩ := s.linked.link c g' h1
        rw [hgg, hg] at hln'
        obtain rfl : ln = ln' := by simpa using hln'
        exact h2 hc.symm hgg
    · rename_i h0
      have hn : ∀ d, p.holders d = ({ p.relinkBuf ln.conf with
          bufs := p.bufs.set k none,
          groups := p.groups.set g (some { ln with lRef := ln.lRef - 1 }) } : Pool).holders d := by
        intro d
        have := tally_set (b := { ln with lRef := ln.lRef - 1 }) (c := d) RefLinked.conf hg
        show p.usersOf d + p.basesOf d + tally _ p.groups d =
          p.usersOf d + p.basesOf d + tally _ (p.groups.set g _) d
        dsimp only at this
        omega
      refine ⟨Refs.congr (u := p.usersOf) (n := p.holders) ?_ (fun _ => rfl) hn, ?_⟩
      · exact hrel.frame rfl rfl
      refine s.linked.drop hk' hg rfl (by rw [if_neg h0]; rfl) fun c g' h => ?_
      exact ⟨(hlink c).symm.trans h, fun h1 => absurd h1 h0⟩

theorem Sound.dropRefs (s : Sound p) (ks : List Nat) : Sound (p.dropRefs ks) := by
  unfold Pool.dropRefs
  induction ks generalizing p with
  | nil => exact s
  | cons k ks ih => exact ih (s.dropRef k)

theorem Pool.bases_dropRef (p : Pool) (k : Nat) : (p.dropRef k).bases = p.bases := by
  unfold Pool.dropRef
  split
  · rfl
  · split
    · rfl
    · dsimp only
      split
      · exact (Pool.freeLink_tables _ _ _).1
      · rfl

theorem Pool.bases_dropRefs (p : Pool) (ks : List Nat) : (p.dropRefs ks).bases = p.bases := by
  unfold Pool.dropRefs
  induction ks generalizing p with
  | nil => rfl
  | cons k ks ih => exact (ih _).trans (p.bases_dropRef k)

/-! ## Bases that come to or leave a configuration -/

/-- A base of a sound state goes away. -/
theorem Sound.dropBase {x : Base} (s : Sound p) (hb : p.base b = some x) :
    Sound ({ p with bases := p.bases.set b none }.delConf x.conf) := by
  obtain ⟨t1, t2, t3, t4, t5⟩ := Pool.delConf_tables { p with bases := p.bases.set b none } x.conf
  have hn : ∀ d, p.holders d =
      p.usersOf d + tally Base.conf (p.bases.set b none) d + p.groupsOf d + bump x.conf d := by
    intro d
    have := tally_set_none (c := d) Base.conf (Pool.getElem?_of_join hb)
    rw [Pool.holders, Pool.basesOf]
    omega
  have hr := (s.refs.congr (fun _ => rfl) hn).frame (q := { p with bases := p.bases.set b none })
    rfl rfl
  refine s.moved hr.delConf (fun d => Pool.refLink_delConf _ _ d) rfl rfl t2 t3
    (fun d => ?_) (fun d => ?_)
  · simp only [Pool.usersOf, t4, t5]
  · simp only [Pool.holders, Pool.usersOf, Pool.basesOf, Pool.groupsOf, t1, t2, t4, t5]

theorem Pool.bases_keepBase (p : Pool) (x : Base) : (p.keepBase x).bases = p.bases := by
  unfold Pool.keepBase
  dsimp only
  split
  · rfl
  · rfl

theorem Sound.keepBase {x : Base} (s : Sound p) (hc : 0 < p.holders x.conf) :
    Sound (p.keepBase x) := by
  unfold Pool.keepBase
  dsimp only
  split
  · exact s.putTables _ hc rfl rfl
  · exact s.touch hc

theorem Sound.freeBase (s : Sound p) (b : Nat) (ks : List Nat) (nodes : Spares) :
    Sound (p.freeBase b ks nodes) := by
  unfold Pool.freeBase
  have hs := s.cacheCbs b 0 fun _ => false
  generalize p.cacheCbs b 0 (fun _ => false) = q at hs
  dsimp only
  split
  · exact hs
  · rename_i x hx
    have hx₁ : (q.dropRefs ks).base b = some x := by
      rw [Pool.base, q.bases_dropRefs]
      exact hx
    have hc : 0 < (q.dropRefs ks).holders x.conf := holders_of_base hx₁
    have hr : Sound ((q.dropRefs ks).relinkNodes x.conf nodes) := (hs.dropRefs ks).putSpares hc _
    have hb : (((q.dropRefs ks).relinkNodes x.conf nodes).keepBase x).bases = q.bases :=
      (Pool.bases_keepBase _ x).trans (q.bases_dropRefs ks)
    have hx₂ : (((q.dropRefs ks).relinkNodes x.conf nodes).keepBase x).base b = some x := by
      rw [Pool.base, hb]
      exact hx
    have := (hr.keepBase hc).dropBase hx₂
    rw [hb] at this
    exact this

/-! ## Spare bases -/

/-- What an argument names depends on the references of the caller only. -/
theorem Pool.pick_congr {v : Option Nat} (hh : q.handles = p.handles) (hd : q.dflt = p.dflt) :
    q.pick v = p.pick v := by
  cases v with
  | none => exact hd
  | some h => rw [Pool.pick, Pool.pick, hh]

theorem Pool.makeBase_users (p : Pool) (v : Option Nat) (grant : Bool) :
    (p.makeBase v grant).handles = p.handles ∧ (p.makeBase v grant).dflt = p.dflt := by
  unfold Pool.makeBase
  split
  · exact ⟨rfl, rfl⟩
  · split
    · exact ⟨rfl, rfl⟩
    · split
      · exact ⟨rfl, rfl⟩
      · exact ⟨rfl, rfl⟩

theorem Pool.cacheCbs_users (p : Pool) (b first : Nat) (answer : Nat → Bool) :
    (p.cacheCbs b first answer).handles = p.handles ∧
      (p.cacheCbs b first answer).dflt = p.dflt := by
  unfold Pool.cacheCbs
  split
  · exact ⟨rfl, rfl⟩
  · split
    · exact ⟨rfl, rfl⟩
    · exact ⟨rfl, rfl⟩

/-- A base without converted buffers is freed. -/
theorem Pool.freeBase_users (p : Pool) (b : Nat) (nodes : Spares) :
    (p.freeBase b [] nodes).handles = p.handles ∧ (p.freeBase b [] nodes).dflt = p.dflt := by
  obtain ⟨c1, c2⟩ := p.cacheCbs_users b 0 fun _ => false
  unfold Pool.freeBase
  dsimp only
  generalize p.cacheCbs b 0 (fun _ => false) = q at c1 c2
  split
  · exact ⟨c1, c2⟩
  · rename_i x hx
    obtain ⟨-, -, -, t4, t5⟩ := Pool.delConf_tables
      { ((q.dropRefs []).relinkNodes x.conf nodes).keepBase x with bases := q.bases.set b none }
      x.conf
    have hk : (((q.dropRefs []).relinkNodes x.conf nodes).keepBase x).handles = q.handles ∧
        (((q.dropRefs []).relinkNodes x.conf nodes).keepBase x).dflt = q.dflt := by
      unfold Pool.keepBase
      dsimp only
      split
      · exact ⟨rfl, rfl⟩
      · exact ⟨rfl, rfl⟩
    exact ⟨(t4.trans hk.1).trans c1, (t5.trans hk.2).trans c2⟩

theorem Sound.addSpareBase {v : Option Nat} (s : Sound p) (hv : p.pick v = some c) :
    Sound (p.addSpareBase v c) ∧ (p.addSpareBase v c).pick v = some c := by
  unfold Pool.addSpareBase
  dsimp only
  have h₁ := s.putTables { (p.conf c).tables with spareBases := [] }
    (holders_of_pick hv) rfl rfl
  have hv₁ : (p.putTables c { (p.conf c).tables with spareBases := [] }).pick v = some c :=
    (Pool.pick_congr rfl rfl).trans hv
  generalize p.putTables c { (p.conf c).tables with spareBases := [] } = q at h₁ hv₁
  obtain ⟨m1, m2⟩ := q.makeBase_users v true
  have hv₂ : (q.makeBase v true).pick v = some c := (Pool.pick_congr m1 m2).trans hv₁
  have h₂ := h₁.makeBase v true
  generalize q.makeBase v true = r at h₂ hv₂
  have h₃ : Sound (r.putTables c
      { (r.conf c).tables with spareBases := (p.conf c).tables.spareBases }) :=
    h₂.putTables _ (holders_of_pick hv₂) rfl rfl
  have hv₃ : (r.putTables c
      { (r.conf c).tables with spareBases := (p.conf c).tables.spareBases }).pick v = some c :=
    (Pool.pick_congr rfl rfl).trans hv₂
  generalize r.putTables c
    { (r.conf c).tables with spareBases := (p.conf c).tables.spareBases } = t at h₃ hv₃
  obtain ⟨f1, f2⟩ := t.freeBase_users q.bases.length ⟨0, 0, 0, 0⟩
  exact ⟨h₃.freeBase _ [] _, (Pool.pick_congr f1 f2).trans hv₃⟩

theorem Sound.addSpareBases {v : Option Nat} (s : Sound p) (hv : p.pick v = some c)
    (grants : List Bool) : Sound (p.addSpareBases v c grants) := by
  induction grants generalizing p with
  | nil => exact s.touch (holders_of_pick hv)
  | cons g gs ih =>
    cases g with
    | false => exact s.touch (holders_of_pick hv)
    | true =>
      obtain ⟨h, hv'⟩ := s.addSpareBase hv
      exact ih h hv'

theorem Sound.setNumSpareBase (s : Sound p) (v : Option Nat) (n : Nat) (grants : List Bool) :
    Sound (p.setNumSpareBase v n grants) := by
  unfold Pool.setNumSpareBase
  split
  · exact s
  · rename_i c hc
    dsimp only
    split
    · exact s.addSpareBases hc _
    · exact s.putTables _ (holders_of_pick hc) rfl rfl

/-! ## Bases that change their configuration -/

theorem Sound.baseSetConf (s : Sound p) (b : Nat) (v : Option Nat) :
    Sound (p.baseSetConf b v).2 := by
  unfold Pool.baseSetConf
  split
  · rename_i x c hx hc
    split
    · exact s
    · rename_i hne
      have hxp := holders_of_base hx
      have hcp := holders_of_pick hc
      have hs : Sound ((p.touch x.conf).touch c) := (s.touch hxp).touch hcp
      dsimp only
      split
      · obtain ⟨t1, t2, t3, t4, t5⟩ := Pool.delConf_tables ((p.touch x.conf).touch c) x.conf
        have hle : ∀ d, bump x.conf d ≤ p.holders d := by
          intro d
          unfold bump
          split
          · rename_i hd
            rw [hd]
            exact hxp
          · exact Nat.zero_le _
        have hn : ∀ d, ((p.touch x.conf).touch c).holders d =
            (p.holders d - bump x.conf d) + bump x.conf d := fun d => by
          have := hle d
          show p.holders d = _
          omega
        have hdel := (hs.refs.congr (fun _ => rfl) hn).delConf
        have hput := hdel.frame (q := ((((p.touch x.conf).touch c).delConf x.conf).putBase b
          { x with conf := c })) rfl rfl
        have hcn : 0 < p.holders c - bump x.conf c := by
          rw [bump_of_ne (fun e => hne e.symm)]
          exact hcp
        refine hs.moved (hput.addConf hcn) (fun d => ?_) rfl rfl t2 t3 (fun d => ?_) (fun d => ?_)
        · rw [Pool.refLink_addConf]
          exact Pool.refLink_delConf _ _ d
        · show _ = tally id (((p.touch x.conf).touch c).delConf x.conf).handles d +
            (((p.touch x.conf).touch c).delConf x.conf).dflt.elim 0 (fun e => bump e d)
          rw [t4, t5]
          rfl
        · have hset := tally_set (b := { x with conf := c }) (c := d) Base.conf
            (Pool.getElem?_of_join hx)
          have := hle d
          show _ = tally id (((p.touch x.conf).touch c).delConf x.conf).handles d +
            (((p.touch x.conf).touch c).delConf x.conf).dflt.elim 0 (fun e => bump e d) +
            tally Base.conf ((((p.touch x.conf).touch c).delConf x.conf).bases.set b
              (some { x with conf := c })) d +
            tally RefLinked.conf (((p.touch x.conf).touch c).delConf x.conf).groups d
          rw [t1, t2, t4, t5]
          show _ = tally id p.handles d + p.dflt.elim 0 (fun e => bump e d) +
            tally Base.conf (p.bases.set b (some { x with conf := c })) d +
            tally RefLinked.conf p.groups d
          simp only [Pool.holders, Pool.usersOf, Pool.basesOf, Pool.groupsOf] at *
          omega
      · exact hs
  · exact s

/-- The base and the caller change configurations. -/
theorem Sound.swapUsers {x : Base} (s : Sound p) (hx : p.base b = some x)
    (hc : p.pick (some k) = some c) (hne : x.conf ≠ c) : Sound (p.swapUsers b x k c) := by
  have hxp := holders_of_base hx
  have hcp := holders_of_pick hc
  have hup := usersOf_of_pick hc
  have hr1 := s.refs.putUser hcp ((p.conf c).userRef - 1)
  have hr2 := hr1.putUser (c := x.conf) hxp
    (((p.putConf c { p.conf c with userRef := (p.conf c).userRef - 1 }).conf x.conf).userRef + 1)
  have hset := fun d => tally_set (b := { x with conf := c }) (c := d) Base.conf
    (Pool.getElem?_of_join hx)
  have hhan := fun d => tally_set (b := x.conf) (c := d) id (Pool.getElem?_of_join hc)
  have hu : ∀ d, tally id (p.handles.set k (some x.conf)) d + bump c d =
      tally id p.handles d + bump x.conf d := hhan
  have hold : (p.conf c).userRef = p.usersOf c := s.refs.users c
  have hnew :
      ((p.putConf c { p.conf c with userRef := (p.conf c).userRef - 1 }).conf x.conf).userRef =
      p.usersOf x.conf := by
    rw [p.conf_putConf c x.conf _ (s.refs.lt hcp), if_neg hne]
    exact s.refs.users x.conf
  refine s.moved hr2 (fun d => ?_) rfl rfl rfl rfl (fun d => ?_) (fun d => ?_)
  · refine Eq.trans (Pool.refLink_putConf _ _ d _ ?_) (p.refLink_putConf c d _ ?_)
    · rfl
    · rfl
  · show _ = tally id (p.handles.set k (some x.conf)) d + p.dflt.elim 0 (fun e => bump e d)
    have := hu d
    rw [hnew, hold]
    simp only [Pool.usersOf] at *
    by_cases h1 : d = x.conf
    · rw [if_pos h1]
      rw [h1, bump_self, bump_of_ne hne] at this
      rw [h1]
      omega
    · rw [if_neg h1]
      rw [bump_of_ne h1] at this
      by_cases h2 : d = c
      · rw [if_pos h2]
        rw [h2, bump_self] at this
        rw [h2]
        omega
      · rw [if_neg h2]
        rw [bump_of_ne h2] at this
        omega
  · show _ = tally id (p.handles.set k (some x.conf)) d + p.dflt.elim 0 (fun e => bump e d) +
      tally Base.conf (p.bases.set b (some { x with conf := c })) d +
      tally RefLinked.conf p.groups d
    have h1 := hu d
    have h2 := hset d
    simp only [Pool.holders, Pool.usersOf, Pool.basesOf, Pool.groupsOf] at *
    omega

theorem Pool.takeBufSz_tables (p : Pool) (c sz : Nat) :
    (p.takeBufSz c sz).bases = p.bases ∧ (p.takeBufSz c sz).groups = p.groups ∧
      (p.takeBufSz c sz).handles = p.handles ∧ (p.takeBufSz c sz).dflt = p.dflt := by
  unfold Pool.takeBufSz
  split
  · exact ⟨rfl, rfl, rfl, rfl⟩
  · exact ⟨rfl, rfl, rfl, rfl⟩

theorem Sound.takeBufSz (s : Sound p) (hc : 0 < p.holders c) (sz : Nat) :
    Sound (p.takeBufSz c sz) := by
  unfold Pool.takeBufSz
  split
  · exact s.putConf hc rfl rfl rfl rfl fun i => i.congr rfl rfl rfl
  · exact s

theorem Sound.swapConf (s : Sound p) (b k : Nat) (grant : Bool) :
    Sound (p.swapConf b k grant).2 := by
  unfold Pool.swapConf
  split
  · rename_i x c hx hc
    split
    · exact s
    · rename_i hne
      have hcp : 0 < p.holders c := holders_of_pick hc
      have hs : Sound ((p.touch x.conf).touch c) := (s.touch (holders_of_base hx)).touch hcp
      dsimp only
      split
      · exact hs
      · obtain ⟨t1, t2, t3, t4⟩ := Pool.takeBufSz_tables ((p.touch x.conf).touch c) c
          (((p.touch x.conf).touch c).conf x.conf).bufSz
        have hr := hs.takeBufSz (c := c) hcp
          (((p.touch x.conf).touch c).conf x.conf).bufSz
        generalize ((p.touch x.conf).touch c).takeBufSz c
          (((p.touch x.conf).touch c).conf x.conf).bufSz = r at hr t1 t2 t3 t4
        have hx' : r.base b = some x := by
          rw [Pool.base, t1]
          exact hx
        have hc' : r.pick (some k) = some c := by
          rw [Pool.pick, t3]
          exact hc
        split
        · exact hr.swapUsers hx' hc' hne
        · split
          · split
            · exact hr
            · have hd := hr.putConf (x := { r.conf c with
                cacheCbs := Pool.dupCbs (r.conf c) (r.conf x.conf) }) (holders_of_pick hc') rfl rfl
                rfl rfl fun i => ⟨i.loc, i.dataUsr,
                  (hr.refs.intact _ (holders_of_base hx')).cacheCbs.trans (List.prefix_append _ _)⟩
              exact hd.swapUsers hx' hc' hne
          · exact hr
  · exact s

/-! ## Buffers that become references -/

/-- One more buffer in a group, which may be the one just made. -/
theorem Sound.joinLink {g : Nat} {ln : RefLinked} (hr : Refs p p.usersOf p.holders)
    (hl : Linked (some g) p) (hg : p.groups[g]? = some (some ln)) (hc : ln.conf = c) :
    Sound (p.joinLink c g ln) := by
  have hpos : 0 < p.holders c := hc ▸ holders_of_group hg
  have hlt : g < p.groups.length := (List.getElem?_eq_some_iff.1 hg).1
  generalize hq : ({ p with
    groups := p.groups.set g (some { ln with lRef := ln.lRef + 1 }),
    bufs := p.bufs ++ [some g] } : Pool) = q
  have hqg : q.groups = p.groups.set g (some { ln with lRef := ln.lRef + 1 }) := hq ▸ rfl
  have hqb : ∀ g', q.bufsOf g' = p.bufsOf g' + bump g g' := fun g' => by
    rw [← hq]
    exact tally_concat id p.bufs g g'
  have hqn : ∀ d, p.holders d = q.holders d := by
    intro d
    have := tally_set (b := { ln with lRef := ln.lRef + 1 }) (c := d) RefLinked.conf hg
    rw [← hq]
    show p.usersOf d + p.basesOf d + tally _ p.groups d =
      p.usersOf d + p.basesOf d + tally _ (p.groups.set g _) d
    dsimp only at this
    omega
  have hqr : Refs q q.usersOf q.holders :=
    Refs.congr (u := p.usersOf) (n := p.holders) (hq ▸ hr.frame rfl rfl) (fun _ => hq ▸ rfl) hqn
  have hget : ∀ g', g' ≠ g → q.groups[g']? = p.groups[g']? := fun g' hne => by
    rw [hqg, List.getElem?_set_ne (fun e => hne e.symm)]
  have hself : q.groups[g]? = some (some { ln with lRef := ln.lRef + 1 }) := by
    rw [hqg, List.getElem?_set_self hlt]
  have hql : Linked none q := by
    refine ⟨fun g' ln' h => ?_, fun g' h => ?_, fun d g' h => ?_⟩
    · rw [hqb]
      by_cases hne : g' = g
      · subst hne
        rw [hself] at h
        cases h
        rw [bump_self, ← (hl.lRef g' ln hg).1]
        exact ⟨rfl, fun _ => Nat.succ_pos _⟩
      · have hold := hl.lRef g' ln' (hget g' hne ▸ h)
        rw [bump_of_ne hne]
        exact ⟨hold.1, fun _ => hold.2 (fun e => hne (Option.some.inj e).symm)⟩
    · by_cases hne : g' = g
      · exact ⟨_, hne ▸ hself⟩
      · rw [hqb, bump_of_ne hne] at h
        rw [hget g' hne]
        exact hl.named g' h
    · replace h : (p.conf d).refLink = some g' := by
        rw [← hq] at h
        exact h
      obtain ⟨ln', hln', hd⟩ := hl.link d g' h
      by_cases hne : g' = g
      · subst hne
        rw [hg] at hln'
        cases hln'
        exact ⟨_, hself, hd⟩
      · exact ⟨ln', (hget g' hne).trans hln', hd⟩
  unfold Pool.joinLink
  rw [hq]
  dsimp only
  split
  · refine ⟨hqr.putConf_same (hqn c ▸ hpos) rfl rfl rfl fun i => i.congr rfl rfl rfl, hql.lRef,
      hql.named, fun d g' h => ?_⟩
    rw [q.conf_putConf c d _ (hqr.lt (hqn c ▸ hpos))] at h
    split at h
    · cases h
    · exact hql.link d g' h
  · exact ⟨hqr, hql⟩

/-- A new group is made for a buffer that joins it. -/
theorem Sound.newLink (s : Sound p) (hc : 0 < p.holders c) :
    Refs (p.newLink c) (p.newLink c).usersOf (p.newLink c).holders ∧
      Linked (some p.groups.length) (p.newLink c) ∧
      (p.newLink c).groups[p.groups.length]? = some (some ⟨c, 0⟩) := by
  have hself : (p.groups ++ [some ⟨c, 0⟩])[p.groups.length]? = some (some ⟨c, 0⟩) := by simp
  have hold : ∀ g ln, g ≠ p.groups.length → (p.groups ++ [some ⟨c, 0⟩])[g]? = some (some ln) →
      p.groups[g]? = some (some ln) := by
    intro g ln hne h
    rcases Nat.lt_or_ge g p.groups.length with hlt | hge
    · rwa [List.getElem?_append_left hlt] at h
    · rw [List.getElem?_eq_none (by
        simp only [List.length_append, List.length_singleton]; omega)] at h
      cases h
  have hkeep : ∀ g ln, p.groups[g]? = some (some ln) →
      (p.groups ++ [some ⟨c, 0⟩])[g]? = some (some ln) := fun g ln h => by
    rw [List.getElem?_append_left (List.getElem?_eq_some_iff.1 h).1]
    exact h
  refine ⟨?_, ⟨fun g ln h => ?_, fun g h => ?_, fun d g h => ?_⟩, hself⟩
  · have href := s.refs.refs c
    have hput := s.refs.putConf
      (x := { p.conf c with refLink := some p.groups.length, ref := (p.conf c).ref + 1 }) hc
      (by
        rw [show ({ p.conf c with refLink := some p.groups.length, ref := (p.conf c).ref + 1 } :
          Conf).freed = (p.conf c).freed from rfl, s.refs.freed_false hc]
        simp)
      (fun h0 => absurd h0 (Nat.succ_ne_zero _)) fun _ => (s.refs.intact c hc).congr rfl rfl rfl
    refine Refs.congr (hput.frame rfl rfl) (fun d => ?_) (fun d => ?_)
    · split
      · rename_i hd
        rw [hd]
        exact s.refs.users c
      · rfl
    · have ht := tally_concat RefLinked.conf p.groups ⟨c, 0⟩ d
      show _ = p.usersOf d + p.basesOf d + tally _ (p.groups ++ [some ⟨c, 0⟩]) d
      rw [ht]
      dsimp only
      split
      · rename_i hd
        rw [hd, bump_self, href, Pool.holders, Pool.groupsOf]
        omega
      · rename_i hd
        rw [bump_of_ne hd, Pool.holders, Pool.groupsOf]
        omega
  · by_cases hne : g = p.groups.length
    · subst hne
      replace h : (p.groups ++ [some ⟨c, 0⟩])[p.groups.length]? = some (some ln) := h
      rw [hself] at h
      cases h
      refine ⟨?_, fun hn => absurd rfl hn⟩
      show 0 = p.bufsOf p.groups.length
      rcases Nat.eq_zero_or_pos (p.bufsOf p.groups.length) with h0 | h0
      · exact h0.symm
      · obtain ⟨ln', h'⟩ := s.linked.named _ h0
        rw [List.getElem?_eq_none (Nat.le_refl _)] at h'
        cases h'
    · have := s.linked.lRef g ln (hold g ln hne h)
      exact ⟨this.1, fun _ => this.2 (by simp)⟩
  · obtain ⟨ln, hln⟩ := s.linked.named g h
    exact ⟨ln, hkeep g ln hln⟩
  · replace h : ((p.putConf c { p.conf c with
        refLink := some p.groups.length, ref := (p.conf c).ref + 1 }).conf d).refLink = some g := h
    rw [p.conf_putConf c d _ (s.refs.lt hc)] at h
    split at h
    · rename_i hd
      cases h
      exact ⟨⟨c, 0⟩, hself, hd.symm⟩
    · obtain ⟨ln, hln, hd⟩ := s.linked.link d g h
      exact ⟨ln, hkeep g ln hln, hd⟩

theorem Sound.convertBufRefAdd (s : Sound p) (hc : 0 < p.holders c) (grant : Bool) :
    Sound (p.convertBufRefAdd c grant).2 := by
  unfold Pool.convertBufRefAdd
  split
  · split
    · obtain ⟨hr, hl, hg⟩ := s.newLink hc
      exact Sound.joinLink hr hl hg rfl
    · exact s
  · rename_i g hg
    obtain ⟨ln, hln, hd⟩ := s.linked.link c g hg
    rw [hln, Option.join_some]
    refine Sound.joinLink s.refs ⟨fun g' ln' h => ?_, s.linked.named, s.linked.link⟩ hln hd
    have := s.linked.lRef g' ln' h
    exact ⟨this.1, fun _ => this.2 (by simp)⟩

theorem Pool.convertBufRefAdd_bases (p : Pool) (c : Nat) (grant : Bool) :
    (p.convertBufRefAdd c grant).2.bases = p.bases := by
  have hj : ∀ (q : Pool) (g : Nat) (ln : RefLinked), (q.joinLink c g ln).bases = q.bases := by
    intro q g ln
    unfold Pool.joinLink
    dsimp only
    split
    · rfl
    · rfl
  unfold Pool.convertBufRefAdd
  split
  · split
    · exact hj _ _ _
    · rfl
  · split
    · rfl
    · exact hj _ _ _

theorem Sound.chgNodeBufRef (s : Sound p) (b : Nat) (grants : Pool.ConvertGrants) :
    Sound (p.chgNodeBufRef b grants).2 := by
  unfold Pool.chgNodeBufRef
  split
  · exact s
  · rename_i x hx
    have hc : 0 < p.holders x.conf := holders_of_base hx
    have ht := s.touch hc
    dsimp only
    split
    · exact ht
    · have hr := ht.putSpares (c := x.conf) hc
        { ((p.touch x.conf).conf x.conf).spares with
          ref := max ((p.touch x.conf).conf x.conf).spares.ref 1 }
      have hx' : ((p.touch x.conf).putSpares x.conf
        { ((p.touch x.conf).conf x.conf).spares with
          ref := max ((p.touch x.conf).conf x.conf).spares.ref 1 }).base b = some x := hx
      generalize (p.touch x.conf).putSpares x.conf _ = r at hr hx'
      split
      · have hg := hr.putTables { (r.conf x.conf).tables with refGrpBuf2ref := true }
          (holders_of_base hx') rfl rfl
        have hxg : (r.putTables x.conf
            { (r.conf x.conf).tables with refGrpBuf2ref := true }).base b = some x := hx'
        generalize r.putTables x.conf { (r.conf x.conf).tables with refGrpBuf2ref := true } = t
          at hg hxg
        have hconv := hg.convertBufRefAdd (c := x.conf) (holders_of_base hxg) grants.link
        have hb := t.convertBufRefAdd_bases x.conf grants.link
        split
        · rename_i q he
          rw [he] at hconv
          exact hconv
        · rename_i q he
          rw [he] at hconv hb
          have hxq : q.base b = some x := by
            rw [Pool.base, show q.bases = t.bases from hb]
            exact hxg
          exact hconv.putSpares (holders_of_base hxq) _
      · exact hr

/-! ## Sequences of calls -/

/-- Every call keeps the counts exact. -/
theorem Sound.step (s : Sound p) (a : Action) : Sound (p.step a) := by
  cases a with
  | init grant => exact s.init grant
  | exit => exact s.exit
  | makeConf grant => exact s.makeConf grant
  | freeConf h => exact s.freeConf h
  | optGetConf => exact s.optGetConf
  | optSetConf h => exact s.optSetConf h
  | makeBase v grant => exact s.makeBase v grant
  | freeBase b ks nodes => exact s.freeBase b ks nodes
  | baseGetConf b => exact s.baseGetConf b
  | baseSetConf b v => exact s.baseSetConf b v
  | swapConf b h grant => exact s.swapConf b h grant
  | chgNodeBufRef b grants => exact s.chgNodeBufRef b grants
  | dropRef k => exact s.dropRef k
  | edit b n spares answer => exact s.edit b n spares answer
  | cacheCbFree b num => exact s.cacheCbFree b num
  | setBufSz v n => exact s.setBufSz v n
  | setGrpallocCache v g => exact s.setGrpallocCache v g
  | setNumSpareBase v n grants => exact s.setNumSpareBase v n grants
  | refGrpPtr b grant => exact s.refGrpPtr b grant
  | setTables v loc dataUsr fmtUsrNames fmtSpecMake =>
    exact s.setTables v loc dataUsr fmtUsrNames fmtSpecMake
  | cacheAdd v name grant => exact s.cacheAdd v name grant
  | cacheSet b pos data grant => exact s.cacheSet b pos data grant
  | sectsUpdateAdd b grants => exact s.sectsUpdateAdd b grants
  | sectsUpdateDel b last => exact s.sectsUpdateDel b last

/-- The state after a sequence of calls. -/
def Pool.after (as : List Action) : Pool := as.foldl Pool.step .start

theorem sound_after (as : List Action) : Sound (Pool.after as) := by
  have hrun : ∀ (as : List Action) (p : Pool), Sound p → Sound (as.foldl Pool.step p) := by
    intro as
    induction as with
    | nil => exact fun _ h => h
    | cons a as ih => exact fun p h => ih _ (h.step a)
  exact hrun as _ sound_start

end Vstr.Confs
