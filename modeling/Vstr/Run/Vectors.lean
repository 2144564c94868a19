import Vstr.Export.All
import Vstr.Export.Ref
import Vstr.Sub.Whole

/-!
# Both caches over runs

A program edits a string and exports its vectors in any order. After every call of the run
the position cache answers as a scan from the first node would, and the vectors that are up
to date are those of the nodes, so that the vectors handed out are those of the content.
Two things are left out: an insertion in front of a string whose vectors are up to date that
moves consumed bytes or makes several nodes, and a call that fails once it has split a node.
-/

namespace Vstr

open Memory Splice Runs Fwd

variable {E : Env} {P P' : Own} {h h' : Heap} {s s' t : St} {k : AddKind} {b : Base}
variable {pos len room : Nat}

/-! ## Finding positions -/

/-- A byte is at one place. -/
theorem At.unique {f f' : Found} {pre pre' post post' : List Node} {n n' : Node}
    (h : At b pos f pre n post) (h' : At b pos f' pre' n' post') :
    pre' = pre ∧ f'.idx = f.idx ∧ f'.pos = f.pos := by
  have h1 := h.pos
  have h2 := h.one_le
  have h3 := h.le_len
  have h1' := h'.pos
  have h2' := h'.one_le
  have h3' := h'.le_len
  obtain ⟨rfl, -, -⟩ := node_unique (p := pos + b.used) (h.nodes.symm.trans h'.nodes) (by omega)
    (by omega) (by omega) (by omega)
  exact ⟨rfl, h'.idx.trans h.idx.symm, by omega⟩

/-- With a position cache that is right, a position is found as by a scan. -/
theorem basePos_scan {bufSz : Nat} (v : Valid bufSz b) (hd : (b.nodes.map Node.id).Nodup)
    (pk : PosOk True b) (h1 : 1 ≤ pos) (h2 : pos ≤ b.len) (cache : Bool) :
    (basePos b pos cache).1 = basePtrPos b pos := by
  obtain ⟨pre, n, post, hat, hnum, -⟩ := basePos_at v hd pk h1 h2 cache
  obtain ⟨pre', n', post', hat', hnum'⟩ := basePtrPos_at v h1 h2
  obtain ⟨rfl, hidx, hpos⟩ := hat.unique hat'
  have hn := (hnum trivial).trans hnum'.symm
  generalize (basePos b pos cache).1 = f at hidx hpos hn
  generalize basePtrPos b pos = g at hidx hpos hn
  cases f
  cases g
  simp only at hidx hpos hn
  rw [hidx, hpos, hn]

/-! ## Calls that fail -/

/-- An add function that fails has left the nodes and the position cache right, or has split a
node in front of the end. -/
theorem AddKind.add_failed (sd : Sound E P s) (pk : PosOk True s.base) (hpos : pos ≤ s.base.len)
    (hlen : 0 < len) (e : k.add s pos len = (false, s')) :
    PosOk True s'.base ∧ s'.base.nodes.length = s.base.nodes.length ∨
      pos < s.base.len ∧ s'.base.nodes.length = s.base.nodes.length + 1 := by
  rcases k.add_cases hpos hlen with ⟨-, e'⟩ | e'
  · rw [e] at e'
    cases e'
  rw [e'] at e
  unfold addData at e
  split at e
  · rename_i h0
    have h1 : 1 ≤ pos := by omega
    unfold addAfter at e
    obtain ⟨P', t, ⟨et, -, -, pk', ⟨d, hd⟩, -⟩ | ⟨f, pre, n, post, et, su⟩⟩ :=
      addSetupPos_spec sd pk h1 hpos
    · rw [et] at e
      cases e
      exact .inl ⟨pk', by rw [hd]⟩
    · rw [et] at e
      have hb : s'.base = t.base := by
        unfold addAt at e
        dsimp only at e
        split at e
        · cases e
          rfl
        · split at e
          · split at e <;> cases e
          · cases e
      rw [hb]
      obtain ⟨d, hd, hbase | ⟨n₀, beg, post₀, hns, -, hlt, -, -, hbase⟩⟩ := su.base
      · have pk₁ := posOk_basePos sd.valid sd.owned.nodes.nodup pk h1 hpos true
        rw [hbase, ← hd]
        exact .inl ⟨pk₁, by rw [hd]⟩
      · have hat := su.at_.pos
        have hv := sd.valid.len
        have hu : t.base.used = s.base.used := by
          rw [hbase]
          rfl
        rw [hns, lens_append, lens_cons] at hv
        refine .inr ⟨by omega, ?_⟩
        rw [hbase, hns]
        simp only [splitBase, List.length_append, List.length_cons]
        omega
  · unfold addFront at e
    split at e
    · cases e
      exact .inl ⟨pk, rfl⟩
    · dsimp only at e
      split at e <;> cases e

/-! ## Runs -/

/-- A call on a string that has a vector cache. -/
inductive VecCall where
  | add (k : AddKind) (pos len : Nat)
  | del (pos len : Nat)
  | exportIovecPtrAll

namespace VecCall

/-- Whether the call succeeds, and the state it leaves. -/
def run (t : St) : VecCall → Bool × St
  | add k pos len => k.add t pos len
  | del pos len => Vstr.del t pos len
  | exportIovecPtrAll => (true, (Vstr.exportIovecPtrAll t).2.2)

/-- The call is in range, its data stays where it is, and the arrays of vectors can be as long
as they have to be. -/
def Apart (E : Env) (P : Own) (t : St) : VecCall → Prop
  | add k pos len => pos ≤ t.base.len ∧ (∀ a, k = .ptr a → Foreign E P a.blk) ∧
    (∀ r, k.held = some r → 0 < E.ext r) ∧ k.FitsAt t pos len
  | del pos len => 1 ≤ pos ∧ pos + len ≤ t.base.len + 1
  | exportIovecPtrAll => t.RoomFor t.base.num

/-- An insertion in front is one node in front of bytes none of which was consumed, when the
vectors are up to date. -/
def Prepends (t : St) : VecCall → Prop
  | add k pos len => k.Prepends t pos len
  | _ => True

theorem Apart.frame {c : VecCall} (ha : c.Apart E P t) (fr : Frame E P h P' h') :
    c.Apart E P' t := by
  cases c with
  | add k pos len => exact ⟨ha.1, fun a e => fr.foreign (ha.2.1 a e), ha.2.2⟩
  | del pos len => exact ha
  | exportIovecPtrAll => exact ha

/-- The call does not fail once it has split a node. -/
def Whole (t : St) (c : VecCall) : Prop :=
  (c.run t).1 = true ∨ (c.run t).2.base.nodes.length = t.base.nodes.length

end VecCall

/-- A run of calls. -/
def VecRun (E : Env) (P : Own) : St → List VecCall → St → Prop :=
  Run (fun t c => (c.run t).2) fun t c => c.Apart E P t ∧ c.Prepends t ∧ c.Whole t

/-- A usable string both of whose caches are right. -/
structure Cached (E : Env) (P : Own) (s : St) : Prop where
  /-- The string is usable. -/
  usable : Usable E P s
  /-- Offsets do not wrap. -/
  fits : Fits s.base.nodes
  /-- The position cache is right. -/
  posOk : PosOk True s.base
  /-- So are the vectors. -/
  shown : s.Shown s.conf.iovMinOffset

/-- A call leaves a string with caches that are right. -/
def StaysCached (E : Env) (P : Own) (s t : St) : Prop :=
  ∃ P', Cached E P' t ∧ Frame E P s.heap P' t.heap

/-- The parameters stay, so the room for vectors does. -/
theorem St.Shown.conf (hs : s'.Shown s.conf.iovMinOffset) (fr : Frame E P s.heap P' s'.heap)
    (hc : s'.base.conf = s.base.conf) : s'.Shown s'.conf.iovMinOffset := by
  have e : s'.conf.iovMinOffset = s.conf.iovMinOffset := by
    unfold St.conf
    rw [hc]
    exact fr.iovMinOffset _
  rw [e]
  exact hs

theorem Stayed.cached (st : Stayed E P s P' s') (rd : Cached E P s) (pk : PosOk True s'.base)
    (hs : s'.Shown s.conf.iovMinOffset) : Cached E P' s' :=
  ⟨⟨st.sound, st.posOk, (st.ptrs rd.usable.ptrSafe).frame st.frame⟩, st.fits rd.fits, pk,
    hs.conf st.frame st.grown.conf⟩

theorem Inserted.cached (i : Inserted True E P s k pos len P' s') (rd : Cached E P s)
    (hptr : ∀ a, k = .ptr a → Foreign E P a.blk) (hfit : k.FitsAt s pos len)
    (hs : s'.Shown s.conf.iovMinOffset) : Cached E P' s' := by
  have hconf : s'.base.conf = s.base.conf := by
    obtain ⟨b', g, hb | ⟨hb, -⟩⟩ := i.base
    · rw [hb, conf_of_core (core_cacheAdd _ _ _), g.conf]
    · rw [hb, g.conf]
  exact ⟨⟨i.sound, i.posOk.weaken, (i.ptrs rd.usable.ptrSafe hptr).frame i.frame⟩,
    i.fits rd.fits hfit, i.posOk, hs.conf i.frame hconf⟩

theorem Deleted.cached (d : Deleted True E P s pos len P' s') (rd : Cached E P s)
    (hs : s'.Shown s.conf.iovMinOffset) : Cached E P' s' :=
  ⟨⟨d.sound, d.posOk.weaken, (d.ptrs rd.usable.ptrSafe).frame d.frame⟩, d.fits rd.fits, d.posOk,
    hs.conf d.frame d.conf⟩

theorem Revalid.cached (rv : Revalid E P s s') (rd : Cached E P s) : Cached E P s' := by
  have hcore := core_of_noVec rv.base
  have hns := nodes_of_core hcore
  refine ⟨⟨(rd.usable.sound.makes rv.makes).congr hcore, rd.usable.posOk.of_noVec rv.base, ?_⟩,
    ?_, rd.posOk.of_noVec rv.base, ?_⟩
  · rw [hns]
    exact rd.usable.ptrSafe
  · rw [hns]
    exact rd.fits
  · rw [rv.conf]
    exact rv.shown

/-- Finding a position keeps both caches right. -/
theorem Cached.basePos (rd : Cached E P s) (h1 : 1 ≤ pos) (h2 : pos ≤ s.base.len)
    (cache : Bool) : Cached E P ⟨s.heap, (basePos s.base pos cache).2⟩ := by
  have sd := rd.usable.sound
  have hcore := core_basePos s.base pos cache
  have hns := nodes_of_core hcore
  obtain ⟨d, hd⟩ := basePos_base s.base pos cache
  have pk := posOk_basePos sd.valid sd.owned.nodes.nodup rd.posOk h1 h2 cache
  refine ⟨⟨sd.congr hcore, pk.weaken, ?_⟩, ?_, pk, ?_⟩
  · rw [hns]
    exact rd.usable.ptrSafe
  · rw [hns]
    exact rd.fits
  · rw [hd]
    exact Base.Shows.congr rd.shown rfl rfl

/-- `vstr_del` keeps both caches right. -/
theorem Cached.del (rd : Cached E P s) (h1 : 1 ≤ pos) (hle : pos + len ≤ s.base.len + 1) :
    StaysCached E P s (Vstr.del s pos len).2 := by
  have sd := rd.usable.sound
  have hshown := del_shown sd rd.posOk rd.fits h1 hle rd.shown
  obtain ⟨P', t, ⟨e, ⟨st, hb, -⟩⟩ | ⟨e, ⟨-, rfl, rfl⟩ | d⟩⟩ := del_spec sd rd.posOk h1 hle
  · rw [e] at hshown ⊢
    exact ⟨P', st.cached rd (hb ▸ rd.posOk) hshown, st.frame⟩
  · rw [e]
    exact ⟨P', rd, Frame.refl _ _ _⟩
  · rw [e] at hshown ⊢
    exact ⟨P', d.cached rd hshown, d.frame⟩

/-- One call. -/
theorem Cached.step {c : VecCall} (rd : Cached E P t) (ha : c.Apart E P t) (hp : c.Prepends t)
    (hw : c.Whole t) : StaysCached E P t (c.run t).2 := by
  have sd := rd.usable.sound
  cases c with
  | add k pos len =>
    obtain ⟨hpos, hptr, href, hfit⟩ := ha
    have hlive : ∀ r, k.held = some r → 0 < (t.heap.refs r).ref := by
      intro r hr
      have := sd.owned.refs r
      have := href r hr
      omega
    have hshown := k.add_shown sd rd.posOk hpos rd.shown hp
    obtain ⟨P', t', ⟨e, st⟩ | ⟨e, ⟨h0, rfl, rfl⟩ | i⟩⟩ := k.add_spec sd rd.posOk hpos hlive len
    · have hlen : 0 < len := by
        by_contra h0
        obtain rfl : len = 0 := by omega
        rw [k.add_zero hpos] at e
        cases e
      have hn : t'.base.nodes.length = t.base.nodes.length := by
        rcases hw with hw | hw
        · change (k.add t pos len).1 = true at hw
          rw [e] at hw
          cases hw
        · change (k.add t pos len).2.base.nodes.length = _ at hw
          rw [e] at hw
          exact hw
      change StaysCached E P t (k.add t pos len).2
      rw [e] at hshown ⊢
      obtain ⟨pk, -⟩ | ⟨-, hn'⟩ := k.add_failed sd rd.posOk hpos hlen e
      · exact ⟨P', st.cached rd pk hshown, st.frame⟩
      · omega
    · change StaysCached E P' t' (k.add t' pos len).2
      rw [e]
      exact ⟨P', rd, Frame.refl _ _ _⟩
    · change StaysCached E P t (k.add t pos len).2
      rw [e] at hshown ⊢
      exact ⟨P', i.cached rd hptr hfit hshown, i.frame⟩
  | del pos len => exact rd.del ha.1 ha.2
  | exportIovecPtrAll =>
    obtain ⟨rv, -⟩ := exportIovecPtrAll_spec sd rd.shown ha
    exact ⟨P, rv.cached rd, rv.makes.frame⟩

/-- Every call of a run leaves both caches right. -/
theorem VecRun.cached {cs : List VecCall} (rd : Cached E P s) (r : VecRun E P s cs t) :
    StaysCached E P s t := by
  apply r.invariant (StaysCached E P s)
  · exact ⟨P, rd, Frame.refl _ _ _⟩
  · rintro t c ⟨P₁, rd₁, fr⟩ ⟨ha, hp, hw⟩
    obtain ⟨P₂, rd₂, fr'⟩ := rd₁.step (ha.frame fr) hp hw
    exact ⟨P₂, rd₂, fr.trans fr'⟩

/-! ## What a user sees -/

/-- The vectors that are up to date are those of the nodes: one for each, in order, with its
type. -/
def St.VectorsFollow (s : St) : Prop :=
  s.base.iovecUptoDate = true → ∃ vec, s.base.vec = some vec ∧
    vec.off + s.base.num ≤ vec.sz ∧ ∀ i < s.base.num,
      vec.v (vec.off + i) =
          nodeIovec s.heap (if i = 0 then s.base.used else 0) (s.base.node i) ∧
        vec.t (vec.off + i) = (s.base.node i).type

/-- The entry at an index is the vector of the node there. -/
theorem Shows.at {vec : IovecData} {h : Heap} {i used : Nat} {ns : List Node} {j : Nat}
    {n : Node} (hs : Shows h vec i used ns) (hn : ns[j]? = some n) :
    vec.Has h (i + j) (if j = 0 then used else 0) n := by
  induction ns generalizing i used j with
  | nil => cases hn
  | cons m ns ih =>
    cases j with
    | zero =>
      cases hn
      exact hs.1
    | succ j =>
      have := ih hs.2 hn
      rw [ite_self] at this
      rw [if_neg (Nat.succ_ne_zero j), show i + (j + 1) = i + 1 + j by omega]
      exact this

theorem St.Shown.follow (hs : s.Shown room) (hn : s.base.num = s.base.nodes.length) :
    s.VectorsFollow := by
  intro hup
  obtain ⟨vec, hv, hle, hsh⟩ := hs.entries hup
  rw [hn]
  refine ⟨vec, hv, hle, fun i hi => ?_⟩
  have hnode : s.base.nodes[i]? = some (s.base.node i) := by
    rw [Base.node, List.getD_eq_getElem?_getD, List.getElem?_eq_getElem hi, Option.getD_some]
  exact hsh.at hnode

/-- Four bytes are added in two nodes and exported, then one more goes into the last of them
and the first two are deleted. -/
def patches : List VecCall :=
  [.add (.buf ⟨.ext 0, 0⟩) 0 4, .exportIovecPtrAll, .add (.repChr 45) 4 1, .del 1 2]

/-- The string it leaves. -/
def patched : St := patches.foldl (fun t c => (c.run t).2) blank

theorem vecRun_patched : VecRun alone (bareOwn 1) blank patches patched := by
  apply Run.append Run.nil
  refine ⟨⟨⟨Nat.zero_le _, fun a e => (by cases e), fun r e => (by cases e), ?_⟩,
      fun _ h => absurd rfl h, .inl rfl⟩,
      ⟨show St.RoomFor _ _ by unfold St.RoomFor; decide, trivial, .inl rfl⟩,
    ⟨⟨by decide, fun a e => (by cases e), fun r e => (by cases e), ?_⟩,
      fun h => (by cases h), .inl rfl⟩, ⟨by constructor <;> decide, trivial, .inl rfl⟩, trivial⟩
  · rw [AddKind.FitsAt, if_pos rfl]
    rintro r off e
    cases e
  · rw [AddKind.FitsAt, if_neg (by decide)]
    trivial

theorem cached_blank : Cached alone (bareOwn 1) blank where
  usable := usable_blank
  fits := fun _ h => by cases h
  posOk := posOk_of_none rfl
  shown := by
    constructor
    · intro _ h
      cases h
    · intro h
      cases h

end Vstr
