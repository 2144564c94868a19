import Vstr.Run.Vectors
import Vstr.Model.IovecBuf

/-!
# Handing out room

`vstr_add_iovec_buf_beg` makes the vectors long enough, finds the place and cuts it open, and
lets vectors behind the place point to the tail of the node in front of it and to spare nodes.
Nothing of the string is changed by that; the vectors in front of the place stay right.
-/

namespace Vstr

open Memory

variable {E : Env} {P P' : Own} {s s' t : St} {h : Heap} {b : Base} {vec : IovecData}
variable {pre post : List Node} {n : Node} {f : Found} {pos sz room : Nat} {q : Prop}

/-! ## Room for the vectors -/

/-- Vectors are there, with room behind them for what may be added. -/
def St.HasVec (s : St) (sz : Nat) : Prop :=
  ∃ vec, s.base.vec = some vec ∧ vec.off + sz ≤ vec.sz

/-- `vstr__cache_iovec_alloc` when the vectors are up to date: they keep what they show. -/
theorem cacheIovecAlloc_uptodate (ok : HeapOk P s.heap) (hn : s.base.num = s.base.nodes.length)
    (hup : s.base.iovecUptoDate = true) (hs : s.Shown s.conf.iovMinOffset)
    (hsz : s.base.num ≤ sz) (hr : s.RoomFor sz) :
    Revalid E P s (cacheIovecAlloc s sz).2 ∧ ((cacheIovecAlloc s sz).1 = true →
      (cacheIovecAlloc s sz).2.base.iovecUptoDate = true ∧
        (cacheIovecAlloc s sz).2.HasVec sz) := by
  obtain ⟨vec, hv, hle, hsh⟩ := hs.entries hup
  obtain ⟨hroom, hoff⟩ := hs.room vec hv
  have put : ∀ {h : Heap} {vec' : IovecData}, Makes E P s.heap P h →
      vec'.off + s.base.nodes.length ≤ vec'.sz → s.conf.iovMinOffset ≤ vec'.sz →
      Shows s.heap vec' vec'.off s.base.used s.base.nodes →
      Revalid E P s ⟨h, { s.base with vec := some vec' }⟩ := by
    intro h vec' mk hle' hroom' hsh'
    refine ⟨rfl, mk, mk.frame.iovMinOffset _, ?_⟩
    refine ⟨fun w hw => ?_, fun _ => ⟨vec', rfl, hle', hsh'.heap fun _ _ r _ => by rw [mk.refs]⟩⟩
    obtain rfl := Option.some_inj.mp hw
    exact ⟨hroom', by omega⟩
  have refl := Makes.refl (E := E) ok
  unfold cacheIovecAlloc
  by_cases hav : s.base.cacheAvailable = true
  · rw [if_neg (by simpa using hav)]
    have hmake : cacheIovecMake s sz = (true, s) := by
      unfold cacheIovecMake
      rw [hv]
    rw [hmake]
    dsimp only
    rw [hv]
    dsimp only
    have align : ∃ vec', cacheIovecAlign s sz vec = vec' ∧ vec'.sz = vec.sz ∧
        vec'.off + s.base.nodes.length ≤ vec'.sz ∧
        Shows s.heap vec' vec'.off s.base.used s.base.nodes ∧
        (vec'.off ≤ s.conf.iovMinOffset ∨ sz ≤ vec.sz - vec.off ∧ vec'.off = vec.off) := by
      unfold cacheIovecAlign
      rw [if_neg (by simp [hup]), uintSub_of_le hoff]
      split
      · rename_i hmove
        refine ⟨_, rfl, rfl, ?_, ?_, .inl (Nat.le_refl _)⟩
        · show s.conf.iovMinOffset + s.base.nodes.length ≤ vec.sz
          omega
        · refine hsh.move (fun k hk => ?_) fun _ _ _ _ => rfl
          dsimp only [cacheIovecMemmove]
          rw [if_pos (by omega), if_pos (by omega), Nat.add_sub_cancel_left]
          exact ⟨rfl, rfl⟩
      · rename_i hmove
        refine ⟨vec, rfl, rfl, hle, hsh, ?_⟩
        by_cases ho : vec.off ≤ s.conf.iovMinOffset
        · exact .inl ho
        · exact .inr ⟨by omega, rfl⟩
    obtain ⟨vec', e, hsz', hle', hsh', hcase⟩ := align
    rw [e, uintSub_of_le (show vec'.off ≤ vec'.sz by omega)]
    have hroom' : s.conf.iovMinOffset ≤ vec'.sz := by omega
    split
    · have mk := makes_mallocs (E := E) ok 2
      split
      · rename_i h e'
        rw [e'] at mk
        refine ⟨put (mk.trans (makes_mallocBad mk.ok _)) hle' hroom' hsh', fun hf => ?_⟩
        cases hf
      · rename_i h e'
        rw [e'] at mk
        have hmin : (St.conf { s with base := { s.base with vec := some vec' } }).iovMinOffset =
            s.conf.iovMinOffset := rfl
        have hmod : (sz + s.conf.iovMinOffset) % 2 ^ 32 = sz + s.conf.iovMinOffset := by
          unfold St.RoomFor at hr
          exact Nat.mod_eq_of_lt (by omega)
        rw [hmin, hmod]
        refine ⟨put mk ?_ (Nat.le_add_left _ _)
          (hsh'.move (fun _ _ => ⟨rfl, rfl⟩) fun _ _ _ _ => rfl), fun _ => ⟨hup, _, rfl, ?_⟩⟩
        · dsimp only
          omega
        · dsimp only
          omega
    · exact ⟨put refl hle' hroom' hsh', fun _ => ⟨hup, vec', rfl, by omega⟩⟩
  · rw [if_pos (by simpa using hav)]
    exact ⟨⟨rfl, refl, rfl, hs⟩, fun hf => by cases hf⟩

/-! ## Spare nodes -/

/-- How many spare nodes there are after a range was set. -/
theorem rangeSpare_count {h h' : Heap} (ok : HeapOk P h) (c : Nat) (ty : NodeType) (k : Nat)
    (e : rangeSpare h c ty k = (true, h')) : (h'.confs c).spareNum ty =
      max ((h.confs c).spareNum ty) k := by
  unfold rangeSpare at e
  dsimp only at e
  split at e
  · obtain ⟨P', -, hnum⟩ := makes_makeSpareNodes (E := ⟨0, fun _ => 0⟩) ok c ty
      (k - (h.confs c).spareNum ty)
    rw [e] at hnum
    rw [hnum rfl]
    omega
  · cases e
    omega

theorem mallocs_confs {h h' : Heap} {ok : Bool} (k : Nat) (e : h.mallocs k = (ok, h')) :
    h'.confs = h.confs := by
  induction k generalizing h with
  | zero =>
    cases e
    rfl
  | succ k ih =>
    rw [Heap.mallocs, Heap.malloc] at e
    split at e
    · rename_i h₁ e'
      cases e
      exact congrArg (fun r => r.2.confs) e'.symm
    · rename_i h₁ e'
      exact (ih e).trans (congrArg (fun r => r.2.confs) e'.symm)

/-- Making the vectors long enough takes no spare nodes. -/
theorem cacheIovecAlloc_confs (e : cacheIovecAlloc s sz = (true, t)) :
    t.heap.confs = s.heap.confs := by
  have hmake : ∀ {t}, cacheIovecMake s sz = (true, t) → t.heap.confs = s.heap.confs := by
    intro t e
    unfold cacheIovecMake at e
    split at e
    · cases e
      rfl
    · split at e
      · cases e
      · rename_i e'
        cases e
        exact mallocs_confs 4 e'
  unfold cacheIovecAlloc at e
  split at e
  · cases e
  · split at e
    · cases e
    · rename_i t' e'
      have hc := hmake e'
      split at e
      · cases e
      · dsimp only at e
        split at e
        · split at e
          · cases e
          · rename_i h' e''
            cases e
            exact (mallocs_confs 2 e'').trans hc
        · cases e
          exact hc

theorem Revalid.trans {s'' : St} (f : Revalid E P s s') (g : Revalid E P s' s'') :
    Revalid E P s s'' where
  base := g.base.trans f.base
  makes := f.makes.trans g.makes
  conf := g.conf.trans f.conf
  shown := f.conf ▸ g.shown

/-- `vstr__cache_iovec_valid` needs no more room than there is. -/
theorem cacheIovecValid_room (ok : HeapOk P s.heap) (hn : s.base.num = s.base.nodes.length)
    (hs : s.Shown s.conf.iovMinOffset) (hr : s.RoomFor s.base.num)
    (hav : s.base.cacheAvailable = true) (hv : s.base.vec = some vec) (hsz : s.base.num ≤ sz)
    (hle : vec.off + sz ≤ vec.sz)
    (hoff : s.base.iovecUptoDate = false → vec.off = s.conf.iovMinOffset) :
    Revalid E P s (cacheIovecValid s).2 ∧ (cacheIovecValid s).2.HasVec sz ∧
      (s.base.nodes ≠ [] → (cacheIovecValid s).2.base.iovecUptoDate = true) ∧
        (cacheIovecValid s).2.heap = s.heap := by
  obtain ⟨rv, hup⟩ := cacheIovecValid_spec (E := E) ok hn hs hr
  have halloc : s.base.iovecUptoDate = false →
      cacheIovecAlloc s s.base.num = (true, s) := by
    intro hup'
    unfold cacheIovecAlloc cacheIovecMake
    rw [if_neg (by simpa using hav), hv]
    dsimp only
    rw [hv]
    have halign : cacheIovecAlign s s.base.num vec = vec := by
      unfold cacheIovecAlign
      rw [if_pos (by simp [hup']), ← hoff hup']
    dsimp only
    rw [halign, uintSub_of_le (by omega), if_neg (by omega)]
    have hb : { s.base with vec := some vec } = s.base := by rw [← hv]
    rw [hb]
  by_cases hup' : s.base.iovecUptoDate = true
  · have e : cacheIovecValid s = (true, s) := if_pos hup'
    rw [e]
    exact ⟨⟨rfl, Makes.refl ok, rfl, hs⟩, ⟨vec, hv, hle⟩, fun _ => hup', rfl⟩
  · have hup'' : s.base.iovecUptoDate = false := by simpa using hup'
    refine ⟨rv, ?_, fun hne => hup ?_ hne, ?_⟩
    · unfold cacheIovecValid
      rw [if_neg hup']
      cases hns : s.base.nodes with
      | nil =>
        rw [hv]
        dsimp only
        split
        · exact ⟨vec, hv, hle⟩
        · exact ⟨vec, hv, hle⟩
      | cons m ms =>
        rw [halloc hup'']
        dsimp only
        obtain ⟨ho, hz, -⟩ := setNodes_rest s.heap
          (vec.set s.conf.iovMinOffset (nodeIovec s.heap s.base.used m) m.type)
          (s.conf.iovMinOffset + 1) ms
        refine ⟨(vec.set s.conf.iovMinOffset (nodeIovec s.heap s.base.used m) m.type).setNodes
          s.heap (s.conf.iovMinOffset + 1) ms, ?_, ?_⟩
        · unfold Base.mapVec
          dsimp only
          rw [hv]
          rfl
        · rw [ho, hz]
          exact hle
    · unfold cacheIovecValid
      rw [if_neg hup']
      cases hns : s.base.nodes with
      | nil => rw [hv]
      | cons m ms => rw [halloc hup'']
    · unfold cacheIovecValid
      rw [if_neg hup']
      cases hns : s.base.nodes with
      | nil =>
        rw [hv]
        dsimp only
        split <;> rfl
      | cons m ms => rw [halloc hup'']

/-- The vectors are made long enough and up to date. -/
theorem cacheIovec_ready (ok : HeapOk P s.heap) (hn : s.base.num = s.base.nodes.length)
    (hs : s.Shown s.conf.iovMinOffset) {sz : Nat} (hsz : s.RoomFor (s.base.num + sz)) :
    Revalid E P s (cacheIovecAlloc s (s.base.num + sz)).2 ∧
      ((cacheIovecAlloc s (s.base.num + sz)).1 = true → ∃ t,
        (cacheIovecValid (cacheIovecAlloc s (s.base.num + sz)).2).2 = t ∧ Revalid E P s t ∧
          t.HasVec (s.base.num + sz) ∧ (s.base.nodes ≠ [] → t.base.iovecUptoDate = true) ∧
            t.heap.confs = s.heap.confs) := by
  have hle := Nat.le_add_right s.base.num sz
  have hall : Revalid E P s (cacheIovecAlloc s (s.base.num + sz)).2 ∧
      ((cacheIovecAlloc s (s.base.num + sz)).1 = true → ∃ vec,
        (cacheIovecAlloc s (s.base.num + sz)).2.base.vec = some vec ∧
          vec.off + (s.base.num + sz) ≤ vec.sz ∧
            ((cacheIovecAlloc s (s.base.num + sz)).2.base.iovecUptoDate = false →
              vec.off = s.conf.iovMinOffset)) := by
    by_cases hup : s.base.iovecUptoDate = true
    · obtain ⟨rv, hr⟩ := cacheIovecAlloc_uptodate (E := E) ok hn hup hs hle hsz
      refine ⟨rv, fun h => ?_⟩
      obtain ⟨hup', vec, hv, hroom⟩ := hr h
      refine ⟨vec, hv, hroom, fun hf => ?_⟩
      rw [hup'] at hf
      cases hf
    · obtain ⟨rv, hr⟩ :=
        cacheIovecAlloc_spec (E := E) ok (by simpa using hup) hs hsz
      refine ⟨rv, fun h => ?_⟩
      obtain ⟨-, vec, hv, ho, hroom⟩ := hr h
      exact ⟨vec, hv, hroom, fun _ => ho⟩
  obtain ⟨rv, hr⟩ := hall
  refine ⟨rv, fun h => ?_⟩
  have hav : s.base.cacheAvailable = true := by
    by_contra hav
    rw [cacheIovecAlloc, if_pos (by simpa using hav)] at h
    cases h
  obtain ⟨vec, hv, hroom, hoff⟩ := hr h
  have hconfs : (cacheIovecAlloc s (s.base.num + sz)).2.heap.confs = s.heap.confs :=
    cacheIovecAlloc_confs (Prod.ext h rfl)
  generalize (cacheIovecAlloc s (s.base.num + sz)).2 = t at rv hv hoff hconfs
  have hnum : t.base.num = s.base.num := (congrArg Base.num rv.base :)
  have hnodes : t.base.nodes = s.base.nodes := (congrArg Base.nodes rv.base :)
  have hav' : t.base.cacheAvailable = true := (congrArg Base.cacheAvailable rv.base :).trans hav
  have hr' : t.RoomFor t.base.num :=
    hsz.frame rv.makes.frame (congrArg Base.conf rv.base :) (by omega)
  obtain ⟨rv', hroom', hup', hheap⟩ := cacheIovecValid_room (E := E) rv.makes.ok
    (by rw [hnum, hnodes, hn]) (rv.conf ▸ rv.shown) hr' hav' hv
    (show t.base.num ≤ s.base.num + sz by omega) hroom (rv.conf ▸ hoff)
  exact ⟨_, rfl, rv.trans rv', hroom', hnodes ▸ hup', hheap ▸ hconfs⟩

/-! ## Vectors of spare nodes -/

/-- From `i` on, `m` vectors point to the buffers of the first spare nodes. -/
def Offers (vec : IovecData) (bufSz i m : Nat) (ids : List Nat) : Prop :=
  ∀ k < m, ∀ id, ids[k]? = some id →
    vec.v (i + k) = ⟨some ⟨.node id, 0⟩, bufSz⟩ ∧ vec.t (i + k) = .buf

/-- The loop over the spare list. -/
theorem iovecBufFill_spec (bufSz m : Nat) (ids : List Nat) (i : Nat) (vec : IovecData) :
    (iovecBufFill bufSz m ids i vec).off = vec.off ∧ (iovecBufFill bufSz m ids i vec).sz = vec.sz ∧
      (∀ j < i, (iovecBufFill bufSz m ids i vec).v j = vec.v j ∧
        (iovecBufFill bufSz m ids i vec).t j = vec.t j) ∧
      Offers (iovecBufFill bufSz m ids i vec) bufSz i m ids := by
  induction m generalizing ids i vec with
  | zero => exact ⟨rfl, rfl, fun _ _ => ⟨rfl, rfl⟩, fun k hk => absurd hk (Nat.not_lt_zero k)⟩
  | succ m ih =>
    rw [iovecBufFill]
    obtain ⟨ho, hz, hj, hof⟩ := ih ids.tail (i + 1)
      (vec.set i ⟨ids.head?.map fun id => ⟨.node id, 0⟩, bufSz⟩ .buf)
    refine ⟨ho, hz, fun j hlt => ?_, fun k hk id hid => ?_⟩
    · obtain ⟨hv, ht⟩ := hj j (by omega)
      exact ⟨hv.trans (Function.update_of_ne (by omega) _ _),
        ht.trans (Function.update_of_ne (by omega) _ _)⟩
    · cases k with
      | zero =>
        obtain ⟨hv, ht⟩ := hj i (Nat.lt_succ_self i)
        cases ids with
        | nil => cases hid
        | cons id' ids =>
          cases hid
          exact ⟨hv.trans (Function.update_self _ _ _), ht.trans (Function.update_self _ _ _)⟩
      | succ k =>
        have := hof k (by omega) id (by rw [List.getElem?_tail]; exact hid)
        rw [Nat.add_right_comm, Nat.add_assoc] at this
        exact this

/-! ## What was handed out -/

variable {a b' : List Node} {m : Nat} {r : IovecBuf}

/-- The node in front of the place has no room: only spare nodes are handed out. -/
structure OffersSpare (s : St) (vec : IovecData) (a ns : List Node) (m : Nat) (r : IovecBuf) :
    Prop where
  /-- The node in front has no room. -/
  full : ∀ pre n, a = pre ++ [n] → ¬ (n.type = .buf ∧ s.conf.bufSz > n.len)
  /-- The vectors in front are right. -/
  shows : Shows s.heap vec vec.off s.base.used a
  /-- Vectors that are up to date end here. -/
  last : s.base.iovecUptoDate = true → ns = []
  /-- What is returned. -/
  result : r = ⟨m * s.conf.bufSz, vec.off + a.length, m⟩

/-- The node in front of the place has room, which is handed out first. -/
structure OffersTail (s : St) (vec : IovecData) (pre : List Node) (n : Node) (m : Nat)
    (r : IovecBuf) : Prop where
  /-- The node has a buffer. -/
  buf : n.type = .buf
  /-- There is room in it. -/
  lt : s.conf.bufSz > n.len
  /-- The vectors in front are right. -/
  shows : Shows s.heap vec vec.off s.base.used pre
  /-- The vector of the node points to the room. -/
  tail : vec.v (vec.off + pre.length) = ⟨some ⟨.node n.id, n.len⟩, s.conf.bufSz - n.len⟩
  /-- The vectors are not up to date. -/
  stale : s.base.iovecUptoDate = false
  /-- What is returned. -/
  result : r = ⟨s.conf.bufSz - n.len + m * s.conf.bufSz, vec.off + pre.length, m + 1⟩

/-- The string is open behind the nodes `a`, and there are `m` spare nodes. -/
structure Cut (E : Env) (P : Own) (s : St) (pos : Nat) (P' : Own) (s' : St) (a ns : List Node)
    (m : Nat) : Prop where
  /-- The state is sound. -/
  sound : Sound E P' s'
  /-- Foreign blocks are left alone. -/
  frame : Frame E P s.heap P' s'.heap
  /-- Nodes still start where the position cache says. -/
  posOk : PosOk False s'.base
  /-- Nodes that start at or before the position are cached rightly. -/
  posUpTo : PosUpTo True (pos + s'.base.used) s'.base
  /-- `PTR` nodes point to foreign blocks. -/
  ptrSafe : PtrSafe E P' s'.base.nodes
  /-- Offsets do not wrap. -/
  fits : Fits s'.base.nodes
  /-- The content is the same. -/
  content : Vstr.content s' = Vstr.content s
  /-- Length and configuration are as they were. -/
  grown : Grown s.base s'.base 0
  /-- The nodes in front of the place and behind it. -/
  nodes : s'.base.nodes = a ++ ns
  /-- The place. -/
  place : lens a = pos + s'.base.used
  /-- At the beginning there are no nodes in front. -/
  front : pos = 0 ↔ a = []
  /-- There are that many spare nodes. -/
  spares : m ≤ (s'.conf.spare .buf).length

/-- The vectors do not matter. -/
theorem Cut.vecs (c : Cut E P s pos P' s' a b' m) (w : Option IovecData) (up : Bool) :
    Cut E P s pos P' ⟨s'.heap, { s'.base with vec := w, iovecUptoDate := up }⟩ a b' m where
  sound := c.sound.congr rfl
  frame := c.frame
  posOk := c.posOk
  posUpTo := c.posUpTo
  ptrSafe := c.ptrSafe
  fits := c.fits
  content := c.content
  grown := ⟨c.grown.len, c.grown.conf, c.grown.cacheAvailable, c.grown.cacheInternal,
    c.grown.cstr, c.grown.userData⟩
  nodes := c.nodes
  place := c.place
  front := c.front
  spares := c.spares

/-- The string is open, and room there was handed out. -/
structure Offered (E : Env) (P : Own) (s : St) (pos : Nat) (P' : Own) (s' : St)
    (vec : IovecData) (a ns : List Node) (m : Nat) (r : IovecBuf) : Prop where
  /-- The string is open. -/
  cut : Cut E P s pos P' s' a ns m
  /-- The vectors. -/
  iovecs : s'.base.vec = some vec
  /-- They point to spare nodes. -/
  offers : Offers vec s'.conf.bufSz (vec.off + a.length) m (s'.conf.spare .buf)
  /-- The arrays have room for the vectors of all nodes and of those. -/
  size : vec.off + (a.length + ns.length + m) ≤ vec.sz
  /-- They have room in front as well. -/
  minOffset : s'.conf.iovMinOffset ≤ vec.sz
  /-- What is returned. -/
  result : OffersSpare s' vec a ns m r ∨ ∃ pre n, a = pre ++ [n] ∧ OffersTail s' vec pre n m r

/-- A place inside a node is inside one that has a buffer, and there are spare nodes for all
vectors and for its other half. -/
def CutFree (s : St) (pos min max : Nat) : Prop :=
  ∀ pre n post, s.base.nodes = pre ++ n :: post → lens pre < pos + s.base.used →
    pos + s.base.used < lens pre + n.len →
      n.type = .buf ∧ max ≤ Nat.max (s.conf.spareNum .buf) ((min + 1) % 2 ^ 32)

/-- Cutting a `BUF` node takes the first spare node. -/
theorem addSetupPos_spare (e : addSetupPos s pos = (some f, t)) :
    f.pos = (s.base.node f.idx).len ∧ t.heap = s.heap ∨
      f.pos ≠ (s.base.node f.idx).len ∧ ((s.base.node f.idx).type = .buf →
        1 ≤ s.conf.spareNum .buf → t.conf.spare .buf = (s.conf.spare .buf).drop 1) := by
  have hnode : ∀ i, (basePos s.base pos true).2.node i = s.base.node i := by
    intro i
    unfold Base.node
    rw [nodes_of_core (core_basePos s.base pos true)]
  have hconf : (basePos s.base pos true).2.conf = s.base.conf :=
    conf_of_core (core_basePos s.base pos true)
  unfold addSetupPos St.pos at e
  dsimp only at e
  rw [hnode] at e
  split at e
  · rename_i hne
    split at e
    · cases e
    · rename_i u e'
      cases e
      refine .inr ⟨hne, fun hbuf h1 => ?_⟩
      unfold baseSplitNode at e'
      dsimp only at e'
      rw [hnode, hconf, hbuf] at e'
      have hr : rangeSpare s.heap s.base.conf .buf 1 = (true, s.heap) := by
        unfold rangeSpare
        dsimp only
        rw [if_neg]
        exact Nat.not_lt.mpr h1
      rw [hr] at e'
      cases e'
      have hd : (s.base.node (basePos s.base pos true).1.idx).data = .buf :=
        data_of_type_buf hbuf
      unfold splitPayload St.conf
      rw [hd]
      dsimp only [Heap.dropSpare, Heap.setConf, Heap.setMem]
      rw [Function.update_self]
      dsimp only
      exact Function.update_self NodeType.buf _ _
  · rename_i heq
    cases e
    exact .inl ⟨by simpa using heq, rfl⟩

/-! ## The first call -/

theorem iovecBufSpare_eq (vec : IovecData) {start num bytes : Nat} (hv : b.vec = some vec)
    (hle : num ≤ sz) :
    iovecBufSpare ⟨h, b⟩ sz start num bytes =
      (some ⟨bytes + (sz - num) * (h.confs b.conf).bufSz, start, sz⟩,
        ⟨h, { b with vec := some (iovecBufFill (h.confs b.conf).bufSz (sz - num)
          ((h.confs b.conf).spare .buf) (start + num) vec) }⟩) := by
  unfold iovecBufSpare Base.mapVec
  dsimp only
  rw [hv, Nat.max_eq_right hle]
  rfl

/-- Spare nodes are handed out, and nothing else. -/
theorem Cut.offerSpare {vec₀ : IovecData} (c : Cut E P s pos P' s' a b' m) (up : Bool)
    (hsize : vec₀.off + (a.length + b'.length + m) ≤ vec₀.sz)
    (hmin : s'.conf.iovMinOffset ≤ vec₀.sz)
    (hsh : Shows s'.heap vec₀ vec₀.off s'.base.used a)
    (hfull : ∀ pre n, a = pre ++ [n] → ¬ (n.type = .buf ∧ s'.conf.bufSz > n.len))
    (hup : up = true → b' = [])
    (hvec : vec = iovecBufFill s'.conf.bufSz m (s'.conf.spare .buf) (vec₀.off + a.length) vec₀) :
    Offered E P s pos P' ⟨s'.heap, { s'.base with vec := some vec, iovecUptoDate := up }⟩ vec a
      b' m ⟨m * s'.conf.bufSz, vec.off + a.length, m⟩ := by
  obtain ⟨ho, hz, hj, hof⟩ := iovecBufFill_spec s'.conf.bufSz m (s'.conf.spare .buf)
    (vec₀.off + a.length) vec₀
  rw [← hvec] at ho hz hj hof
  rw [← ho] at hsize hof hj hsh
  rw [← hz] at hsize hmin
  exact ⟨c.vecs _ _, rfl, hof, hsize, hmin, .inl ⟨hfull,
    hsh.move (fun i hi => hj _ (by omega)) fun _ _ _ _ => rfl, hup, rfl⟩⟩

/-- The tail of the node in front is handed out, and spare nodes. -/
theorem Cut.offerTail {vec₀ : IovecData} (c : Cut E P s pos P' s' (pre ++ [n]) b' m)
    (hsize : vec₀.off + ((pre ++ [n]).length + b'.length + m) ≤ vec₀.sz)
    (hmin : s'.conf.iovMinOffset ≤ vec₀.sz)
    (hsh : Shows s'.heap vec₀ vec₀.off s'.base.used pre) (hbuf : n.type = .buf)
    (hlt : s'.conf.bufSz > n.len)
    (hvec : vec = iovecBufFill s'.conf.bufSz m (s'.conf.spare .buf)
      (vec₀.off + (pre ++ [n]).length) (vec₀.setIov (vec₀.off + pre.length)
        ⟨some ⟨.node n.id, n.len⟩, s'.conf.bufSz - n.len⟩)) :
    Offered E P s pos P' ⟨s'.heap, { s'.base with vec := some vec, iovecUptoDate := false }⟩ vec
      (pre ++ [n]) b' m
      ⟨s'.conf.bufSz - n.len + m * s'.conf.bufSz, vec.off + pre.length, m + 1⟩ := by
  obtain ⟨ho, hz, hj, hof⟩ := iovecBufFill_spec s'.conf.bufSz m (s'.conf.spare .buf)
    (vec₀.off + (pre ++ [n]).length) (vec₀.setIov (vec₀.off + pre.length)
      ⟨some ⟨.node n.id, n.len⟩, s'.conf.bufSz - n.len⟩)
  rw [← hvec] at ho hz hj hof
  have ho' : vec.off = vec₀.off := ho
  have hz' : vec.sz = vec₀.sz := hz
  have hlen : (pre ++ [n]).length = pre.length + 1 := by simp
  rw [← ho'] at hsize hof hj hsh
  rw [← hz'] at hsize hmin
  refine ⟨c.vecs _ _, rfl, hof, hsize, hmin, .inr ⟨pre, n, rfl, ⟨hbuf, hlt, ?_, ?_, rfl, rfl⟩⟩⟩
  · refine hsh.move (fun i hi => ?_) fun _ _ _ _ => rfl
    obtain ⟨hv, ht⟩ := hj (vec.off + i) (by omega)
    exact ⟨hv.trans (Function.update_of_ne (by omega) _ _), ht⟩
  · exact (hj _ (by omega)).1.trans (Function.update_self _ _ _)

/-- Asking for memory keeps both caches right. -/
theorem Cached.makes (cd : Cached E P s) (mk : Makes E P s.heap P' h) :
    Cached E P' { s with heap := h } := by
  refine ⟨⟨cd.usable.sound.makes mk, cd.usable.posOk, cd.usable.ptrSafe.frame mk.frame⟩, cd.fits,
    cd.posOk, ?_⟩
  have hs : St.Shown s.conf.iovMinOffset { s with heap := h } :=
    cd.shown.heap fun r => by rw [mk.refs]
  exact St.Shown.conf hs mk.frame rfl

/-- The content stays when memory is asked for. -/
theorem Makes.content (mk : Makes E P s.heap P' t.heap) (hc : t.base.core = s.base.core) :
    Vstr.content t = Vstr.content s := by
  unfold Vstr.content
  rw [nodes_of_core hc, used_of_core hc, mk.flat]

/-- The string is cut behind the node in front of the place. -/
theorem SetUp.cut (su : SetUp True E P s pos P' s' f pre n post) (cd : Cached E P s)
    (h0 : pos ≠ 0) (hm : m ≤ (s'.conf.spare .buf).length) :
    Cut E P s pos P' s' (pre ++ [n]) post m where
  sound := su.sound
  frame := su.frame
  posOk := su.posOk
  posUpTo := by
    have hu : s'.base.used = s.base.used := by
      obtain ⟨d, -, hb | ⟨n₀, beg, post₀, -, -, -, -, -, hb⟩⟩ := su.base
      · rw [hb]
      · rw [hb]
        rfl
    rw [hu]
    exact su.posUpTo
  ptrSafe := (su.ptrs cd.usable.ptrSafe).frame su.frame
  fits := su.fits cd.fits
  content := (su.content (cd.usable.sound.owned.firm cd.usable.ptrSafe) (cd.fits.cutFits pos)).2
  grown := su.grown
  nodes := su.at_.nodes.trans (List.append_cons _ _ _)
  place := by
    have := su.at_.pos
    rw [lens_append, lens_cons, lens_nil, ← su.full]
    omega
  front := ⟨fun h => absurd h h0, fun h => by simp at h⟩
  spares := hm

/-- Setting up leaves the vectors where they are. -/
theorem SetUp.vecSame (su : SetUp q E P s pos P' s' f pre n post) : s'.base.vec = s.base.vec := by
  obtain ⟨d, -, hb | ⟨n₀, beg, post₀, -, -, -, -, -, hb⟩⟩ := su.base
  · rw [hb]
  · rw [hb]
    rfl

/-- The vectors in front of the place are right after it was cut. -/
theorem SetUp.showsFront (su : SetUp q E P s pos P' s' f pre n post)
    (hsh : Shows s.heap vec vec.off s.base.used s.base.nodes) :
    Shows s'.heap vec vec.off s'.base.used pre := by
  obtain ⟨d, -, hb | ⟨n₀, beg, post₀, hns, -, -, -, -, hb⟩⟩ := su.base
  · have hns := su.at_.nodes
    rw [hb] at hns
    rw [hns, shows_append] at hsh
    rw [hb]
    exact hsh.1.heap fun _ _ r _ => su.quiet.refPtr r
  · rw [hns, shows_append] at hsh
    rw [hb]
    exact hsh.1.heap fun _ _ r _ => su.quiet.refPtr r

/-- When no node was split, the vector of the node in front is right too. -/
theorem SetUp.showsNode (su : SetUp q E P s pos P' s' f pre n post)
    (hlen : s'.base.nodes.length = s.base.nodes.length)
    (hsh : Shows s.heap vec vec.off s.base.used s.base.nodes) :
    Shows s'.heap vec vec.off s'.base.used (pre ++ [n]) := by
  obtain ⟨d, -, hb | ⟨n₀, beg, post₀, hns, -, -, -, -, hb⟩⟩ := su.base
  · have hns := su.at_.nodes
    rw [hb] at hns
    rw [hns, List.append_cons, shows_append] at hsh
    rw [hb]
    exact hsh.1.heap fun _ _ r _ => su.quiet.refPtr r
  · rw [hb, hns] at hlen
    simp [splitBase] at hlen

/-- Nothing stands in front of the beginning. -/
theorem Cut.atBeg (cd : Cached E P s) (hu : s.base.used = 0)
    (hm : m ≤ (s.conf.spare .buf).length) : Cut E P s 0 P s [] s.base.nodes m where
  sound := cd.usable.sound
  frame := Frame.refl _ _ _
  posOk := cd.posOk.weaken
  posUpTo := cd.posOk.upTo _
  ptrSafe := cd.usable.ptrSafe
  fits := cd.fits
  content := rfl
  grown := Grown.refl _
  nodes := rfl
  place := by rw [hu]; rfl
  front := ⟨fun _ => rfl, fun _ => rfl⟩
  spares := hm

/-- What a call that hands out room leaves. -/
def HandsOut (E : Env) (P : Own) (s : St) (pos : Nat) (r : Option IovecBuf × St) : Prop :=
  ∃ P', (r.1 = none ∧ Cached E P' r.2 ∧ Frame E P s.heap P' r.2.heap ∧
      Vstr.content r.2 = Vstr.content s) ∨
    ∃ vec a ns m res, r.1 = some res ∧ Offered E P s pos P' r.2 vec a ns m res

theorem Offered.handsOut {a ns : List Node} {r : IovecBuf} {res : Option IovecBuf × St}
    (of : Offered E P s pos P' s' vec a ns m r) (e : res = (some r, s')) :
    HandsOut E P s pos res := by
  rw [e]
  exact ⟨P', .inr ⟨vec, a, ns, m, r, rfl, of⟩⟩

/-- At the beginning spare nodes are handed out. -/
theorem iovecBufPos_beg {most : Nat} (cd : Cached E P s) (hv : s.base.vec = some vec)
    (hroom : vec.off + (s.base.num + sz) ≤ vec.sz) (hsz : sz ≤ (s.conf.spare .buf).length)
    (hu : s.base.used = 0) : HandsOut E P s 0 (iovecBufPos s 0 sz most vec.off) := by
  have sd := cd.usable.sound
  obtain ⟨hmin, -⟩ := cd.shown.room vec hv
  have hnum := sd.valid.num
  have offer : ∀ up, (up = true → s.base.nodes = []) → HandsOut E P s 0
      (iovecBufSpare { s with base := { s.base with iovecUptoDate := up } } sz vec.off 0 0) := by
    intro up hup
    refine ((Cut.atBeg cd hu hsz).offerSpare up (by rw [List.length_nil, ← hnum]; omega)
      hmin trivial (fun pre n e => by simp at e) hup rfl).handsOut ?_
    have ho := (iovecBufFill_spec s.conf.bufSz sz (s.conf.spare .buf) (vec.off + 0) vec).1
    rw [iovecBufSpare_eq vec (by exact hv) (Nat.zero_le sz), Nat.zero_add,
      List.length_nil, ho]
    rfl
  unfold iovecBufPos
  rw [if_neg (by simp)]
  by_cases hl : s.base.len = 0
  · rw [if_neg (by simp [hl])]
    refine offer s.base.iovecUptoDate fun _ => ?_
    by_contra hne
    have := lens_pos sd.valid.pos hne
    have := sd.valid.len
    omega
  · rw [if_pos hl]
    exact offer false fun h => by cases h

theorem SetUp.minOffset (su : SetUp True E P s pos P' s' f pre n post) :
    s'.conf.iovMinOffset = s.conf.iovMinOffset := by
  unfold St.conf
  rw [su.grown.conf]
  exact su.frame.iovMinOffset _

/-- The tail of a node, and spare nodes behind it. -/
theorem SetUp.handsOutTail {m : Nat} (su : SetUp True E P s pos P' s' f pre n post)
    (cd : Cached E P s) (h0 : pos ≠ 0) (hv : s.base.vec = some vec)
    (hsize : vec.off + ((pre ++ [n]).length + post.length + m) ≤ vec.sz)
    (hsh : Shows s.heap vec vec.off s.base.used s.base.nodes)
    (hroom : n.type = .buf ∧ s'.conf.bufSz > n.len) (hsp : m ≤ (s'.conf.spare .buf).length) :
    HandsOut E P s pos (iovecBufSpare { s' with base := { s'.base.mapVec
      (·.setIov (vec.off + pre.length) ⟨some ⟨.node n.id, n.len⟩, s'.conf.bufSz - n.len⟩) with
        iovecUptoDate := false } } (m + 1) (vec.off + pre.length) 1 (s'.conf.bufSz - n.len)) := by
  obtain ⟨hmin, -⟩ := cd.shown.room vec hv
  refine ((su.cut cd h0 hsp).offerTail hsize (su.minOffset ▸ hmin) (su.showsFront hsh) hroom.1
    hroom.2 rfl).handsOut ?_
  rw [iovecBufSpare_eq _ (congrArg (Option.map _) (su.vecSame.trans hv)) (Nat.le_add_left _ _),
    Nat.add_sub_cancel]
  have ho := (iovecBufFill_spec s'.conf.bufSz m (s'.conf.spare .buf)
    (vec.off + (pre ++ [n]).length) (vec.setIov (vec.off + pre.length)
      ⟨some ⟨.node n.id, n.len⟩, s'.conf.bufSz - n.len⟩)).1
  rw [ho, List.length_append, List.length_singleton]
  rfl

/-- Spare nodes behind a node without a tail. -/
theorem SetUp.handsOutSpare (su : SetUp True E P s pos P' s' f pre n post) (cd : Cached E P s)
    (h0 : pos ≠ 0) (hv : s.base.vec = some vec)
    (hsize : vec.off + ((pre ++ [n]).length + post.length + sz) ≤ vec.sz)
    (hsh : Shows s.heap vec vec.off s.base.used s.base.nodes)
    (hroom : ¬ (n.type = .buf ∧ s'.conf.bufSz > n.len))
    (hlen : s'.base.nodes.length = s.base.num) (hsp : sz ≤ (s'.conf.spare .buf).length) :
    HandsOut E P s pos (iovecBufSpare { s' with base := addKillIovec s'.base f.idx } sz
      (vec.off + (pre.length + 1)) 0 0) := by
  have hnode : s'.base.node f.idx = n := by
    rw [su.at_.idx]
    exact node_of_eq su.at_.nodes
  obtain ⟨hmin, -⟩ := cd.shown.room vec hv
  have hkill : addKillIovec s'.base f.idx = { s'.base with
      iovecUptoDate := (addKillIovec s'.base f.idx).iovecUptoDate } := by
    unfold addKillIovec
    split <;> rfl
  have hall := su.showsNode (hlen.trans cd.usable.sound.valid.num) hsh
  have hlast : (addKillIovec s'.base f.idx).iovecUptoDate = true → post = [] := by
    intro hup
    cases hpost : post with
    | nil => rfl
    | cons m ms =>
      have hid := su.sound.valid.notLast su.sound.owned.nodes.nodup (hpost ▸ su.at_.nodes)
      unfold addKillIovec at hup
      rw [hnode, if_pos hid] at hup
      cases hup
  rw [hkill]
  refine ((su.cut cd h0 hsp).offerSpare _ hsize (su.minOffset ▸ hmin) hall (fun pre' n' e => ?_)
    hlast rfl).handsOut ?_
  · obtain ⟨-, e⟩ := List.append_inj' e rfl
    cases e
    exact hroom
  · have ho := (iovecBufFill_spec s'.conf.bufSz sz (s'.conf.spare .buf)
      (vec.off + (pre ++ [n]).length) vec).1
    rw [iovecBufSpare_eq vec (by exact su.vecSame.trans hv) (Nat.zero_le sz), Nat.zero_add, ho,
      List.length_append, List.length_singleton]
    rfl

/-- Behind a node its tail is handed out, when there is any, and spare nodes. -/
theorem SetUp.handsOut {most : Nat} (su : SetUp True E P s pos P' s' f pre n post)
    (cd : Cached E P s) (h0 : pos ≠ 0) (hv : s.base.vec = some vec)
    (hroom : vec.off + (s.base.num + sz) ≤ vec.sz)
    (hsh : Shows s.heap vec vec.off s.base.used s.base.nodes)
    (hone : 1 ≤ most) (hle : sz ≤ most)
    (hsp : s'.base.nodes.length = s.base.num ∧ sz ≤ (s'.conf.spare .buf).length ∨
      s'.base.nodes.length = s.base.num + 1 ∧ sz = most ∧ n.type = .buf ∧
        s'.conf.bufSz > n.len ∧ sz - 1 ≤ (s'.conf.spare .buf).length) :
    HandsOut E P s pos (let scan := s'.base.node f.idx
      if scan.type = .buf ∧ s'.conf.bufSz > scan.len then
        iovecBufSpare { s' with base := { s'.base.mapVec (·.setIov (vec.off + (f.num - 1))
          ⟨some ⟨.node scan.id, f.pos⟩, s'.conf.bufSz - f.pos⟩) with iovecUptoDate := false } }
            (if sz < most then sz + 1 else sz) (vec.off + (f.num - 1)) 1 (s'.conf.bufSz - f.pos)
      else iovecBufSpare { s' with base := addKillIovec s'.base f.idx } sz
        (vec.off + f.num) 0 0) := by
  have hnode : s'.base.node f.idx = n := by
    rw [su.at_.idx]
    exact node_of_eq su.at_.nodes
  have hnum := su.num trivial
  have hlen : s'.base.nodes.length = pre.length + 1 + post.length := by
    rw [su.at_.nodes, List.length_append, List.length_cons]
    omega
  dsimp only
  rw [hnode, hnum, su.full, Nat.add_sub_cancel]
  split
  · rename_i hroom'
    obtain ⟨m, hm⟩ : ∃ m, (if sz < most then sz + 1 else sz) = m + 1 :=
      ⟨(if sz < most then sz + 1 else sz) - 1, by split <;> omega⟩
    have hmsz : m ≤ sz := by
      split at hm
      all_goals omega
    have hmlt : sz = most → m + 1 = sz := by
      intro he
      rw [if_neg (by omega)] at hm
      exact hm.symm
    rw [hm]
    refine su.handsOutTail cd h0 hv ?_ hsh hroom' ?_
    · rw [List.length_append, List.length_singleton]
      obtain ⟨h, -⟩ | ⟨h, he, -⟩ := hsp
      · omega
      · have := hmlt he
        omega
    · obtain ⟨-, h⟩ | ⟨-, he, -, -, h⟩ := hsp
      · omega
      · have := hmlt he
        omega
  · rename_i hroom'
    obtain ⟨hlen', hspare⟩ : s'.base.nodes.length = s.base.num ∧
        sz ≤ (s'.conf.spare .buf).length := by
      obtain h | ⟨-, -, hb, hlt, -⟩ := hsp
      · exact h
      · exact absurd ⟨hb, hlt⟩ hroom'
    refine su.handsOutSpare cd h0 hv ?_ hsh hroom' hlen' hspare
    rw [List.length_append, List.length_singleton]
    omega

/-- What the search for the place leaves of the spare nodes. -/
theorem SetUp.spares {most : Nat} (su : SetUp True E P s pos P' s' f pre n post)
    (sd : Sound E P s) (e : addSetupPos s pos = (some f, s'))
    (hsz : sz ≤ (s.conf.spare .buf).length)
    (hcut : ∀ pre n post, s.base.nodes = pre ++ n :: post → lens pre < pos + s.base.used →
      pos + s.base.used < lens pre + n.len → n.type = .buf ∧ sz = most ∧ 1 ≤ most) :
    s'.base.nodes.length = s.base.num ∧ sz ≤ (s'.conf.spare .buf).length ∨
      s'.base.nodes.length = s.base.num + 1 ∧ sz = most ∧ n.type = .buf ∧
        s'.conf.bufSz > n.len ∧ sz - 1 ≤ (s'.conf.spare .buf).length := by
  have hat := su.at_.pos
  have hone := su.at_.one_le
  have hconf : s'.base.conf = s.base.conf := su.grown.conf
  rcases su.base with ⟨d, -, hb | ⟨n₀, beg, post₀, hns, hn, hlt, -, -, hb⟩⟩
  · have hns := su.at_.nodes
    rw [hb] at hns hat
    have hnode : s.base.node f.idx = n := by
      rw [su.at_.idx]
      exact node_of_eq hns
    rcases addSetupPos_spare e with ⟨-, hh⟩ | ⟨hne, -⟩
    · refine .inl ⟨?_, ?_⟩
      · rw [hb]
        exact sd.valid.num.symm
      · unfold St.conf
        rw [hh, hconf]
        exact hsz
    · rw [hnode] at hne
      exact absurd su.full hne
  · have hu : s'.base.used = s.base.used := by
      rw [hb]
      rfl
    rw [hu] at hat
    have hnode : s.base.node f.idx = n₀ := by
      rw [su.at_.idx]
      exact node_of_eq hns
    obtain ⟨hbuf, hmost, h1⟩ := hcut pre n₀ post₀ hns (by omega) (by omega)
    have hle := sd.valid.buf n₀ (by rw [hns]; simp) hbuf
    have hsp : s.conf.spareNum .buf = (s.conf.spare .buf).length :=
      sd.owned.heap.spareNum s.base.conf .buf
    have hbufSz : s'.conf.bufSz = s.conf.bufSz := by
      unfold St.conf
      rw [hconf]
      exact su.frame.bufSz _
    rcases addSetupPos_spare e with ⟨heq, -⟩ | ⟨-, hdrop⟩
    · rw [hnode] at heq
      omega
    · rw [hnode] at hdrop
      refine .inr ⟨?_, hmost, ?_, ?_, ?_⟩
      · rw [hb, sd.valid.num, hns]
        simp only [splitBase, List.length_append, List.length_cons]
        omega
      · rw [hn]
        exact hbuf
      · rw [hbufSz, ← su.full]
        omega
      · rw [hdrop hbuf (by omega), List.length_drop]
        omega

/-- The place is found, and vectors from there on are handed out. -/
theorem iovecBufPos_spec {most : Nat} (cd : Cached E P s) (hv : s.base.vec = some vec)
    (hroom : vec.off + (s.base.num + sz) ≤ vec.sz)
    (hup : s.base.nodes ≠ [] → s.base.iovecUptoDate = true) (hone : 1 ≤ most) (hmost : sz ≤ most)
    (hsz : sz ≤ (s.conf.spare .buf).length) (hfront : pos = 0 → s.base.used = 0)
    (hcut : ∀ pre n post, s.base.nodes = pre ++ n :: post → lens pre < pos + s.base.used →
      pos + s.base.used < lens pre + n.len → n.type = .buf ∧ sz = most ∧ 1 ≤ most) :
    HandsOut E P s pos (iovecBufPos s pos sz most vec.off) := by
  by_cases h0 : pos = 0
  · subst h0
    exact iovecBufPos_beg cd hv hroom hsz (hfront rfl)
  · have sd := cd.usable.sound
    unfold iovecBufPos
    rw [if_pos h0]
    by_cases hle : pos > s.base.len
    · rw [if_pos hle]
      exact ⟨P, .inl ⟨rfl, cd, Frame.refl _ _ _, rfl⟩⟩
    rw [if_neg hle]
    have hne : s.base.nodes ≠ [] := by
      intro hnil
      have := sd.valid.len
      rw [hnil, lens_nil] at this
      omega
    have hsh : Shows s.heap vec vec.off s.base.used s.base.nodes := by
      obtain ⟨vec', hv', -, hsh⟩ := cd.shown.entries (hup hne)
      obtain rfl := Option.some_inj.mp (hv.symm.trans hv')
      exact hsh
    obtain ⟨P', t, ⟨e, sd', fr, pk, ⟨d, hd⟩, gr, qt⟩ | ⟨f, pre, n, post, e, su⟩⟩ :=
      addSetupPos_spec sd cd.posOk (by omega) (show pos ≤ s.base.len by omega)
    · rw [e]
      have hns : t.base.nodes = s.base.nodes := by rw [hd]
      refine ⟨P', .inl ⟨rfl, ⟨⟨sd', pk.weaken, ?_⟩, ?_, pk, ?_⟩, fr, ?_⟩⟩
      · rw [hns]
        exact cd.usable.ptrSafe.frame fr
      · rw [hns]
        exact cd.fits
      · refine St.Shown.conf ?_ fr (by rw [hd])
        unfold St.Shown
        rw [hd]
        exact Base.Shows.congr (cd.shown.heap qt.refPtr) rfl rfl
      · have hflat := qt.flat (sd.owned.firm cd.usable.ptrSafe)
        unfold Vstr.content
        rw [hd]
        exact congrArg (List.drop _) hflat
    · rw [e]
      exact su.handsOut cd h0 hv hroom hsh hone hmost (su.spares sd e hsz hcut)

/-- A step that keeps the content comes first. -/
theorem HandsOut.after {r : Option IovecBuf × St} (ho : HandsOut E P' t pos r)
    (fr : Frame E P s.heap P' t.heap) (hc : Vstr.content t = Vstr.content s)
    (g : Grown s.base t.base 0) : HandsOut E P s pos r := by
  obtain ⟨P'', ⟨hr, cd, fr', hc'⟩ | ⟨vec, a, ns, m, res, hr, of⟩⟩ := ho
  · exact ⟨P'', .inl ⟨hr, cd, fr.trans fr', hc'.trans hc⟩⟩
  · have c := of.cut
    exact ⟨P'', .inr ⟨vec, a, ns, m, res, hr, { of with
      cut := { c with
        frame := fr.trans c.frame
        content := c.content.trans hc
        grown := g.trans c.grown } }⟩⟩

/-- `vstr_add_iovec_buf_beg`: it fails and changes nothing, or opens the string and hands out
room there. -/
theorem addIovecBufBeg_spec {least most : Nat} (cd : Cached E P s)
    (hfront : pos = 0 → s.base.used = 0) (hcut : CutFree s pos least most)
    (hmax : s.RoomFor (s.base.num + most)) :
    HandsOut E P s pos (addIovecBufBeg s pos least most) := by
  have sd := cd.usable.sound
  unfold addIovecBufBeg
  split
  · exact ⟨P, .inl ⟨rfl, cd, Frame.refl _ _ _, rfl⟩⟩
  rename_i hargs
  dsimp only
  obtain ⟨P₁, mk, -⟩ := makes_rangeSpare (E := E) sd.owned.heap s.base.conf .buf
    (if pos ≠ s.base.len then (least + 1) % 2 ^ 32 else least)
  generalize hr : rangeSpare s.heap s.base.conf .buf
    (if pos ≠ s.base.len then (least + 1) % 2 ^ 32 else least) = r at mk
  obtain ⟨ok, h⟩ := r
  have cd₁ : Cached E P₁ ⟨h, s.base⟩ := cd.makes mk
  have hc₁ : Vstr.content ⟨h, s.base⟩ = Vstr.content s := mk.content (t := ⟨h, s.base⟩) rfl
  cases ok with
  | false => exact ⟨P₁, .inl ⟨rfl, cd₁, mk.frame, hc₁⟩⟩
  | true =>
    dsimp only
    have hcount := rangeSpare_count sd.owned.heap s.base.conf .buf _ hr
    have hspare : (h.confs s.base.conf).spareNum .buf = ((h.confs s.base.conf).spare .buf).length :=
      mk.ok.spareNum _ _
    have hle : Nat.min most ((h.confs s.base.conf).spareNum .buf) ≤ most := Nat.min_le_left _ _
    have hr' : St.RoomFor ⟨h, s.base⟩
        (s.base.num + Nat.min most ((h.confs s.base.conf).spareNum .buf)) := by
      have fr : Frame E P s.heap P₁ (St.heap ⟨h, s.base⟩) := mk.frame
      exact hmax.frame fr rfl (by omega)
    have hmod : (s.base.num + Nat.min most ((h.confs s.base.conf).spareNum .buf)) % 2 ^ 32 =
        s.base.num + Nat.min most ((h.confs s.base.conf).spareNum .buf) := by
      unfold St.RoomFor at hmax
      exact Nat.mod_eq_of_lt (by omega)
    obtain ⟨rv, hready⟩ := cacheIovec_ready (E := E) (s := ⟨h, s.base⟩) mk.ok sd.valid.num
      cd₁.shown hr'
    dsimp only [St.conf] at rv hready ⊢
    rw [hmod]
    generalize cacheIovecAlloc ⟨h, s.base⟩ (s.base.num +
      Nat.min most ((h.confs s.base.conf).spareNum .buf)) = r at rv hready ⊢
    obtain ⟨ok, t⟩ := r
    have hctrans : ∀ {u : St}, Revalid E P₁ ⟨h, s.base⟩ u → Vstr.content u = Vstr.content s :=
      fun rv => (rv.makes.content (core_of_noVec rv.base)).trans hc₁
    cases ok with
    | false =>
      exact ⟨P₁, .inl ⟨rfl, rv.cached cd₁, mk.frame.trans rv.makes.frame, hctrans rv⟩⟩
    | true =>
      obtain ⟨u, hu, rv', ⟨vec, hv, hroom⟩, hup, hconfs⟩ := hready rfl
      dsimp only at hu ⊢
      rw [hu, hv]
      have hnum : u.base.num = s.base.num := (congrArg Base.num rv'.base :)
      have hlen : u.base.len = s.base.len := (congrArg Base.len rv'.base :)
      have hns : u.base.nodes = s.base.nodes := (congrArg Base.nodes rv'.base :)
      have hused : u.base.used = s.base.used := (congrArg Base.used rv'.base :)
      have hcf : u.base.conf = s.base.conf := (congrArg Base.conf rv'.base :)
      have hsp : u.conf.spare .buf = (h.confs s.base.conf).spare .buf := by
        unfold St.conf
        rw [hcf, hconfs]
      refine (iovecBufPos_spec (rv'.cached cd₁) hv (hnum ▸ hroom) (fun hne => hup (hns ▸ hne))
        (by omega) (Nat.min_le_left _ _) ?_ (fun h0 => hused.trans (hfront h0)) ?_).after
        (mk.frame.trans rv'.makes.frame) (hctrans rv') ⟨hlen, hcf,
          (congrArg Base.cacheAvailable rv'.base :), (congrArg Base.cacheInternal rv'.base :),
          (congrArg Base.cstr rv'.base :), (congrArg Base.userData rv'.base :)⟩
      · rw [hsp, ← hspare]
        exact Nat.min_le_right _ _
      · intro pre n post hns' hlt hgt
        rw [hns] at hns'
        rw [hused] at hlt hgt
        obtain ⟨hbuf, hmost⟩ := hcut pre n post hns' hlt hgt
        refine ⟨hbuf, Nat.min_eq_left ?_, by omega⟩
        have hpos : pos ≠ s.base.len := by
          have hl := sd.valid.len
          rw [hns', lens_append, lens_cons] at hl
          omega
        rw [if_pos hpos] at hcount
        rw [hcount]
        exact hmost

end Vstr
