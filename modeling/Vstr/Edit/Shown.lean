import Vstr.Cache.Shown
import Vstr.Edit.Undo

/-!
# Edits and the vectors of the nodes

The add and delete functions patch the vectors of the nodes they touch. After an insertion
at the very beginning the vectors are right when no byte of the first node was consumed and
one new node was enough.
-/

namespace Vstr

open Memory

variable {E : Env} {P P' : Own} {s s' : St} {h h' : Heap} {b : Base} {pre post : List Node}
variable {n : Node} {k : AddKind} {f : Found} {pos len room max : Nat} {atEnd : Bool}

/-- The vectors of a string are those of its nodes. -/
def St.Shown (room : Nat) (s : St) : Prop := s.base.Shows room s.heap s.base.used s.base.nodes

theorem St.Shown.heap (hs : s.Shown room) (hp : ∀ r, (h'.refs r).ptr = (s.heap.refs r).ptr) :
    St.Shown room { s with heap := h' } :=
  Base.Shows.heap hs fun _ _ r _ => hp r

/-- The consumed bytes are in the node. -/
theorem Valid.firstUsed_le {bufSz : Nat} (v : Valid bufSz b) (hns : b.nodes = pre ++ n :: post) :
    firstUsed b.used pre ≤ n.len := by
  unfold firstUsed
  split
  · rename_i e
    by_cases h0 : b.used = 0
    · omega
    · obtain ⟨m, ms, hm, -, hlt⟩ := v.used h0
      rw [hns, e, List.nil_append, List.cons.injEq] at hm
      rw [hm.1]
      omega
  · exact Nat.zero_le _

theorem iovec_cacheAdd (b : Base) (pos len : Nat) :
    (cacheAdd b pos len).iovecUptoDate = b.iovecUptoDate ∧ (cacheAdd b pos len).vec = b.vec := by
  unfold cacheAdd cacheCbs
  split <;> exact ⟨rfl, rfl⟩

theorem iovec_cacheDel (b : Base) (pos len : Nat) :
    (cacheDel b pos len).iovecUptoDate = b.iovecUptoDate ∧ (cacheDel b pos len).vec = b.vec := by
  unfold cacheDel cacheCbs
  split <;> exact ⟨rfl, rfl⟩

/-- The callbacks do not touch the vectors. -/
theorem St.Shown.cacheAdd (hs : St.Shown room ⟨h, b⟩) (pos len : Nat) :
    St.Shown room ⟨h, cacheAdd b pos len⟩ := by
  have hcore := core_cacheAdd b pos len
  unfold St.Shown at hs ⊢
  dsimp only at hs ⊢
  rw [nodes_of_core hcore, used_of_core hcore]
  exact hs.congr (iovec_cacheAdd b pos len).1 (iovec_cacheAdd b pos len).2

theorem St.Shown.cacheDel (hs : St.Shown room ⟨h, b⟩) (pos len : Nat) :
    St.Shown room ⟨h, cacheDel b pos len⟩ := by
  have hcore := core_cacheDel b pos len
  unfold St.Shown at hs ⊢
  dsimp only at hs ⊢
  rw [nodes_of_core hcore, used_of_core hcore]
  exact hs.congr (iovec_cacheDel b pos len).1 (iovec_cacheDel b pos len).2

/-! ## New nodes -/

/-- What the loop leaves of the base. -/
theorem addLoop_base (max : Nat) (atEnd : Bool) (ids : List Nat) (k : AddKind) (len : Nat)
    (s : St) : (addLoop max atEnd ids k len s).2.base.used = s.base.used ∧
      (addLoop max atEnd ids k len s).2.base.conf = s.base.conf := by
  induction ids generalizing k len s with
  | nil => exact ⟨rfl, rfl⟩
  | cons id ids ih =>
    obtain ⟨b, hb, e⟩ := addLoop_cons max atEnd id ids k len s
    have hu : b.used = s.base.used := (congrArg Base.used hb :)
    have hc : b.conf = s.base.conf := (congrArg Base.conf hb :)
    rw [e]
    split
    · exact ⟨hu, hc⟩
    · have := ih (k.advance (min max len) len) (len - min max len)
        ⟨k.fillNew s.heap id (min max len), b⟩
      exact ⟨this.1.trans hu, this.2.trans hc⟩

/-- Vectors that are not up to date are left so. -/
theorem addLoop_stale (max : Nat) (atEnd : Bool) (ids : List Nat) (k : AddKind) (len : Nat)
    (s : St) (hup : s.base.iovecUptoDate = false) :
    (addLoop max atEnd ids k len s).2.base.iovecUptoDate = false ∧
      (addLoop max atEnd ids k len s).2.base.vec = s.base.vec := by
  have stays : ∀ (h : Heap) (b : Base) (n : Node) (l : Nat), b.iovecUptoDate = false →
      cacheIovecMaybeAdd h b n atEnd l = b := by
    intro h b n l hb
    unfold cacheIovecMaybeAdd
    split
    · rfl
    · rw [if_neg (by simp [hb])]
  induction ids generalizing k len s with
  | nil => exact ⟨hup, rfl⟩
  | cons id ids ih =>
    unfold addLoop
    dsimp only
    rw [stays]
    · split
      · exact ⟨hup, rfl⟩
      · exact ih (k.advance (min max len) len) (len - min max len)
          ⟨k.fillNew s.heap id (min max len), { s.base with
            nodeUsed := Function.update s.base.nodeUsed k.type true
            num := s.base.num + 1 }⟩ hup
    · exact hup

/-- The vectors after new nodes behind the nodes `ns`. -/
theorem addLoop_shows_end {ns : List Node} (max : Nat) (ids : List Nat) (k : AddKind) (len : Nat)
    (s : St) (hs : s.base.Shows room s.heap s.base.used ns) (hu : ns = [] → s.base.used = 0)
    (hnum : s.base.num = ns.length) :
    (addLoop max true ids k len s).2.base.Shows room (addLoop max true ids k len s).2.heap
      s.base.used (ns ++ (addLoop max true ids k len s).1) := by
  induction ids generalizing k len s ns with
  | nil =>
    rw [addLoop, List.append_nil]
    exact hs
  | cons id ids ih =>
    have hf := (filled_fillNew s.heap k id (min max len)).refPtr
    have hs₁ : Base.Shows { s.base with
        nodeUsed := Function.update s.base.nodeUsed k.type true
        num := s.base.num + 1 } room (k.fillNew s.heap id (min max len)) s.base.used ns :=
      (hs.heap fun _ _ r _ => hf r).congr rfl rfl
    have hs₂ := hs₁.maybeAdd_end (n := ⟨id, min max len, k.payload⟩) hu
      (show s.base.num + 1 = ns.length + 1 by rw [hnum])
    have hb := noVec_cacheIovecMaybeAdd (k.fillNew s.heap id (min max len)) { s.base with
        nodeUsed := Function.update s.base.nodeUsed k.type true
        num := s.base.num + 1 } ⟨id, min max len, k.payload⟩ true (min max len)
    unfold addLoop
    dsimp only at hs₂ ⊢
    generalize cacheIovecMaybeAdd (k.fillNew s.heap id (min max len)) { s.base with
        nodeUsed := Function.update s.base.nodeUsed k.type true
        num := s.base.num + 1 } ⟨id, min max len, k.payload⟩ true (min max len) = b at hs₂ hb ⊢
    have hbu : b.used = s.base.used := (congrArg Base.used hb :)
    have hbn : b.num = s.base.num + 1 := (congrArg Base.num hb :)
    split
    · exact hs₂
    · rw [← hbu] at hs₂ ⊢
      have := ih (k.advance (min max len) len) (len - min max len)
        ⟨k.fillNew s.heap id (min max len), b⟩ hs₂ (by simp)
        (by dsimp only; rw [hbn, hnum, List.length_append, List.length_singleton])
      rw [List.append_assoc] at this
      exact this

/-- The vectors after one new node in front of the nodes `ns`. -/
theorem addLoop_shows_beg {ns : List Node} (ids : List Nat) (hlen : len ≤ max)
    (hs : s.base.Shows room s.heap s.base.used ns) (hu : s.base.used = 0) :
    (addLoop max false ids k len s).2.base.Shows room (addLoop max false ids k len s).2.heap
      s.base.used ((addLoop max false ids k len s).1 ++ ns) := by
  rw [hu] at hs ⊢
  cases ids with
  | nil => exact hs
  | cons id ids =>
    have hf := (filled_fillNew s.heap k id (min max len)).refPtr
    have hs₁ : Base.Shows { s.base with
        nodeUsed := Function.update s.base.nodeUsed k.type true
        num := s.base.num + 1 } room (k.fillNew s.heap id (min max len)) 0 ns :=
      (hs.heap fun _ _ r _ => hf r).congr rfl rfl
    unfold addLoop
    dsimp only
    rw [if_pos (by omega)]
    exact hs₁.maybeAdd_beg (n := ⟨id, min max len, k.payload⟩)

/-- The vectors once the new nodes are linked. -/
theorem addLink_shown (k : AddKind) (s : St) (idx : Nat) (atEnd : Bool) (len origPos origLen : Nat)
    (hs : ∀ r, addLoop (k.max s.conf) atEnd (s.conf.spare k.type) k len
        ⟨s.heap, { s.base with len := s.base.len + len }⟩ = r →
      r.2.base.Shows room r.2.heap s.base.used
        (s.base.nodes.take idx ++ r.1 ++ s.base.nodes.drop idx)) :
    (addLink k s idx atEnd len origPos origLen).Shown room := by
  obtain ⟨r, hr⟩ : ∃ r, addLoop (k.max s.conf) atEnd (s.conf.spare k.type) k len
    ⟨s.heap, { s.base with len := s.base.len + len }⟩ = r := ⟨_, rfl⟩
  have hu : r.2.base.used = s.base.used := by
    rw [← hr]
    exact (addLoop_base _ _ _ k len ⟨s.heap, { s.base with len := s.base.len + len }⟩).1
  have e : addLink k s idx atEnd len origPos origLen =
      ⟨r.2.heap.dropSpare s.base.conf k.type r.1.length, Vstr.cacheAdd { r.2.base with
        nodes := s.base.nodes.take idx ++ r.1 ++ s.base.nodes.drop idx
        endNode := if idx < s.base.nodes.length then r.2.base.endNode
          else r.1.getLast?.map Node.id } origPos origLen⟩ := by
    rw [← hr]
    rfl
  have hs' : r.2.base.Shows room (r.2.heap.dropSpare s.base.conf k.type r.1.length) _ _ :=
    (hs r hr).heap fun _ _ _ _ => rfl
  rw [e]
  apply St.Shown.cacheAdd
  unfold St.Shown
  dsimp only
  rw [hu]
  exact hs'.congr rfl rfl

/-- A node in front of others is not `end`. -/
theorem Valid.notLast {bufSz : Nat} {m : Node} {ms : List Node} (v : Valid bufSz b)
    (hd : (b.nodes.map Node.id).Nodup) (hns : b.nodes = pre ++ n :: m :: ms) :
    some n.id ≠ b.endNode := by
  rw [v.endNode, hns, List.getLast?_append_of_ne_nil _ (by simp), List.getLast?_cons_cons]
  rw [hns, List.map_append, List.nodup_append, List.map_cons, List.nodup_cons] at hd
  intro e
  obtain ⟨x, hx, hxe⟩ := Option.map_eq_some_iff.mp e.symm
  apply hd.2.1.1
  rw [← hxe]
  exact List.mem_map_of_mem (List.mem_of_getLast? hx)

/-- New nodes behind the node at `idx`. -/
theorem addLink_kill (sd : Sound E P s) (hns : s.base.nodes = pre ++ n :: post)
    (hs : s.Shown room) (k : AddKind) (len origPos origLen : Nat) :
    (addLink k { s with base := addKillIovec s.base pre.length } (pre.length + 1) true len origPos
      origLen).Shown room := by
  have hnode : s.base.node pre.length = n := node_of_eq hns
  have hcore := core_of_noVec (noVec_addKillIovec s.base pre.length)
  apply addLink_shown
  rintro r rfl
  dsimp only
  rw [nodes_of_core hcore, used_of_core hcore]
  cases post with
  | nil =>
    have hlast := (sd.valid.last sd.owned.nodes.nodup hns).1
    have hkeep : addKillIovec s.base pre.length = s.base := by
      unfold addKillIovec
      rw [hnode, hlast, if_neg (by simp)]
    have hl : s.base.nodes.length = pre.length + 1 := by
      rw [hns, List.length_append, List.length_singleton]
    rw [hkeep, List.take_of_length_le (by omega), List.drop_eq_nil_of_le (by omega),
      List.append_nil]
    refine addLoop_shows_end _ _ k len ⟨s.heap, { s.base with len := s.base.len + len }⟩ ?_
      (fun hnil => ?_) sd.valid.num
    · exact hs.congr rfl rfl
    · rw [hns] at hnil
      simp at hnil
  | cons m ms =>
    have hid := sd.valid.notLast sd.owned.nodes.nodup hns
    have hkill : addKillIovec s.base pre.length = { s.base with iovecUptoDate := false } := by
      unfold addKillIovec
      rw [hnode, if_pos hid]
    rw [hkill]
    obtain ⟨hup, hvec⟩ := addLoop_stale (k.max s.conf) true (s.conf.spare k.type) k len
      ⟨s.heap, { s.base with len := s.base.len + len, iovecUptoDate := false }⟩ rfl
    exact Base.Shows.stale hs hup hvec

/-! ## Insertions -/

/-- A node takes `m` bytes more. -/
theorem grown_shown {idx num : Nat} (v : Valid s.conf.bufSz s.base)
    (hns : s.base.nodes = pre ++ n :: post) (hidx : idx = pre.length)
    (hnum : num = pre.length + 1) (hs : s.Shown room) (k : AddKind) (m : Nat) :
    St.Shown room ⟨k.fill s.heap ⟨.node n.id, n.len⟩ m, cacheIovecAddNodeEnd { s.base with
      nodes := s.base.nodes.set idx { n with len := n.len + m }
      len := s.base.len + m } num m⟩ := by
  have hset : s.base.nodes.set idx { n with len := n.len + m } =
      pre ++ { n with len := n.len + m } :: post := by
    rw [hidx, hns, set_of_eq]
  unfold St.Shown at hs
  rw [hns] at hs
  have hs₁ : Base.Shows { s.base with
      nodes := pre ++ { n with len := n.len + m } :: post
      len := s.base.len + m } room s.heap s.base.used (pre ++ n :: post) := hs.congr rfl rfl
  have hs₂ := hs₁.addNodeEnd hnum (v.firstUsed_le hns) m
  have hcore := core_of_noVec (noVec_cacheIovecAddNodeEnd { s.base with
      nodes := pre ++ { n with len := n.len + m } :: post
      len := s.base.len + m } num m)
  rw [hset]
  unfold St.Shown
  dsimp only
  rw [nodes_of_core hcore, used_of_core hcore]
  exact hs₂.heap fun _ _ r _ => by rw [(fill_refs _ _ _ _).1]

/-- The node at the position takes what fits. -/
theorem addAbsorb_shown (v : Valid s.conf.bufSz s.base) (hns : s.base.nodes = pre ++ n :: post)
    (hidx : f.idx = pre.length) (hnum : f.num = pre.length + 1) (hs : s.Shown room)
    (k : AddKind) (len : Nat) : (addAbsorb k s f len).2.Shown room := by
  have hnode : s.base.node f.idx = n := by
    rw [hidx]
    exact node_of_eq hns
  unfold addAbsorb
  dsimp only
  rw [hnode]
  exact grown_shown v hns hidx hnum hs k _

/-- The add functions once the position is the end of a node. -/
theorem addAt_shown (sd : Sound E P s) (hat : At s.base pos f pre n post)
    (hnum : f.num = pre.length + 1) (hs : s.Shown room) (k : AddKind) (len : Nat) :
    (addAt k s f pos len).2.Shown room := by
  have hns := hat.nodes
  have hnode : s.base.node f.idx = n := by
    rw [hat.idx]
    exact node_of_eq hns
  obtain ⟨P₁, mk, -⟩ := makes_rangeSpare (E := E) sd.owned.heap s.base.conf k.type
    (allocNum len (k.max s.conf))
  have put : ∀ {P₁ : Own} {h : Heap}, Makes E P s.heap P₁ h → ∀ len',
      (if k.absorbs (h.confs s.base.conf) n then
        let r := addAbsorb k { s with heap := h } f len'
        if len' - r.1 = 0 then (true, { r.2 with base := Vstr.cacheAdd r.2.base pos len' })
        else (true, addLink (k.absorbed r.1) { r.2 with base := addKillIovec r.2.base f.idx }
          (f.idx + 1) true (len' - r.1) pos len')
      else (true, addLink k { s with heap := h, base := addKillIovec s.base f.idx } (f.idx + 1)
        true len' pos len')).2.Shown room := by
    intro P₁ h mk len'
    have sd₁ : Sound E P₁ { s with heap := h } := sd.makes mk
    have hs₁ : St.Shown room { s with heap := h } := hs.heap fun r => by rw [mk.refs]
    split
    · rename_i ha
      have hs₂ := addAbsorb_shown sd₁.valid hns hat.idx hnum hs₁ k len'
      obtain ⟨s₂, e, sd₂, -, hb, -⟩ := addAbsorb_spec sd₁ hns hat.idx ha len'
      rw [e] at hs₂ ⊢
      dsimp only at hs₂ ⊢
      split
      · exact hs₂.cacheAdd _ _
      · rw [hat.idx]
        have hns₂ : s₂.base.nodes = pre ++ { n with len := n.len + _ } :: post :=
          (congrArg Base.nodes hb :)
        exact addLink_kill sd₂ hns₂ hs₂ _ _ _ _
    · rw [hat.idx]
      exact addLink_kill sd₁ hns hs₁ _ _ _ _
  unfold addAt
  dsimp only
  rw [hnode]
  split
  · rename_i h hif
    split at hif
    · cases hif
    · rw [hif] at mk
      exact hs.heap fun r => by rw [mk.refs]
  · rename_i h hif
    split at hif
    · obtain rfl : s.heap = h := (Prod.mk.inj hif).2
      exact put (Makes.refl sd.owned.heap) len
    · rw [hif] at mk
      exact put mk len

/-- Finding the position and cutting the node there. -/
theorem SetUp.shown (su : SetUp True E P s pos P' s' f pre n post) (hs : s.Shown room) :
    s'.Shown room := by
  have hp := hs.heap su.quiet.refPtr
  obtain ⟨d, -, hb | ⟨n₀, beg, post₀, -, -, -, -, -, hb⟩⟩ := su.base
  · unfold St.Shown
    rw [hb]
    exact Base.Shows.congr hp rfl rfl
  · unfold St.Shown
    rw [hb]
    exact Base.Shows.stale hs rfl rfl

/-- An insertion at the beginning of a string whose vectors are up to date: no byte was
consumed, and one node is enough. -/
def AddKind.Prepends (s : St) (pos len : Nat) (k : AddKind) : Prop :=
  pos = 0 → s.base.len ≠ 0 → s.base.iovecUptoDate = true →
    s.base.used = 0 ∧ len ≤ k.max s.conf

theorem addAfter_shown (sd : Sound E P s) (pk : PosOk True s.base) (h1 : 1 ≤ pos)
    (h2 : pos ≤ s.base.len) (hs : s.Shown room) (k : AddKind) (len : Nat) :
    (addAfter k s pos len).2.Shown room := by
  unfold addAfter
  obtain ⟨P', s', ⟨e, -, -, -, ⟨d, hb⟩, -, qt⟩ | ⟨f, pre, n, post, e, su⟩⟩ :=
    addSetupPos_spec sd pk h1 h2
  · rw [e]
    unfold St.Shown
    dsimp only
    rw [hb]
    exact Base.Shows.congr (hs.heap qt.refPtr) rfl rfl
  · rw [e]
    exact addAt_shown su.sound su.at_ (su.num trivial) (su.shown hs) k len

theorem addFront_shown (sd : Sound E P s) (hs : s.Shown room) (k : AddKind)
    (hk : k.Prepends s 0 len) : (addFront k s len).2.Shown room := by
  obtain ⟨P₁, mk, -⟩ := makes_rangeSpare (E := E) sd.owned.heap s.base.conf k.type
    (allocNum len (k.max s.conf))
  have hbuf := mk.frame.bufSz s.base.conf
  unfold addFront
  generalize rangeSpare s.heap s.base.conf k.type (allocNum len (k.max s.conf)) = r at mk hbuf ⊢
  obtain ⟨ok, h⟩ := r
  dsimp only at mk hbuf ⊢
  have hs₁ : St.Shown room { s with heap := h } := hs.heap fun r => by rw [mk.refs]
  have hv : Valid (St.conf { s with heap := h }).bufSz s.base := by
    rw [show (St.conf { s with heap := h }).bufSz = s.conf.bufSz from hbuf]
    exact sd.valid
  cases ok with
  | false => exact hs₁
  | true =>
    dsimp only
    split
    · rename_i hne
      have hmax : k.max (St.conf { s with heap := h }) = k.max s.conf := by
        unfold AddKind.max
        rw [show (St.conf { s with heap := h }).bufSz = s.conf.bufSz from hbuf]
      by_cases hup : s.base.iovecUptoDate = true
      · obtain ⟨hu, hle⟩ := hk rfl hne hup
        have hzero : baseZeroUsed { s with heap := h } = { s with heap := h } := by
          rcases baseZeroUsed_cases hv with ⟨-, e⟩ | ⟨-, -, -, -, hu', -⟩
          · exact e
          · exact absurd hu hu'
        rw [hzero]
        apply addLink_shown
        rintro r rfl
        rw [List.take_zero, List.drop_zero, List.nil_append]
        rw [← hmax] at hle
        exact addLoop_shows_beg (s := ⟨h, { s.base with len := s.base.len + len }⟩) _ hle
          (Base.Shows.congr hs₁ rfl rfl) hu
      · have hz : (baseZeroUsed { s with heap := h }).base.iovecUptoDate = false ∧
            (baseZeroUsed { s with heap := h }).base.vec = s.base.vec := by
          have hup' : s.base.iovecUptoDate = false := by simpa using hup
          rcases baseZeroUsed_cases hv with ⟨-, e⟩ | ⟨_, _, -, -, -, -, e⟩
          · rw [e]
            exact ⟨hup', rfl⟩
          · rw [e]
            exact ⟨hup', rfl⟩
        apply addLink_shown
        rintro r rfl
        obtain ⟨h1, h2⟩ := addLoop_stale
          (k.max (baseZeroUsed { s with heap := h }).conf) false
          ((baseZeroUsed { s with heap := h }).conf.spare k.type) k len
          ⟨(baseZeroUsed { s with heap := h }).heap,
            { (baseZeroUsed { s with heap := h }).base with
              len := (baseZeroUsed { s with heap := h }).base.len + len }⟩ hz.1
        exact Base.Shows.stale hs h1 (h2.trans hz.2)
    · rename_i hne
      obtain ⟨hnil, hu⟩ := sd.valid.nil_of_len (by omega)
      apply addLink_shown
      rintro r rfl
      dsimp only
      rw [hnil, List.take_nil, List.drop_nil, List.append_nil]
      refine addLoop_shows_end _ _ k len
        ⟨h, { s.base with len := s.base.len + len, nodes := [] }⟩ ?_ (fun _ => hu)
        (by dsimp only; rw [sd.valid.num, hnil])
      rw [← hnil]
      exact hs₁.congr rfl rfl

/-- The inline append. -/
theorem addFast_shown (sd : Sound E P s) (hok : addFastOk s pos len = true) (hs : s.Shown room)
    (k : AddKind) : (addFast k s len).Shown room := by
  unfold addFastOk at hok
  obtain ⟨hne, -⟩ := of_decide_eq_true hok
  obtain ⟨pre, n, hns⟩ := exists_last (sd.valid.nodes_ne_nil hne)
  obtain ⟨-, hidx⟩ := sd.valid.last sd.owned.nodes.nodup hns
  have hnode : s.base.node (s.base.indexOf (s.base.endNode.getD 0)) = n := by
    rw [hidx]
    exact node_of_eq hns
  have hnum : s.base.num = pre.length + 1 := by
    rw [sd.valid.num, hns, List.length_append, List.length_singleton]
  unfold addFast
  dsimp only
  rw [hnode]
  exact grown_shown sd.valid hns hidx hnum hs k len

/-- The add functions. -/
theorem AddKind.add_shown (sd : Sound E P s) (pk : PosOk True s.base) (hpos : pos ≤ s.base.len)
    (hs : s.Shown room) {k : AddKind} (hk : k.Prepends s pos len) :
    (k.add s pos len).2.Shown room := by
  by_cases h0 : len = 0
  · rw [h0, k.add_zero hpos]
    exact hs
  · rcases k.add_cases hpos (Nat.pos_of_ne_zero h0) with ⟨hok, e⟩ | e
    · rw [e]
      exact addFast_shown sd hok hs k
    · rw [e]
      unfold addData
      split
      · exact addAfter_shown sd pk (by omega) hpos hs k len
      · obtain rfl : pos = 0 := by omega
        exact addFront_shown sd hs k hk

/-! ## Deletions -/

/-- A payload that moves on. -/
theorem exportNodePtr_shift {l : Nat} (hb : n.data ≠ .buf)
    (hf : ∀ r off, n.data = .ref r off → off + n.len ≤ 2 ^ 32) (hl : l < n.len) :
    exportNodePtr h { n with data := shiftPayload n.data l, len := n.len - l } =
      (exportNodePtr h n).map (·.add l) := by
  unfold exportNodePtr
  dsimp only
  cases hd : n.data with
  | buf => exact absurd hd hb
  | non => rfl
  | ptr p => rfl
  | ref r off =>
    have := hf r off hd
    have hm : refOff (off + l) = off + l := Nat.mod_eq_of_lt (by omega)
    simp only [shiftPayload, hm, Option.map_some, Ptr.add_add]

/-- The first node that stays loses its beginning. -/
theorem shows_beg {used l : Nat} {x : Node} {ms : List Node} (hs : b.Shows room h used (n :: ms))
    (hx : x.type = n.type) (hu : n.data ≠ .buf → used = 0)
    (hf : ∀ r off, n.data = .ref r off → off + n.len ≤ 2 ^ 32) (hl : l < n.len)
    (hle : used ≤ l) :
    (cacheIovecDelNodeBeg b x 1 (l - used)).Shows room h (begUsed n l) (begNode n l :: ms) := by
  rcases begNode_cases n l with ⟨e, eu, -⟩ | ⟨hb, -, eu, e⟩
  · rw [e, eu]
    refine hs.delNodeBeg hx rfl (by omega) ?_
    cases exportNodePtr h n with
    | none => rfl
    | some p =>
      simp only [Option.map_some, Ptr.add_add]
      rw [Nat.add_sub_of_le hle]
  · rw [e, eu]
    obtain rfl := hu hb
    refine hs.delNodeBeg hx (shiftPayload_type n l _) (by dsimp only; omega) ?_
    rw [exportNodePtr_shift hb hf hl]
    cases exportNodePtr h n with
    | none => rfl
    | some p => simp only [Option.map_some, Ptr.add_zero, Nat.sub_zero]

theorem iovec_delFastCaches (b : Base) (f : CstrData → CstrData) :
    (delFastCaches b f).iovecUptoDate = b.iovecUptoDate ∧ (delFastCaches b f).vec = b.vec := by
  unfold delFastCaches
  split <;> exact ⟨rfl, rfl⟩

/-- Only a `BUF` node has consumed bytes. -/
theorem Valid.used_of_not_buf {bufSz : Nat} {ns : List Node} (v : Valid bufSz b)
    (hns : b.nodes = n :: ns) (hb : n.data ≠ .buf) : b.used = 0 := by
  by_contra hne
  obtain ⟨m, ms, hm, hbuf, -⟩ := v.used hne
  rw [hns, List.cons.injEq] at hm
  rw [← hm.1] at hbuf
  exact hb hbuf

/-- The inline deletion inside the first node. -/
theorem delFastBeg_shown {ns : List Node} (sd : Sound E P s) (hf : Fits s.base.nodes)
    (hns : s.base.nodes = n :: ns) (h0 : 0 < len) (hlt : len + s.base.used < n.len)
    (hs : s.Shown room) : (delFastBeg s len).Shown room := by
  have v := sd.valid
  have hlen : len ≤ s.base.len := by
    have := v.len
    rw [hns, lens_cons] at this
    omega
  unfold St.Shown at hs
  rw [hns] at hs
  have shown : ∀ (b : Base) (f : CstrData → CstrData), b.iovecUptoDate = s.base.iovecUptoDate →
      b.vec = s.base.vec → b.used = begUsed n (len + s.base.used) →
      b.nodes = begNode n (len + s.base.used) :: ns →
      St.Shown room ⟨s.heap, cacheIovecDelNodeBeg (delFastCaches b f) n 1 len⟩ := by
    intro b f hup hvec hu hn
    obtain ⟨h1, h2⟩ := iovec_delFastCaches b f
    have hcore := (core_of_noVec (noVec_cacheIovecDelNodeBeg (delFastCaches b f) n 1 len)).trans
      (core_delFastCaches b f)
    have := shows_beg (hs.congr (h1.trans hup) (h2.trans hvec)) (rfl : n.type = n.type)
      (v.used_of_not_buf hns) (fun r off hd => hf n (by rw [hns]; simp) r off hd) hlt
      (Nat.le_add_left _ _)
    rw [Nat.add_sub_cancel] at this
    unfold St.Shown
    dsimp only
    rw [nodes_of_core hcore, used_of_core hcore, hu, hn]
    exact this
  have other : n.data ≠ .buf → St.Shown room ⟨s.heap, cacheIovecDelNodeBeg (delFastCaches
      { s.base with
        len := s.base.len - len
        nodes := { n with data := shiftPayload n.data len, len := n.len - len } :: ns }
      (delFastBegCstr len)) n 1 len⟩ := by
    intro hb
    have hu := v.used_of_not_buf hns hb
    rcases begNode_cases n (len + s.base.used) with ⟨-, -, h1⟩ | ⟨-, -, eu, e⟩
    · exact absurd (h1 (by omega)) hb
    · refine shown _ _ rfl rfl (hu.trans eu.symm) ?_
      rw [e, hu, Nat.add_zero]
  unfold delFastBeg
  rw [hns, sizeSub_of_le hlen]
  dsimp only
  cases hd : n.data with
  | buf =>
    have hsz := v.buf n (by rw [hns]; simp) (by rw [Node.type, hd])
    have hmax := sd.bufSz_le
    have hsmall : maxNodeBuf < 2 ^ 16 := by decide
    refine shown _ _ rfl rfl ?_ ?_
    · simp only [begUsed, hd]
      rw [Nat.mod_eq_of_lt (by omega), Nat.add_comm]
    · simp only [begNode, hd]
      exact hns
  | non =>
    rw [hd] at other
    exact other (by simp)
  | ptr a =>
    rw [hd] at other
    exact other (by simp)
  | ref r off =>
    rw [hd] at other
    exact other (by simp)

/-- The inline deletion inside the last node. -/
theorem delFastEnd_shown (sd : Sound E P s) (hns : s.base.nodes = pre ++ [n]) (pos len : Nat)
    (hs : s.Shown room) : (delFastEnd s pos len).Shown room := by
  have hi := (sd.valid.last sd.owned.nodes.nodup hns).2
  have hnode : s.base.node pre.length = n := node_of_eq hns
  have hset : s.base.nodes.set pre.length { n with len := n.len - len } =
      pre ++ [{ n with len := n.len - len }] := by
    rw [hns, set_of_eq]
  have hnum : s.base.num = pre.length + 1 := by
    rw [sd.valid.num, hns, List.length_append, List.length_singleton]
  unfold St.Shown at hs
  rw [hns] at hs
  unfold delFastEnd
  dsimp only
  rw [hi, hnode, hset]
  obtain ⟨h1, h2⟩ := iovec_delFastCaches { s.base with
    len := s.base.len - len
    nodes := pre ++ [{ n with len := n.len - len }] } (delFastEndCstr pos)
  have hcore := (core_of_noVec (noVec_cacheIovecDelNodeEnd (delFastCaches { s.base with
    len := s.base.len - len
    nodes := pre ++ [{ n with len := n.len - len }] } (delFastEndCstr pos)) s.base.num len)).trans
    (core_delFastCaches _ _)
  unfold St.Shown
  dsimp only
  rw [nodes_of_core hcore, used_of_core hcore]
  exact (hs.congr h1 h2).delNodeEnd hnum len

/-- Everything goes. -/
theorem delAll_shown (hs : s.Shown room) : (delAll s).Shown room := by
  have hb : Base.Shows { s.base with
      len := 0
      used := 0
      num := 0
      nodes := []
      endNode := none
      nodeUsed := fun _ => false } room s.heap s.base.used s.base.nodes :=
    Base.Shows.congr hs rfl rfl
  unfold delAll
  apply St.Shown.cacheDel
  have hcore := core_of_noVec (noVec_cacheIovecReset
    ((delAllLoop s.base.conf [] s.base.nodes s.heap).confs s.base.conf)
    { s.base with
      len := 0
      used := 0
      num := 0
      nodes := []
      endNode := none
      nodeUsed := fun _ => false })
  unfold St.Shown
  dsimp only
  rw [nodes_of_core hcore, used_of_core hcore]
  exact hb.reset _

/-- The beginning goes. -/
theorem delBeg_shown (sd : Sound E P s) (hf : Fits s.base.nodes) (h0 : 0 < len)
    (hlen : len < s.base.len) (hs : s.Shown room) : (delBeg s len).Shown room := by
  obtain ⟨P', h', gone, m, ms, l, hns, hl, hlt, -, lk, -, e⟩ := delBeg_cases sd h0 hlen
  have hv := sd.valid
  rw [e]
  apply St.Shown.cacheDel
  have hp : s.base.Shows room h' s.base.used (gone ++ m :: ms) := by
    rw [← hns]
    exact Base.Shows.heap hs fun _ _ r _ => lk.refPtr r
  have hb : (begBase s.base len gone.length m l ms).Shows room h' s.base.used (gone ++ m :: ms) :=
    hp.congr rfl rfl
  have hcore : (begVec (cacheIovecDelBeg (begBase s.base len gone.length m l ms) gone.length)
      (begNode m l) (begLive s.base gone l)).core =
        (begBase s.base len gone.length m l ms).core := by
    apply core_of_noVec
    unfold begVec
    split
    · rw [noVec_cacheIovecDelNodeBeg, noVec_cacheIovecDelBeg]
    · rw [noVec_cacheIovecDelBeg]
  have hty : (begNode m l).type = m.type := by
    rcases begNode_cases m l with ⟨e, -⟩ | ⟨-, -, -, e⟩
    · rw [e]
    · rw [e]
      exact shiftPayload_type m l _
  have hfm : ∀ r off, m.data = .ref r off → off + m.len ≤ 2 ^ 32 :=
    fun r off hd => hf m (by rw [hns]; simp) r off hd
  unfold St.Shown
  dsimp only
  rw [nodes_of_core hcore, used_of_core hcore]
  change Base.Shows _ room h' (begUsed m l) (begNode m l :: ms)
  by_cases hg : gone = []
  · subst hg
    have hle : s.base.used ≤ l := by
      rw [lens_nil] at hl
      omega
    rw [List.length_nil, cacheIovecDelBeg_zero, begVec, begLive, if_pos rfl, if_pos (by
      rw [lens_nil] at hl
      omega)]
    exact shows_beg hb hty (hv.used_of_not_buf hns) hfm hlt hle
  · have hb' := hb.delBeg hg
    rw [begVec, begLive, if_neg hg]
    split
    · exact shows_beg hb' hty (fun _ => rfl) hfm hlt (Nat.zero_le _)
    · rename_i hz
      obtain rfl : l = 0 := by omega
      rw [begNode_zero, begUsed_zero]
      exact hb'

theorem midHeap_refs (h : Heap) (n : Node) (p len : Nat) : (midHeap h n p len).refs = h.refs := by
  unfold midHeap
  split <;> rfl

theorem cutFrontHeap_refs (h : Heap) (rest : List Node) (l : Nat) :
    (cutFrontHeap h rest l).refs = h.refs := by
  unfold cutFrontHeap
  split
  · rfl
  · rename_i m ms
    split
    · rfl
    · rcases cutHeap_cases h m l with ⟨-, e⟩ | ⟨-, e⟩
      · rw [e]
        rfl
      · rw [e]

/-- Nodes behind `n` go, and the beginning of the first that stays. -/
theorem shows_endVec {used num gone : Nat} {goneNs rest : List Node} {l : Nat}
    (hs : b.Shows room h used (pre ++ n :: (goneNs ++ rest)))
    (hb : b.num = (pre ++ n :: (goneNs ++ rest)).length) (hnum : num = pre.length + 1)
    (hgone : gone = goneNs.length) :
    (endVec h b num gone pre n rest l).Shows room h used (pre ++ n :: cutFront rest l) := by
  have hns : pre ++ n :: (goneNs ++ rest) = (pre ++ [n]) ++ goneNs ++ rest := by simp
  rw [hns] at hs hb
  have hd := hs.delNodes (by simp) hb (show num = (pre ++ [n]).length by simp [hnum])
  subst hgone
  unfold endVec
  dsimp only
  split
  · have : pre ++ n :: cutFront [] l = (pre ++ [n]) ++ [] := by simp [cutFront]
    rw [this]
    exact hd.congr rfl rfl
  · rename_i m ms
    split
    · rename_i hz
      have : pre ++ n :: cutFront (m :: ms) l = (pre ++ [n]) ++ m :: ms := by simp [cutFront, hz]
      rw [this]
      exact hd.congr rfl rfl
    · rename_i hz
      have : pre ++ n :: cutFront (m :: ms) l = (pre ++ [n]) ++ cutNode m l :: ms := by
        simp [cutFront, hz]
      rw [this]
      exact Base.Shows.resetNode (hd.congr rfl rfl) (by simp) (by simp [hnum])

/-- A stretch inside a node goes. -/
theorem delMiddle_shown {keep : Nat} {f : Found} (sd : Sound E P s)
    (hat : At s.base keep f pre n post) (hnum : f.num = pre.length + 1) (hkeep : 0 < keep)
    (h0 : 0 < len) (hin : f.pos + len < n.len) (hs : s.Shown room) :
    (match delMiddle { s with base := { s.base with len := s.base.len - len } } f len with
      | (false, s) => (false, { s with base := { s.base with len := s.base.len + len } })
      | (true, s) => (true, { s with base := cacheDel s.base (keep + 1) len })).2.Shown room := by
  have hns := hat.nodes
  have hidx := hat.idx
  by_cases hc : delSplits s.conf n = true
  · rw [delMiddle_split hns hidx hc]
    obtain ⟨P', h', -, ⟨e, -, qt⟩ | ⟨beg, e, -⟩⟩ :=
      gone_split sd hns hat.one_le h0 hin hat.pos hkeep
    · rw [e]
      exact Base.Shows.congr (hs.heap qt.refPtr) rfl rfl
    · rw [e]
      dsimp only
      apply St.Shown.cacheDel
      refine Base.Shows.stale hs ?_ ?_
      · unfold cacheIovecDelNodeEnd
        rw [if_neg (by simp [splitBase])]
        rfl
      · unfold cacheIovecDelNodeEnd
        rw [if_neg (by simp [splitBase])]
        rfl
  · have hc' : delSplits s.conf n = false := by simpa using hc
    rw [delMiddle_move hns hidx hc']
    dsimp only
    apply St.Shown.cacheDel
    have hsn : s.base.Shows room s.heap s.base.used (pre ++ n :: post) := by
      rw [← hns]
      exact hs
    have hm : (midBase s.base len pre n post).Shows room s.heap s.base.used (pre ++ n :: post) :=
      hsn.congr rfl rfl
    have hcore := core_of_noVec
      (noVec_cacheIovecDelNodeEnd (midBase s.base len pre n post) f.num len)
    unfold St.Shown
    dsimp only
    rw [nodes_of_core hcore, used_of_core hcore]
    exact (hm.delNodeEnd hnum len).heap fun _ _ r _ => by rw [midHeap_refs]

/-- The node at the position keeps its first bytes. -/
theorem shows_tailVec {b : Base} {h : Heap} {p used num : Nat}
    (hb : b.Shows room h used (pre ++ n :: post)) (hnum : num = pre.length + 1)
    (hp : p ≤ n.len) :
    (tailVec b num (n.len - p)).Shows room h used (pre ++ { n with len := p } :: post) := by
  unfold tailVec
  split
  · have hd := hb.delNodeEnd hnum (n.len - p)
    rwa [Nat.sub_sub_self hp] at hd
  · have e : p = n.len := by omega
    rw [e]
    exact hb

/-- `vstr_extern_inline_del` when the first `keep` bytes stay. -/
theorem delAfter_shown {keep : Nat} (sd : Sound E P s) (pk : PosOk True s.base) (hkeep : 0 < keep)
    (h0 : 0 < len) (hle : keep + len ≤ s.base.len) (hs : s.Shown room) :
    (delAfter s keep len len).2.Shown room := by
  have hv := sd.valid
  obtain ⟨pre, n, post, hat, hfnum, -⟩ :=
    basePos_at hv sd.owned.nodes.nodup pk hkeep (by omega) false
  have hfnum := hfnum trivial
  unfold delAfter
  dsimp only
  generalize (basePos s.base keep false).1 = f at hat hfnum ⊢
  have hns := hat.nodes
  have hidx := hat.idx
  have hpos := hat.pos
  have hlen := hat.le_len
  have hnode : s.base.node f.idx = n := by rw [hidx]; exact node_of_eq hns
  rw [hnode, sizeSub_of_le (show len ≤ s.base.len by omega)]
  split
  · exact delMiddle_shown sd hat hfnum hkeep h0 (by omega) hs
  · have hall := hv.len
    rw [hns, lens_append, lens_cons] at hall
    have hvec := noVec_tailVec { s.base with len := s.base.len - len } f.num (n.len - f.pos)
    have hb : Base.Shows { s.base with len := s.base.len - len } room s.heap s.base.used
        (pre ++ n :: post) := by
      rw [← hns]
      exact Base.Shows.congr hs rfl rfl
    have htail := shows_tailVec hb hfnum hlen
    rw [delTail_state hns hidx hlen len]
    apply St.Shown.cacheDel
    obtain ⟨P', h', gone, rest, l, c, e⟩ := delTail_nodes sd hns hidx hvec (by omega) (by omega)
    rw [e]
    generalize tailVec { s.base with len := s.base.len - len } f.num (n.len - f.pos) = b₁
      at hvec htail ⊢
    have hu₁ : b₁.used = s.base.used := (congrArg Base.used hvec :)
    have hnum₁ : b₁.num = s.base.num := (congrArg Base.num hvec :)
    have hcore := core_of_noVec (noVec_endVec (cutFrontHeap h' rest l) b₁ f.num gone.length pre
      { n with len := f.pos } rest l)
    have hp : b₁.Shows room (cutFrontHeap h' rest l) s.base.used
        (pre ++ { n with len := f.pos } :: (gone ++ rest)) := by
      rw [← c.nodes]
      refine Base.Shows.heap htail fun _ _ r _ => ?_
      rw [cutFrontHeap_refs]
      exact c.like.refPtr r
    have hlenb : b₁.num = (pre ++ { n with len := f.pos } :: (gone ++ rest)).length := by
      rw [hnum₁, hv.num, hns, ← c.nodes]
      simp
    rw [← hu₁] at hp
    unfold St.Shown
    dsimp only
    rw [nodes_of_core hcore, used_of_core hcore]
    exact shows_endVec hp hlenb hfnum rfl

/-- `vstr_extern_inline_del`. -/
theorem externDel_shown (sd : Sound E P s) (pk : PosOk True s.base) (hf : Fits s.base.nodes)
    (h1 : 1 ≤ pos) (h0 : 0 < len) (hle : pos + len ≤ s.base.len + 1) (hs : s.Shown room) :
    (externDel s pos len).2.Shown room := by
  have hmod : scPoslast pos len % 2 ^ 64 ≤ s.base.len := by
    have := Nat.mod_le (scPoslast pos len) (2 ^ 64)
    unfold scPoslast at this ⊢
    omega
  unfold externDel
  rw [if_neg (by omega)]
  split
  · split
    · exact delAll_shown hs
    · exact delBeg_shown sd hf h0 (by omega) hs
  · have hlen : (if (pos - 1 + len) % 2 ^ 64 ≥ s.base.len then s.base.len - (pos - 1) else len) =
        len := by
      have := Nat.mod_le (pos - 1 + len) (2 ^ 64)
      split <;> omega
    dsimp only
    rw [hlen]
    exact delAfter_shown sd pk (by omega) h0 (by omega) hs

/-- `vstr_del`. -/
theorem del_shown (sd : Sound E P s) (pk : PosOk True s.base) (hf : Fits s.base.nodes)
    (h1 : 1 ≤ pos) (hle : pos + len ≤ s.base.len + 1) (hs : s.Shown room) :
    (del s pos len).2.Shown room := by
  unfold del delSum
  rw [if_neg (by omega)]
  split
  · exact hs
  · rename_i h0
    have hext := externDel_shown sd pk hf h1 (by omega) hle hs
    split
    · have hne : s.base.nodes ≠ [] := sd.valid.nodes_ne_nil (by omega)
      split
      · rename_i hg
        obtain ⟨n, ns, hns⟩ := List.exists_cons_of_ne_nil hne
        rw [node_zero_of_eq hns] at hg
        exact delFastBeg_shown sd hf hns (by omega) hg.2 hs
      · obtain ⟨pre, n, hns⟩ := exists_last hne
        dsimp only
        generalize (if s.base.nodes.head?.map Node.id = s.base.endNode then s.base.used else 0) = u
        split
        · exact delFastEnd_shown sd hns _ _ hs
        · exact hext
    · exact hext

end Vstr
