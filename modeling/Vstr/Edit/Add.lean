import Vstr.Edit.Link

/-!
# Insertions

The add functions insert their data after a position, whatever the layout: the node at
the position takes what fits, new nodes take the rest.
-/

namespace Vstr

open Memory Splice

variable {E : Env} {P P' : Own} {s : St} {h : Heap} {pre post : List Node} {n : Node}
variable {k : AddKind} {q : Prop} {pos len : Nat}

/-! ## Squeezing out used bytes -/

/-- A write into the buffer of one node leaves the bytes of the nodes around it. -/
theorem Owned.flat_write_around (ow : Owned E P h (pre ++ n :: post))
    (ps : PtrSafe E P (pre ++ n :: post)) (o : Nat) (bs : List UInt8) :
    flat (h.setMem (write h.mem ⟨.node n.id, o⟩ bs)) pre = flat h pre ∧
      flat (h.setMem (write h.mem ⟨.node n.id, o⟩ bs)) post = flat h post := by
  have hmine := ow.nodes.own n (by simp)
  have hnd := ow.nodes.nodup
  rw [List.map_append, List.map_cons, List.nodup_append, List.nodup_cons] at hnd
  obtain ⟨-, ⟨hpost, -⟩, hpre⟩ := hnd
  constructor
  · apply flat_congr
    intro m hm
    apply ow.nodeBytes_write ps (by simp [hm]) bs (not_steady_of_base hmine)
    intro _ e
    simp only [Blk.node.injEq] at e
    exact hpre m.id (List.mem_map_of_mem hm) n.id List.mem_cons_self e.symm
  · apply flat_congr
    intro m hm
    apply ow.nodeBytes_write ps (by simp [hm]) bs (not_steady_of_base hmine)
    intro _ e
    simp only [Blk.node.injEq] at e
    exact hpost (e ▸ List.mem_map_of_mem hm)

/-- The base after `vstr__base_zero_used`. -/
theorem baseZeroUsed_cases (v : Valid s.conf.bufSz s.base) :
    (s.base.used = 0 ∧ baseZeroUsed s = s) ∨
      ∃ n ns, s.base.nodes = n :: ns ∧ n.data = .buf ∧ s.base.used ≠ 0 ∧ s.base.used < n.len ∧
        baseZeroUsed s = ⟨s.heap.setMem (copy s.heap.mem ⟨.node n.id, 0⟩
            ⟨.node n.id, s.base.used⟩ (n.len - s.base.used)),
          { s.base with
            nodes := { n with len := n.len - s.base.used } :: ns
            used := 0 }⟩ := by
  by_cases hu : s.base.used = 0
  · refine .inl ⟨hu, ?_⟩
    unfold baseZeroUsed
    split
    · rfl
    · rw [if_neg (by simp [hu])]
  · obtain ⟨n, ns, hns, hd, hlt⟩ := v.used hu
    refine .inr ⟨n, ns, hns, hd, hu, hlt, ?_⟩
    unfold baseZeroUsed
    rw [hns]
    simp only [ne_eq, hu, not_false_eq_true, if_true]

/-- The first node without its used bytes: the structure. -/
theorem valid_zeroUsed {bufSz : Nat} {b : Base} {ns : List Node} (v : Valid bufSz b)
    (hns : b.nodes = n :: ns) (hlt : b.used < n.len) :
    Valid bufSz { b with nodes := { n with len := n.len - b.used } :: ns, used := 0 } := by
  have hn : n ∈ b.nodes := by rw [hns]; exact List.mem_cons_self
  have hmem : ∀ m ∈ ({ n with len := n.len - b.used } : Node) :: ns,
      m ∈ b.nodes ∨ (m.type = n.type ∧ 0 < m.len ∧ m.len ≤ n.len) := by
    intro m hm
    rcases List.mem_cons.mp hm with rfl | hm
    · exact .inr ⟨rfl, by dsimp only; omega, Nat.sub_le _ _⟩
    · exact .inl (by rw [hns]; exact List.mem_cons_of_mem _ hm)
  refine ⟨?_, ?_, ?_, ?_, fun h0 => absurd rfl h0, ?_, ?_, ?_⟩
  · have := v.len
    rw [hns, lens_cons] at this
    simp only [lens_cons]
    omega
  · have := v.num
    rw [hns] at this
    exact this
  · have := v.endNode
    rw [hns] at this
    dsimp only
    rw [this]
    cases ns with
    | nil => rfl
    | cons m ms => rfl
  · intro m hm
    rcases hmem m hm with hm | ⟨-, hm, -⟩
    · exact v.pos m hm
    · exact hm
  · intro m hm
    rcases hmem m hm with hm | ⟨hm, -, -⟩
    · exact v.flags m hm
    · rw [hm]
      exact v.flags n hn
  · intro m hm hb
    rcases hmem m hm with hm | ⟨hm, -, hle⟩
    · exact v.buf m hm hb
    · exact Nat.le_trans hle (v.buf n hn (hm.symm.trans hb))
  · intro m hm
    rcases hmem m hm with hm | ⟨-, -, hle⟩
    · exact v.max m hm
    · exact Nat.le_trans hle (v.max n hn)

/-- The cached position. -/
theorem posOk_zeroUsed {b : Base} {ns : List Node} (pk : PosOk q b) (hns : b.nodes = n :: ns)
    (hu : b.used ≠ 0) (hlt : b.used < n.len) :
    PosOk q { b with nodes := { n with len := n.len - b.used } :: ns, used := 0 } := by
  intro id hid hc
  obtain ⟨h1, k, i, hk, hs, hq⟩ := pk id hid hc
  rw [hns, sits_cons] at hs
  rcases hs with ⟨-, rfl, rfl⟩ | ⟨k', i', rfl, rfl, hs⟩
  · omega
  · refine ⟨h1, n.len - b.used + k', i' + 1, by dsimp only; omega, ?_, hq⟩
    rw [sits_cons]
    exact .inr ⟨k', i', rfl, rfl, hs⟩

/-- The content, once the bytes are moved down. -/
theorem flat_zeroUsed {u : Nat} {ns : List Node} (how : Owned E P h (n :: ns))
    (ps : PtrSafe E P (n :: ns)) (hd : n.data = .buf) (hlt : u < n.len) :
    flat (h.setMem (copy h.mem ⟨.node n.id, 0⟩ ⟨.node n.id, u⟩ (n.len - u)))
      ({ n with len := n.len - u } :: ns) = (flat h (n :: ns)).drop u := by
  have how' : Owned E P h ([] ++ n :: ns) := how
  have hother := (how'.flat_write_around ps 0 (read h.mem ⟨.node n.id, u⟩ (n.len - u))).2
  have hfirst : nodeBytes (h.setMem (copy h.mem ⟨.node n.id, 0⟩ ⟨.node n.id, u⟩ (n.len - u)))
      { n with len := n.len - u } = (nodeBytes h n).drop u := by
    rw [nodeBytes_eq, nodeBytes_eq]
    dsimp only
    rw [hd]
    dsimp only
    rw [← List.map_drop, drop_read]
    have hr := read_copy_self h.mem ⟨.node n.id, 0⟩ ⟨.node n.id, u⟩ (n.len - u)
    have ha : (Ptr.add ⟨Blk.node n.id, 0⟩ u : Addr) = ⟨.node n.id, u⟩ := by
      simp [Ptr.add]
    rw [ha]
    exact congrArg (List.map some) hr
  rw [flat_cons, flat_cons, hfirst,
    List.drop_append_of_le_length (by rw [length_nodeBytes]; omega)]
  exact congrArg _ hother

/-- `vstr__base_zero_used` keeps the structure and the content. -/
theorem baseZeroUsed_spec (sd : Sound E P s) (pk : PosOk q s.base) :
    Sound E P (baseZeroUsed s) ∧ Frame E P s.heap P (baseZeroUsed s).heap ∧
      PosOk q (baseZeroUsed s).base ∧
      (∃ ns, (baseZeroUsed s).base = { s.base with nodes := ns, used := 0 }) ∧
      (∀ r, (baseZeroUsed s).heap.refs r = s.heap.refs r) ∧
      (baseZeroUsed s).heap.confs = s.heap.confs ∧
      (∀ {Q : Blk → Prop}, PtrsIn Q s.base.nodes → PtrsIn Q (baseZeroUsed s).base.nodes) ∧
      (PtrSafe E P s.base.nodes → content (baseZeroUsed s) = content s) ∧
      (Fits s.base.nodes → Fits (baseZeroUsed s).base.nodes) := by
  rcases baseZeroUsed_cases sd.valid with ⟨hu, e⟩ | ⟨n, ns, hns, hd, hu, hlt, e⟩
  · rw [e]
    exact ⟨sd, Frame.refl E P s.heap, pk, ⟨s.base.nodes, by rw [← hu]⟩, fun _ => rfl, rfl,
      id, fun _ => rfl, fun hf => hf⟩
  · rw [e]
    have hmine : P (.node n.id) = .base E.me := sd.owned.nodes.own n (by rw [hns]; simp)
    have how : Owned E P s.heap ({ n with len := n.len - s.base.used } :: ns) :=
      sd.owned.of_same (by rw [hns]; rfl) (by rw [hns]; rfl)
    refine ⟨⟨how.setMem _, valid_zeroUsed sd.valid hns hlt, sd.bufSz_pos, sd.bufSz_le⟩,
      frame_setMem _ (not_foreign_of_base hmine), posOk_zeroUsed pk hns hu hlt, ⟨_, rfl⟩,
      fun _ => rfl, rfl, ?_, ?_, ?_⟩
    · intro Q ps
      rw [hns, ptrsIn_cons] at ps
      rw [ptrsIn_cons]
      exact ps
    · intro ps
      have ho := sd.owned
      rw [hns] at ps ho
      unfold content
      dsimp only
      rw [flat_zeroUsed ho ps hd hlt, List.drop_zero, hns]
    · intro hf
      rw [hns, fits_cons] at hf
      rw [fits_cons]
      refine ⟨fun r off hr => ?_, hf.2⟩
      have hr' : n.data = .ref r off := hr
      rw [hd] at hr'
      cases hr'

/-! ## The node at the position takes what fits -/

/-- The node at the position after it took `m` bytes. -/
def absorbBase (b : Base) (pre : List Node) (n : Node) (post : List Node) (m : Nat) : Base :=
  { b with
    nodes := pre ++ { n with len := n.len + m } :: post
    len := b.len + m }

theorem valid_absorbBase {bufSz m : Nat} {b : Base} (v : Valid bufSz b)
    (hns : b.nodes = pre ++ n :: post) (hmax : n.len + m ≤ maxNodeAll)
    (hbuf : n.type = .buf → n.len + m ≤ bufSz) : Valid bufSz (absorbBase b pre n post m) := by
  have hn : n ∈ b.nodes := by rw [hns]; simp
  have hmem : ∀ x ∈ pre ++ ({ n with len := n.len + m } : Node) :: post,
      x ∈ b.nodes ∨ x = { n with len := n.len + m } := by
    intro x hx
    rw [hns]
    simp only [List.mem_append, List.mem_cons] at hx ⊢
    rcases hx with hx | hx | hx
    · exact .inl (.inl hx)
    · exact .inr hx
    · exact .inl (.inr (.inr hx))
  refine ⟨?_, ?_, ?_, ?_, ?_, ?_, ?_, ?_⟩
  · have := v.len
    rw [hns] at this
    simp only [absorbBase, lens_append, lens_cons] at this ⊢
    omega
  · have := v.num
    rw [hns] at this
    simp only [absorbBase, List.length_append, List.length_cons] at this ⊢
    exact this
  · have := v.endNode
    rw [hns] at this
    simp only [absorbBase]
    rw [this]
    cases post with
    | nil => simp
    | cons y ys => simp
  · intro x hx
    rcases hmem x hx with hx | rfl
    · exact v.pos x hx
    · have := v.pos n hn
      dsimp only
      omega
  · intro hu
    obtain ⟨y, ys, hy, hd, hlt⟩ := v.used hu
    rw [hns] at hy
    simp only [absorbBase]
    cases pre with
    | nil =>
      rw [List.nil_append, List.cons.injEq] at hy
      exact ⟨_, _, rfl, by rw [← hd, ← hy.1], by rw [← hy.1] at hlt; dsimp only; omega⟩
    | cons z zs =>
      rw [List.cons_append, List.cons.injEq] at hy
      exact ⟨z, _, rfl, by rw [hy.1]; exact hd, by rw [hy.1]; exact hlt⟩
  · intro x hx
    rcases hmem x hx with hx | rfl
    · exact v.flags x hx
    · exact v.flags n hn
  · intro x hx hb
    rcases hmem x hx with hx | rfl
    · exact v.buf x hx hb
    · exact hbuf hb
  · intro x hx
    rcases hmem x hx with hx | rfl
    · exact v.max x hx
    · exact hmax

/-- A node that absorbs has data of its own kind, and room. -/
theorem AddKind.absorbs_cases {conf : Conf} (ha : k.absorbs conf n = true) :
    (n.data = .buf ∧ n.len < conf.bufSz ∧ ((∃ b, k = .buf b) ∨ ∃ c, k = .repChr c)) ∨
    (n.data = .non ∧ n.len < maxNodeAll ∧ k = .non) ∨
    (∃ q, n.data = .ptr q ∧ n.len < maxNodeAll ∧ k = .ptr (q.add n.len)) ∨
    (∃ r off', n.data = .ref r off' ∧ n.len < maxNodeAll ∧
      k = .ref r ((off' + n.len) % 2 ^ 32)) := by
  unfold AddKind.absorbs at ha
  cases k with
  | buf b =>
    cases hd : n.data with
    | buf =>
      rw [hd] at ha
      exact .inl ⟨rfl, of_decide_eq_true ha, .inl ⟨b, rfl⟩⟩
    | _ =>
      rw [hd] at ha
      cases ha
  | repChr c =>
    cases hd : n.data with
    | buf =>
      rw [hd] at ha
      exact .inl ⟨rfl, of_decide_eq_true ha, .inr ⟨c, rfl⟩⟩
    | _ =>
      rw [hd] at ha
      cases ha
  | non =>
    cases hd : n.data with
    | non =>
      rw [hd] at ha
      exact .inr (.inl ⟨rfl, of_decide_eq_true ha, rfl⟩)
    | _ =>
      rw [hd] at ha
      cases ha
  | ptr p =>
    cases hd : n.data with
    | ptr q =>
      rw [hd] at ha
      obtain ⟨rfl, hlt⟩ := of_decide_eq_true ha
      exact .inr (.inr (.inl ⟨q, rfl, hlt, rfl⟩))
    | _ =>
      rw [hd] at ha
      cases ha
  | ref r off =>
    cases hd : n.data with
    | ref r' off' =>
      rw [hd] at ha
      obtain ⟨rfl, rfl, hlt⟩ := of_decide_eq_true ha
      exact .inr (.inr (.inr ⟨r', off', rfl, hlt, rfl⟩))
    | _ =>
      rw [hd] at ha
      cases ha

/-- A node that absorbs has the type of the data, and room. -/
theorem AddKind.absorbs_type {conf : Conf} (ha : k.absorbs conf n = true) :
    n.type = k.type ∧ n.len < k.max conf := by
  rcases AddKind.absorbs_cases ha with ⟨hd, hlt, ⟨b, rfl⟩ | ⟨c, rfl⟩⟩ | ⟨hd, hlt, rfl⟩ |
    ⟨q, hd, hlt, rfl⟩ | ⟨r, off, hd, hlt, rfl⟩ <;>
  exact ⟨by simp only [Node.type, hd, AddKind.type], hlt⟩

/-- A `REF` node that takes more of a reference is followed by what is added: its end did
not wrap. -/
def AddKind.Joins (n : Node) : AddKind → Prop
  | ref _ off => ∀ r off', n.data = .ref r off' → off' + n.len = off
  | _ => True

/-- Filling the room behind a node. -/
theorem AddKind.fill_cases (h : Heap) (k : AddKind) (dst : Addr) (m : Nat) :
    (∃ bs : List UInt8, bs.length = m ∧ k.type = .buf ∧ bs.map some = k.src h m ∧
        k.fill h dst m = h.setMem (write h.mem dst bs)) ∨
      (k.type ≠ .buf ∧ k.fill h dst m = h) := by
  cases k with
  | buf a => exact .inl ⟨read h.mem a m, length_read _ _ _, rfl, rfl, rfl⟩
  | repChr c => exact .inl ⟨List.replicate m c, List.length_replicate, rfl, by
      rw [List.map_replicate]; rfl, rfl⟩
  | non => exact .inr ⟨by simp [AddKind.type], rfl⟩
  | ptr a => exact .inr ⟨by simp [AddKind.type], rfl⟩
  | ref r off => exact .inr ⟨by simp [AddKind.type], rfl⟩

/-- The tail of a `BUF` node was written, and the node took the first `m` bytes. -/
theorem nodeBytes_tail (hd : n.data = .buf) {bs : List UInt8} {m : Nat} (hm : m ≤ bs.length) :
    nodeBytes (h.setMem (write h.mem ⟨.node n.id, n.len⟩ bs)) { n with len := n.len + m } =
      nodeBytes h n ++ (bs.take m).map some := by
  have hhead : read (write h.mem ⟨.node n.id, n.len⟩ bs) ⟨.node n.id, 0⟩ n.len =
      read h.mem ⟨.node n.id, 0⟩ n.len :=
    read_write_of_disjoint _ _ _ _ _ (.inl (by simp))
  have htail : read (write h.mem ⟨.node n.id, n.len⟩ bs) ((⟨.node n.id, 0⟩ : Addr).add n.len) m =
      bs.take m := by
    rw [Ptr.add, Nat.zero_add]
    exact read_write_take _ _ _ hm
  rw [nodeBytes_eq, nodeBytes_eq]
  dsimp only [Heap.setMem]
  rw [hd]
  dsimp only
  rw [read_add, hhead, htail, List.map_append]

/-- The bytes of the node at the position after it took `m` bytes. -/
theorem nodeBytes_absorb {conf : Conf} (ha : k.absorbs conf n = true) (m : Nat) :
    ∃ xs, xs.length = m ∧
      nodeBytes (k.fill h ⟨.node n.id, n.len⟩ m) { n with len := n.len + m } =
        nodeBytes h n ++ xs ∧ (k.Joins n → xs = k.src h m) := by
  rcases k.fill_cases h ⟨.node n.id, n.len⟩ m with ⟨bs, hbs, hty, hsrc, e⟩ | ⟨hty, e⟩
  · have hd : n.data = .buf := by
      have := (AddKind.absorbs_type ha).1
      rw [hty] at this
      unfold Node.type at this
      split at this <;> first | assumption | cases this
    refine ⟨k.src h m, AddKind.length_src _ _ _, ?_, fun _ => rfl⟩
    rw [e, nodeBytes_tail hd (Nat.le_of_eq hbs.symm), List.take_of_length_le (Nat.le_of_eq hbs),
      hsrc]
  · rw [e, nodeBytes_eq, nodeBytes_eq]
    rcases AddKind.absorbs_cases ha with ⟨-, -, ⟨b, rfl⟩ | ⟨c, rfl⟩⟩ | ⟨hd, -, rfl⟩ |
      ⟨q, hd, -, rfl⟩ | ⟨r', off', hd, -, rfl⟩
    · exact absurd rfl hty
    · exact absurd rfl hty
    · refine ⟨List.replicate m none, List.length_replicate, ?_, fun _ => rfl⟩
      dsimp only
      rw [hd]
      dsimp only
      rw [List.replicate_append_replicate]
    · refine ⟨(read h.mem (q.add n.len) m).map some, by simp, ?_, fun _ => rfl⟩
      dsimp only
      rw [hd]
      dsimp only
      rw [read_add, List.map_append]
    · refine ⟨(read h.mem ((h.refs r').ptr.add (off' + n.len)) m).map some, by simp, ?_, ?_⟩
      · dsimp only
        rw [hd]
        dsimp only
        rw [read_add, List.map_append, Ptr.add_add]
      · exact fun hj => congrArg
          (fun off => (read h.mem ((h.refs r').ptr.add off) m).map some) (hj r' off' hd)

theorem set_of_eq (pre post : List Node) (n n' : Node) :
    (pre ++ n :: post).set pre.length n' = pre ++ n' :: post := by
  rw [List.set_append_right _ _ (Nat.le_refl _), Nat.sub_self]
  rfl

/-- Letting the node at the position take what fits keeps the structure. -/
theorem addAbsorb_spec {f : Found} (sd : Sound E P s) (hns : s.base.nodes = pre ++ n :: post)
    (hidx : f.idx = pre.length) (ha : k.absorbs s.conf n = true) (len : Nat) :
    ∃ s', addAbsorb k s f len = (min (k.max s.conf - n.len) len, s') ∧ Sound E P s' ∧
      Frame E P s.heap P s'.heap ∧
      s'.base.noVec = (absorbBase s.base pre n post (min (k.max s.conf - n.len) len)).noVec ∧
      s'.heap = k.fill s.heap ⟨.node n.id, n.len⟩ (min (k.max s.conf - n.len) len) := by
  have hnode : s.base.node f.idx = n := by
    rw [hidx]
    exact node_of_eq hns
  obtain ⟨hty, hlt⟩ := AddKind.absorbs_type ha
  have hmax := k.max_le sd
  have hmine : P (.node n.id) = .base E.me := sd.owned.nodes.own n (by rw [hns]; simp)
  generalize hm : min (k.max s.conf - n.len) len = m
  have hle : n.len + m ≤ k.max s.conf := by omega
  refine ⟨_, by unfold addAbsorb; dsimp only; rw [hnode, hm], ?_⟩
  have hbase : (cacheIovecAddNodeEnd { s.base with
      nodes := s.base.nodes.set f.idx { n with len := n.len + m }
      len := s.base.len + m } f.num m).noVec = (absorbBase s.base pre n post m).noVec := by
    rw [noVec_cacheIovecAddNodeEnd, hidx, hns, set_of_eq]
    rfl
  have hcore := core_of_noVec hbase
  have hconf : St.conf ⟨k.fill s.heap ⟨.node n.id, n.len⟩ m, cacheIovecAddNodeEnd { s.base with
      nodes := s.base.nodes.set f.idx { n with len := n.len + m }
      len := s.base.len + m } f.num m⟩ = s.conf := by
    unfold St.conf
    dsimp only
    rw [conf_of_core hcore]
    rcases k.fill_cases s.heap ⟨.node n.id, n.len⟩ m with ⟨bs, -, -, -, e⟩ | ⟨-, e⟩ <;>
      rw [e] <;> rfl
  refine ⟨⟨?_, ?_, ?_, ?_⟩, ?_, hbase, rfl⟩
  · have how : Owned E P s.heap (absorbBase s.base pre n post m).nodes := by
      apply sd.owned.of_same <;> rw [hns] <;> simp [absorbBase, Node.ref]
    dsimp only
    rw [nodes_of_core hcore]
    rcases k.fill_cases s.heap ⟨.node n.id, n.len⟩ m with ⟨bs, -, -, -, e⟩ | ⟨-, e⟩ <;> rw [e]
    · exact how.setMem _
    · exact how
  · rw [hconf]
    refine (valid_absorbBase sd.valid hns (by omega) fun hb => ?_).congr hcore
    rw [hty] at hb
    unfold AddKind.max at hle
    rw [hb] at hle
    exact hle
  · rw [hconf]; exact sd.bufSz_pos
  · rw [hconf]; exact sd.bufSz_le
  · rcases k.fill_cases s.heap ⟨.node n.id, n.len⟩ m with ⟨bs, -, -, -, e⟩ | ⟨-, e⟩
    · dsimp only
      rw [e]
      exact frame_setMem bs (not_foreign_of_base hmine)
    · dsimp only
      rw [e]
      exact Frame.refl E P s.heap

/-! ## Insertion behind a node -/

/-- The data goes in as it is meant to: a buffer is not what is being filled, and pointers
and references, which do not move on when the node at the position takes a part of them,
fit one node. -/
def AddKind.Meant (conf : Conf) (n : Node) (len : Nat) (k : AddKind) : Prop :=
  match k with
  | buf a => a.blk = .node n.id → a.off + len ≤ n.len
  | ptr _ => k.absorbs conf n = true → n.len + len ≤ maxNodeAll
  | ref _ off => off < 2 ^ 32 ∧ len ≤ maxNodeAll ∧
    (k.absorbs conf n = true → n.len + len ≤ maxNodeAll ∧ k.Joins n)
  | _ => True

/-- The offsets of a reference that is added do not wrap. -/
def AddKind.Fits (conf : Conf) (n : Node) (len : Nat) (k : AddKind) : Prop :=
  match k with
  | ref _ off => off + len ≤ 2 ^ 32 ∧ len ≤ maxNodeAll ∧ (k.absorbs conf n = true → k.Joins n)
  | _ => True

/-- What a base is after data was added, but for its nodes and vectors. -/
structure Grown (b b' : Base) (len : Nat) : Prop where
  /-- The length. -/
  len : b'.len = b.len + len
  /-- The configuration. -/
  conf : b'.conf = b.conf
  /-- The cache is there or not. -/
  cacheAvailable : b'.cacheAvailable = b.cacheAvailable
  /-- Whether user caches hold data. -/
  cacheInternal : b'.cacheInternal = b.cacheInternal
  /-- The C string cache, before the callback. -/
  cstr : b'.cstr = b.cstr
  /-- The user caches. -/
  userData : b'.userData = b.userData

/-- The state after data was inserted behind the node `n`. -/
structure Added (q : Prop) (E : Env) (P : Own) (s : St) (k : AddKind) (n : Node) (pos len : Nat)
    (P' : Own) (s' : St) : Prop where
  /-- The state is sound. -/
  sound : Sound E P' s'
  /-- Foreign blocks are left alone. -/
  frame : Frame E P s.heap P' s'.heap
  /-- Only spare blocks changed their place. -/
  grows : Grows P P'
  /-- The position cache is right. -/
  posOk : PosOk q s'.base
  /-- The callbacks were told. -/
  base : ∃ b', s'.base = cacheAdd b' pos len ∧ Grown s.base b' len
  /-- `PTR` nodes point where they did, or to what is added. -/
  ptrs : ∀ {Q : Blk → Prop}, PtrsIn Q s.base.nodes → (∀ a, k = .ptr a → Q a.blk) →
    PtrsIn Q s'.base.nodes
  /-- Offsets do not wrap. -/
  fits : Vstr.Fits s.base.nodes → k.Fits s.conf n len → Vstr.Fits s'.base.nodes
  /-- Bytes are in no spare block. -/
  firm : Firm P s.heap s.base.nodes → (∀ x, k.blk s.heap = some x → Solid P x) →
    Firm P' s'.heap s'.base.nodes
  /-- The content grew behind the position. -/
  content : Firm P s.heap s.base.nodes → (k.type = .buf → PtrSafe E P s.base.nodes) →
    ∃ xs, xs.length = len ∧ content s' = insertAfter (content s) pos xs ∧
      (k.Meant s.conf n len → (∀ x, k.blk s.heap = some x → Solid P x) → xs = k.src s.heap len)

/-- Inserting behind the nodes `pre ++ [n]`. -/
theorem content_insert {h h' : Heap} {b b' : Base} {n' : Node} {new : List Node}
    {xs ys : List (Option UInt8)} (hpos : lens pre + n.len = pos + b.used)
    (hns : b.nodes = pre ++ n :: post) (hns' : b'.nodes = pre ++ n' :: new ++ post)
    (hu : b'.used = b.used) (hpre : flat h' pre = flat h pre)
    (hn : nodeBytes h' n' = nodeBytes h n ++ xs) (hnew : flat h' new = ys)
    (hpost : flat h' post = flat h post) :
    content ⟨h', b'⟩ = insertAfter (content ⟨h, b⟩) pos (xs ++ ys) := by
  unfold content
  dsimp only
  have e : flat h b.nodes = (flat h pre ++ nodeBytes h n) ++ flat h post := by
    rw [hns, flat_append, flat_cons, List.append_assoc]
  have e' : flat h' b'.nodes = (flat h pre ++ nodeBytes h n) ++ (xs ++ ys) ++ flat h post := by
    rw [hns', flat_append, flat_append, flat_cons, hpre, hn, hnew, hpost]
    simp only [List.append_assoc]
  rw [e, e', hu]
  exact (insertAfter_drop (by simp [hpos])).symm

section Linked

variable {a b new : List Node} {origPos origLen : Nat} {s' : St}

theorem Linked.nodes (l : Linked q E P s k len origPos origLen a b P' s' new) :
    s'.base.nodes = a ++ new ++ b := by
  obtain ⟨b', e, hb⟩ := l.base
  rw [e, nodes_of_core (core_cacheAdd _ _ _)]
  exact (congrArg Base.nodes hb :)

theorem Linked.grown (l : Linked q E P s k len origPos origLen a b P' s' new) :
    ∃ b', s'.base = cacheAdd b' origPos origLen ∧ Grown s.base b' len := by
  obtain ⟨b', e, hb⟩ := l.base
  exact ⟨b', e, (congrArg Base.len hb :), (congrArg Base.conf hb :),
    (congrArg Base.cacheAvailable hb :), (congrArg Base.cacheInternal hb :),
    (congrArg Base.cstr hb :), (congrArg Base.userData hb :)⟩

theorem Linked.used (l : Linked q E P s k len origPos origLen a b P' s' new) :
    s'.base.used = s.base.used := by
  obtain ⟨b', e, hb⟩ := l.base
  rw [e, used_of_core (core_cacheAdd _ _ _)]
  exact (congrArg Base.used hb :)

theorem Linked.ptrs {Q : Blk → Prop} (l : Linked q E P s k len origPos origLen a b P' s' new)
    (ps : PtrsIn Q (a ++ b)) (hk : ∀ x, k = .ptr x → Q x.blk) : PtrsIn Q s'.base.nodes := by
  rw [l.nodes]
  rw [ptrsIn_append] at ps
  rw [ptrsIn_append, ptrsIn_append]
  refine ⟨⟨ps.1, ?_⟩, ps.2⟩
  intro m hm x hx
  obtain ⟨y, hy, e⟩ := l.chunks.ptr m hm x hx
  rw [e]
  exact hk y hy

theorem Linked.fits (l : Linked q E P s k len origPos origLen a b P' s' new)
    (hf : Fits (a ++ b)) (hk : ∀ r off, k = .ref r off → off + len ≤ 2 ^ 32 ∧ len ≤ maxNodeAll) :
    Fits s'.base.nodes := by
  rw [l.nodes]
  rw [fits_append] at hf
  rw [fits_append, fits_append]
  refine ⟨⟨hf.1, ?_⟩, hf.2⟩
  intro m hm r o ho
  obtain ⟨off, rfl, hoff⟩ := l.chunks.off m hm r o ho
  obtain ⟨hle, hmax⟩ := hk r off rfl
  obtain ⟨e, hlen⟩ := hoff hmax
  have := Nat.mod_le off (2 ^ 32)
  rw [e, hlen]
  unfold refOff
  omega

theorem Linked.firm (l : Linked q E P s k len origPos origLen a b P' s' new)
    (fm : Firm P s.heap (a ++ b)) (hk : ∀ x, k.blk s.heap = some x → Solid P x) :
    Firm P' s'.heap s'.base.nodes := by
  rw [l.nodes]
  rw [firm_append] at fm
  rw [firm_append, firm_append]
  refine ⟨⟨fm.1.quiet l.quiet l.grows, ?_⟩, fm.2.quiet l.quiet l.grows⟩
  intro m hm p hp
  have hty := l.chunks.type m hm
  unfold exportNodePtr at hp
  cases hd : m.data with
  | buf =>
    rw [hd] at hp
    simp only [Option.some.injEq] at hp
    rw [← hp]
    exact solid_of_base (l.mine m hm)
  | non =>
    rw [hd] at hp
    cases hp
  | ptr x =>
    rw [hd] at hp
    simp only [Option.some.injEq] at hp
    obtain ⟨y, rfl, e⟩ := l.chunks.ptr m hm x hd
    rw [← hp, e]
    exact l.grows.solid (hk _ rfl)
  | ref r o =>
    rw [hd] at hp
    simp only [Option.some.injEq] at hp
    obtain ⟨off, rfl, -⟩ := l.chunks.off m hm r o hd
    rw [← hp, Ptr.add_blk, l.quiet.refPtr]
    exact l.grows.solid (hk _ rfl)

end Linked

/-- A node of reference type that absorbs has the reference that is added. -/
theorem AddKind.absorbs_ref {conf : Conf} (ha : k.absorbs conf n = true) {r off : Nat}
    (hd : n.data = .ref r off) : ∃ off', k = .ref r off' := by
  rcases AddKind.absorbs_cases ha with ⟨e, -⟩ | ⟨e, -⟩ | ⟨q, e, -⟩ | ⟨r', off', e, -, rfl⟩
  all_goals
    rw [hd] at e
    cases e
  exact ⟨_, rfl⟩

/-- After the node at the position took a part, the offsets still fit. -/
theorem fits_absorb {conf : Conf} {m : Nat} (hf : Fits (pre ++ n :: post))
    (ha : k.absorbs conf n = true) (hm : m ≤ len) (hk : k.Fits conf n len) :
    Fits (pre ++ { n with len := n.len + m } :: post) := by
  simp only [fits_append, fits_cons] at hf ⊢
  refine ⟨hf.1, fun r off hr => ?_, hf.2.2⟩
  obtain ⟨off', rfl⟩ := AddKind.absorbs_ref ha hr
  have hj := hk.2.2 ha r off hr
  have := hk.1
  omega

/-- A part of the data of a kind that goes on where it stopped. -/
theorem AddKind.src_absorbed {m : Nat} (hm : m < len)
    (hk : ∀ a, k = .buf a → a.blk = .node n.id → a.off + len ≤ n.len)
    (hty : k.type = .buf ∨ k.type = .non) :
    k.src h m ++ (k.absorbed m).src (k.fill h ⟨.node n.id, n.len⟩ m) (len - m) = k.src h len := by
  have hlen : len = m + (len - m) := by omega
  cases k with
  | buf a =>
    have hr : read (copy h.mem ⟨.node n.id, n.len⟩ a m) (a.add m) (len - m) =
        read h.mem (a.add m) (len - m) := by
      by_cases e : a.blk = .node n.id
      · apply read_write_of_disjoint
        have := hk a rfl e
        simp only [Ptr.add_off]
        omega
      · exact read_write_of_ne _ _ _ e
    change (read h.mem a m).map some ++
      (read (copy h.mem ⟨.node n.id, n.len⟩ a m) (a.add m) (len - m)).map some = _
    rw [hr, ← List.map_append, ← read_add, ← hlen]
    rfl
  | repChr c =>
    change List.replicate m _ ++ List.replicate (len - m) _ = List.replicate len _
    rw [List.replicate_append_replicate, ← hlen]
  | non =>
    change List.replicate m _ ++ List.replicate (len - m) _ = List.replicate len _
    rw [List.replicate_append_replicate, ← hlen]
  | ptr a => simp [AddKind.type] at hty
  | ref r off => simp [AddKind.type] at hty

/-- The nodes around the one that takes a part keep their bytes. -/
theorem flat_absorb (ow : Owned E P h (pre ++ n :: post)) (m : Nat)
    (ps : k.type = .buf → PtrSafe E P (pre ++ n :: post)) :
    flat (k.fill h ⟨.node n.id, n.len⟩ m) pre = flat h pre ∧
      flat (k.fill h ⟨.node n.id, n.len⟩ m) post = flat h post := by
  rcases k.fill_cases h ⟨.node n.id, n.len⟩ m with ⟨bs, -, hty, -, e⟩ | ⟨-, e⟩
  · rw [e]
    exact ow.flat_write_around (ps hty) n.len bs
  · rw [e]
    exact ⟨rfl, rfl⟩

theorem fill_refs (h : Heap) (k : AddKind) (dst : Addr) (m : Nat) :
    (k.fill h dst m).refs = h.refs ∧ (k.fill h dst m).confs = h.confs := by
  cases k <;> exact ⟨rfl, rfl⟩

/-- The state after the node at the position took `m` bytes. -/
structure Absorbed (E : Env) (P : Own) (s : St) (k : AddKind) (pre : List Node) (n : Node)
    (post : List Node) (m : Nat) (s' : St) : Prop where
  /-- The state is sound. -/
  sound : Sound E P s'
  /-- Foreign blocks are left alone. -/
  frame : Frame E P s.heap P s'.heap
  /-- The node is longer. -/
  base : s'.base.noVec = (absorbBase s.base pre n post m).noVec
  /-- The bytes are written behind the ones of the node. -/
  heap : s'.heap = k.fill s.heap ⟨.node n.id, n.len⟩ m

section Absorbed

variable {m : Nat} {s₁ s' : St} {new : List Node}

/-- Vectors do not matter. -/
theorem Absorbed.kill (a : Absorbed E P s k pre n post m s₁) (idx : Nat) :
    Absorbed E P s k pre n post m { s₁ with base := addKillIovec s₁.base idx } where
  sound := a.sound.congr (core_of_noVec (noVec_addKillIovec s₁.base idx))
  frame := a.frame
  base := (noVec_addKillIovec s₁.base idx).trans a.base
  heap := a.heap

theorem Absorbed.nodes (a : Absorbed E P s k pre n post m s₁) :
    s₁.base.nodes = pre ++ { n with len := n.len + m } :: post := (congrArg Base.nodes a.base :)

theorem Absorbed.used (a : Absorbed E P s k pre n post m s₁) : s₁.base.used = s.base.used :=
  (congrArg Base.used a.base :)

theorem Absorbed.refs (a : Absorbed E P s k pre n post m s₁) : s₁.heap.refs = s.heap.refs := by
  rw [a.heap, (fill_refs s.heap k _ _).1]

theorem Absorbed.conf_eq (a : Absorbed E P s k pre n post m s₁) : s₁.conf = s.conf := by
  have hc : s₁.base.conf = s.base.conf := (congrArg Base.conf a.base :)
  unfold St.conf
  rw [hc, a.heap, (fill_refs s.heap k _ _).2]

theorem Absorbed.grown (a : Absorbed E P s k pre n post m s₁) : Grown s.base s₁.base m :=
  ⟨(congrArg Base.len a.base :), (congrArg Base.conf a.base :),
    (congrArg Base.cacheAvailable a.base :), (congrArg Base.cacheInternal a.base :),
    (congrArg Base.cstr a.base :), (congrArg Base.userData a.base :)⟩

/-- The position cache is right for what is in front. -/
theorem Absorbed.posUpTo (a : Absorbed E P s k pre n post m s₁)
    (hns : s.base.nodes = pre ++ n :: post) (hpos : lens pre + n.len = pos + s.base.used)
    (pk : PosUpTo q (pos + s.base.used) s.base) : PosUpTo q (pos + s₁.base.used) s₁.base := by
  rw [a.used]
  refine pk.edit (congrArg Base.posData a.base :) a.used (congrArg Base.cacheAvailable a.base :) ?_
  rw [hns, a.nodes]
  exact keepsTo_edit pre post post rfl (Nat.le_of_eq hpos.symm)

theorem Absorbed.ptrs (a : Absorbed E P s k pre n post m s₁) {Q : Blk → Prop}
    (hns : s.base.nodes = pre ++ n :: post) (ps : PtrsIn Q s.base.nodes) :
    PtrsIn Q s₁.base.nodes := by
  rw [hns] at ps
  rw [a.nodes]
  simp only [ptrsIn_append, ptrsIn_cons] at ps ⊢
  exact ps

theorem Absorbed.firm (a : Absorbed E P s k pre n post m s₁)
    (hns : s.base.nodes = pre ++ n :: post) (fm : Firm P s.heap s.base.nodes) :
    Firm P s₁.heap s₁.base.nodes := by
  have hptr : ∀ x, exportNodePtr s₁.heap x = exportNodePtr s.heap x := by
    intro x
    unfold exportNodePtr
    rw [a.refs]
  rw [hns] at fm
  have fm₁ : Firm P s₁.heap (pre ++ n :: post) :=
    fun x hx p hp => fm x hx p (by rwa [hptr] at hp)
  rw [a.nodes]
  simp only [firm_append, firm_cons] at fm₁ ⊢
  exact fm₁

theorem Absorbed.fits (a : Absorbed E P s k pre n post m s₁)
    (hns : s.base.nodes = pre ++ n :: post) {conf : Conf} (ha : k.absorbs conf n = true)
    (hm : m ≤ len) (hf : Fits s.base.nodes) (hk : k.Fits conf n len) : Fits s₁.base.nodes := by
  rw [hns] at hf
  rw [a.nodes]
  exact fits_absorb hf ha hm hk

/-- The bytes that are taken, and the ones around them. -/
theorem Absorbed.bytes (a : Absorbed E P s k pre n post m s₁) (sd : Sound E P s)
    (hns : s.base.nodes = pre ++ n :: post) {conf : Conf} (ha : k.absorbs conf n = true)
    (ps : k.type = .buf → PtrSafe E P s.base.nodes) :
    ∃ xs, xs.length = m ∧
      nodeBytes s₁.heap { n with len := n.len + m } = nodeBytes s.heap n ++ xs ∧
      flat s₁.heap pre = flat s.heap pre ∧ flat s₁.heap post = flat s.heap post ∧
      (k.Joins n → xs = k.src s.heap m) := by
  have how := sd.owned
  rw [hns] at how ps
  obtain ⟨xs, hxs, hbytes, hmeant⟩ := nodeBytes_absorb (h := s.heap) ha m
  obtain ⟨hpre, hpost⟩ := flat_absorb how m ps
  rw [← a.heap] at hbytes hpre hpost
  exact ⟨xs, hxs, hbytes, hpre, hpost, hmeant⟩

/-- The node at the position takes everything. -/
theorem added_absorb {f : Found} (sd : Sound E P s) (hat : At s.base pos f pre n post)
    (hfull : f.pos = n.len) (pk : PosUpTo q (pos + s.base.used) s.base)
    (ha : k.absorbs s.conf n = true) (hall : min (k.max s.conf - n.len) len = len) :
    Added q E P s k n pos len P { (addAbsorb k s f len).2 with
      base := cacheAdd (addAbsorb k s f len).2.base pos len } := by
  have hns := hat.nodes
  have hpos : lens pre + n.len = pos + s.base.used := by rw [← hfull]; exact hat.pos
  obtain ⟨s₁, e, sd₁, fr₁, hb₁, hh₁⟩ := addAbsorb_spec sd hns hat.idx ha len
  rw [hall] at hb₁ hh₁
  rw [e]
  have a : Absorbed E P s k pre n post len s₁ := ⟨sd₁, fr₁, hb₁, hh₁⟩
  have hcore := core_cacheAdd s₁.base pos len
  have hnodes := nodes_of_core hcore
  refine ⟨sd₁.congr hcore, fr₁, fun _ _ => rfl, (a.posUpTo hns hpos pk).cacheAdd len,
    ⟨s₁.base, rfl, a.grown⟩, ?_, ?_, ?_, ?_⟩
  · intro Q ps _
    dsimp only
    rw [hnodes]
    exact a.ptrs hns ps
  · intro hf hk
    dsimp only
    rw [hnodes]
    exact a.fits hns ha (Nat.le_refl len) hf hk
  · intro fm _
    dsimp only
    rw [hnodes]
    exact a.firm hns fm
  · intro fm ps
    obtain ⟨xs, hxs, hbytes, hpre, hpost, hmeant⟩ := a.bytes sd hns ha ps
    refine ⟨xs, hxs, ?_, ?_⟩
    · have hnodes' : (cacheAdd s₁.base pos len).nodes =
          pre ++ { n with len := n.len + len } :: [] ++ post := by
        rw [hnodes, a.nodes]; simp
      have hc := content_insert hpos hns hnodes' ((used_of_core hcore).trans a.used) hpre hbytes
        (flat_nil _) hpost
      rwa [List.append_nil] at hc
    · intro hk _
      apply hmeant
      cases k with
      | ref r off => exact (hk.2.2 ha).2
      | _ => trivial

end Absorbed

/-- Nodes linked in behind `n` leave what starts there or earlier. -/
theorem keepsTo_link (hpos : lens pre + n.len = pos + len) (new : List Node) :
    KeepsTo (pos + len) ((pre ++ [n]) ++ post) ((pre ++ [n]) ++ new ++ post) := by
  have hid : n.id = n.id := rfl
  have h := keepsTo_edit pre post (new ++ post) hid (Nat.le_of_eq hpos.symm)
  simpa using h

/-- What is added goes into new nodes behind `n`. -/
theorem added_link {f : Found} (sd : Sound E P s) (hat : At s.base pos f pre n post)
    (hfull : f.pos = n.len) (pk : PosUpTo q (pos + s.base.used) s.base) (hlen : 0 < len)
    (hsp : allocNum len (k.max s.conf) ≤ (s.conf.spare k.type).length)
    (hlive : ∀ r, k.held = some r → 0 < (s.heap.refs r).ref) :
    ∃ P', Added q E P s k n pos len P'
      (addLink k { s with base := addKillIovec s.base f.idx } (f.idx + 1) true len pos len) := by
  have hns : s.base.nodes = (pre ++ [n]) ++ post := by
    rw [hat.nodes, List.append_assoc, List.singleton_append]
  have hpos : lens pre + n.len = pos + s.base.used := by rw [← hfull]; exact hat.pos
  have hb₁ := noVec_addKillIovec s.base f.idx
  have sd₁ : Sound E P { s with base := addKillIovec s.base f.idx } :=
    sd.congr (core_of_noVec hb₁)
  have hused₁ : (addKillIovec s.base f.idx).used = s.base.used := (congrArg Base.used hb₁ :)
  have hconf₁ : (addKillIovec s.base f.idx).conf = s.base.conf := (congrArg Base.conf hb₁ :)
  have hns₁ : (addKillIovec s.base f.idx).nodes = (pre ++ [n]) ++ post :=
    (congrArg Base.nodes hb₁ :).trans hns
  have hc₁ : St.conf { s with base := addKillIovec s.base f.idx } = s.conf := by
    unfold St.conf
    dsimp only
    rw [hconf₁]
  have hidx : f.idx + 1 = (pre ++ [n]).length := by rw [hat.idx]; simp
  rw [hidx]
  obtain ⟨P', new, l⟩ := addLink_spec (q := q) (k := k) pos sd₁ hns₁ (by simp) hlen
    (by rw [hc₁]; exact hsp) hlive (by
      dsimp only
      rw [hused₁]
      exact pk.of_noVec hb₁) (by
      dsimp only
      rw [hused₁]
      exact keepsTo_link hpos) true len
  generalize addLink k { s with base := addKillIovec s.base f.idx } (pre ++ [n]).length true len
    pos len = s' at l ⊢
  refine ⟨P', ⟨l.sound, l.frame, l.grows, l.posOk, ?_, ?_, ?_, ?_, ?_⟩⟩
  · obtain ⟨b', e, hg⟩ := l.grown
    exact ⟨b', e, hg.len.trans (congrArg (· + len) (congrArg Base.len hb₁ :)),
      hg.conf.trans hconf₁,
      hg.cacheAvailable.trans (congrArg Base.cacheAvailable hb₁ :),
      hg.cacheInternal.trans (congrArg Base.cacheInternal hb₁ :),
      hg.cstr.trans (congrArg Base.cstr hb₁ :), hg.userData.trans (congrArg Base.userData hb₁ :)⟩
  · intro Q ps hk
    rw [hns] at ps
    exact l.ptrs ps hk
  · intro hf hk
    rw [hns] at hf
    apply l.fits hf
    rintro r off rfl
    exact ⟨hk.1, hk.2.1⟩
  · intro fm hk
    rw [hns] at fm
    exact l.firm fm hk
  · intro fm _
    rw [hns] at fm
    obtain ⟨⟨hfpre, hfn⟩, hfpost⟩ := by
      rw [firm_append, firm_append] at fm
      exact fm
    refine ⟨flat s'.heap new, ?_, ?_, ?_⟩
    · rw [length_flat, l.chunks.lens]
    · have hnb := l.quiet.nodeBytes (hfn n (List.mem_singleton_self n))
      have hnodes' : s'.base.nodes = pre ++ n :: new ++ post := by rw [l.nodes]; simp
      have hnb' : nodeBytes s'.heap n = nodeBytes s.heap n ++ [] := by
        rw [List.append_nil]; exact hnb
      have hc := content_insert hpos hat.nodes hnodes' (l.used.trans hused₁)
        (l.quiet.flat hfpre) hnb' rfl (l.quiet.flat hfpost)
      rwa [List.nil_append] at hc
    · intro hk hx
      apply l.bytes _ hx
      cases k with
      | ref r off => exact ⟨hk.2.1, hk.1⟩
      | _ => trivial

section AbsorbedLink

variable {m : Nat} {s₂ s' : St} {new : List Node}

/-- What is meant and does not fit the node is no pointer and no reference. -/
theorem AddKind.type_of_part {conf : Conf} (ha : k.absorbs conf n = true)
    (hpart : k.max conf - n.len < len) (hk : k.Meant conf n len) :
    k.type = .buf ∨ k.type = .non := by
  cases k with
  | buf a => exact .inl rfl
  | repChr c => exact .inl rfl
  | non => exact .inr rfl
  | ptr a =>
    have := hk ha
    simp only [AddKind.max, AddKind.type] at hpart
    omega
  | ref r off =>
    have := (hk.2.2 ha).1
    simp only [AddKind.max, AddKind.type] at hpart
    omega

/-- The rest is in the block that the whole is in. -/
theorem Absorbed.blk (a : Absorbed E P s k pre n post m s₂) {x : Blk}
    (hx : (k.absorbed m).blk s₂.heap = some x) : k.blk s.heap = some x := by
  cases k with
  | ref r off =>
    unfold AddKind.blk
    rw [← a.refs]
    exact hx
  | _ => exact hx

/-- The nodes for the rest are linked in. -/
theorem Absorbed.link (a : Absorbed E P s k pre n post m s₂)
    (hns : s.base.nodes = pre ++ n :: post) (hpos : lens pre + n.len = pos + s.base.used)
    (pk : PosUpTo q (pos + s.base.used) s.base)
    (hsp : allocNum len (k.max s.conf) ≤ (s.conf.spare k.type).length)
    (hlive : ∀ r, k.held = some r → 0 < (s.heap.refs r).ref) (hpart : m < len) :
    ∃ P' new, Linked q E P s₂ (k.absorbed m) (len - m) pos len
      (pre ++ [{ n with len := n.len + m }]) post P'
      (addLink (k.absorbed m) s₂ (pre ++ [{ n with len := n.len + m }]).length true (len - m)
        pos len) new := by
  have hns₂ : s₂.base.nodes = (pre ++ [{ n with len := n.len + m }]) ++ post := by
    rw [a.nodes, List.append_assoc, List.singleton_append]
  have hmax : (k.absorbed m).max s.conf = k.max s.conf := AddKind.max_eq s.conf (by simp)
  refine addLink_spec pos a.sound hns₂ (by simp) (by omega) ?_ ?_ (a.posUpTo hns hpos pk) ?_ true
    len
  · rw [a.conf_eq, hmax, AddKind.type_absorbed]
    exact Nat.le_trans (allocNum_mono _ (Nat.sub_le len m)) hsp
  · intro r hr
    rw [AddKind.held_absorbed] at hr
    rw [a.refs]
    exact hlive r hr
  · intro new
    rw [a.used]
    have hid : ({ n with len := n.len + m } : Node).id = n.id := rfl
    have hle : pos + s.base.used ≤ lens pre + (n.len + m) := by omega
    have h : KeepsTo (pos + s.base.used) (pre ++ { n with len := n.len + m } :: post)
        (pre ++ { n with len := n.len + m } :: (new ++ post)) :=
      keepsTo_edit pre post (new ++ post) hid hle
    simpa using h

/-- The content after a part went into the node and the rest behind it. -/
theorem Absorbed.content (a : Absorbed E P s k pre n post m s₂) (sd : Sound E P s)
    (hns : s.base.nodes = pre ++ n :: post) (hpos : lens pre + n.len = pos + s.base.used)
    (ha : k.absorbs s.conf n = true) (hm : min (k.max s.conf - n.len) len = m) (hpart : m < len)
    (l : Linked q E P s₂ (k.absorbed m) (len - m) pos len (pre ++ [{ n with len := n.len + m }])
      post P' s' new)
    (fm : Firm P s.heap s.base.nodes) (ps : k.type = .buf → PtrSafe E P s.base.nodes) :
    ∃ xs, xs.length = len ∧ content s' = insertAfter (content s) pos xs ∧
      (k.Meant s.conf n len → (∀ x, k.blk s.heap = some x → Solid P x) →
        xs = k.src s.heap len) := by
  obtain ⟨xs, hxs, hbytes, hpre, hpost, hmeant⟩ := a.bytes sd hns ha ps
  have fm₂ := a.firm hns fm
  rw [a.nodes, firm_append, firm_cons] at fm₂
  obtain ⟨hfpre, hfn, hfpost⟩ := fm₂
  refine ⟨xs ++ flat s'.heap new, ?_, ?_, ?_⟩
  · rw [List.length_append, hxs, length_flat, l.chunks.lens]
    omega
  · have hnodes' : s'.base.nodes = pre ++ { n with len := n.len + m } :: new ++ post := by
      rw [l.nodes]; simp
    exact content_insert hpos hns hnodes' (l.used.trans a.used)
      ((l.quiet.flat hfpre).trans hpre) ((l.quiet.nodeBytes hfn).trans hbytes) rfl
      ((l.quiet.flat hfpost).trans hpost)
  · intro hk hx
    have hty := AddKind.type_of_part ha (by omega) hk
    rw [hmeant (by cases k <;> first | trivial | simp [AddKind.type] at hty),
      l.bytes (by cases k <;> first | trivial | simp [AddKind.type] at hty)
        fun x hx' => hx x (a.blk hx'), a.heap]
    apply AddKind.src_absorbed hpart _ hty
    rintro b rfl
    exact hk

/-- A part in the node and the rest behind it. -/
theorem Absorbed.added (a : Absorbed E P s k pre n post m s₂) (sd : Sound E P s)
    (hns : s.base.nodes = pre ++ n :: post) (hpos : lens pre + n.len = pos + s.base.used)
    (ha : k.absorbs s.conf n = true) (hm : min (k.max s.conf - n.len) len = m) (hpart : m < len)
    (l : Linked q E P s₂ (k.absorbed m) (len - m) pos len (pre ++ [{ n with len := n.len + m }])
      post P' s' new) : Added q E P s k n pos len P' s' := by
  have hn₂ : (pre ++ [{ n with len := n.len + m }]) ++ post = s₂.base.nodes := by
    rw [a.nodes, List.append_assoc, List.singleton_append]
  refine ⟨l.sound, a.frame.trans l.frame, l.grows, l.posOk, ?_, ?_, ?_, ?_,
    a.content sd hns hpos ha hm hpart l⟩
  · obtain ⟨b', e', hg⟩ := l.grown
    have h := a.grown
    refine ⟨b', e', ?_, hg.conf.trans h.conf, hg.cacheAvailable.trans h.cacheAvailable,
      hg.cacheInternal.trans h.cacheInternal, hg.cstr.trans h.cstr,
      hg.userData.trans h.userData⟩
    rw [hg.len, h.len]
    omega
  · intro Q ps hk
    refine l.ptrs (hn₂ ▸ a.ptrs hns ps) fun x hx => ?_
    cases k with
    | ptr y =>
      cases hx
      exact hk _ rfl
    | _ => cases hx
  · intro hf hk
    refine l.fits (hn₂ ▸ a.fits hns ha (Nat.le_of_lt hpart) hf hk) fun r off hr => ?_
    cases k with
    | ref r' off' =>
      cases hr
      have h1 := hk.1
      have h2 := hk.2.1
      exact ⟨by omega, by omega⟩
    | _ => cases hr
  · intro fm hk
    exact l.firm (hn₂ ▸ a.firm hns fm) fun x hx => hk x (a.blk hx)

/-- The node at the position takes a part, new nodes the rest. -/
theorem added_absorb_link {f : Found} (sd : Sound E P s) (hat : At s.base pos f pre n post)
    (hfull : f.pos = n.len) (pk : PosUpTo q (pos + s.base.used) s.base)
    (hsp : allocNum len (k.max s.conf) ≤ (s.conf.spare k.type).length)
    (hlive : ∀ r, k.held = some r → 0 < (s.heap.refs r).ref)
    (ha : k.absorbs s.conf n = true) (hpart : min (k.max s.conf - n.len) len < len) :
    ∃ P', Added q E P s k n pos len P'
      (addLink (k.absorbed (addAbsorb k s f len).1) { (addAbsorb k s f len).2 with
        base := addKillIovec (addAbsorb k s f len).2.base f.idx } (f.idx + 1) true
        (len - (addAbsorb k s f len).1) pos len) := by
  have hns := hat.nodes
  have hpos : lens pre + n.len = pos + s.base.used := by rw [← hfull]; exact hat.pos
  obtain ⟨s₁, e, sd₁, fr₁, hb₁, hh₁⟩ := addAbsorb_spec sd hns hat.idx ha len
  generalize hm : min (k.max s.conf - n.len) len = m at hpart hb₁ hh₁ e
  rw [e]
  have a := (⟨sd₁, fr₁, hb₁, hh₁⟩ : Absorbed E P s k pre n post m s₁).kill f.idx
  obtain ⟨P', new, l⟩ := a.link hns hpos pk hsp hlive hpart
  have hidx : f.idx + 1 = (pre ++ [({ n with len := n.len + m } : Node)]).length := by
    rw [hat.idx]; simp
  rw [hidx]
  exact ⟨P', a.added sd hns hpos ha hm hpart l⟩

end AbsorbedLink

/-! ## Insertion after a position -/

theorem AddKind.absorbs_congr {conf conf' : Conf} (hb : conf'.bufSz = conf.bufSz) (k : AddKind)
    (n : Node) : k.absorbs conf' n = k.absorbs conf n := by
  unfold AddKind.absorbs
  rw [hb]

theorem AddKind.fits_congr {conf conf' : Conf} (hb : conf'.bufSz = conf.bufSz) :
    k.Fits conf' n len ↔ k.Fits conf n len := by
  unfold AddKind.Fits
  cases k with
  | ref r off =>
    dsimp only
    rw [AddKind.absorbs_congr hb]
  | _ => rfl

theorem AddKind.meant_congr {conf conf' : Conf} (hb : conf'.bufSz = conf.bufSz) :
    k.Meant conf' n len ↔ k.Meant conf n len := by
  unfold AddKind.Meant
  cases k with
  | ref r off =>
    dsimp only
    rw [AddKind.absorbs_congr hb]
  | ptr a =>
    dsimp only
    rw [AddKind.absorbs_congr hb]
  | _ => rfl

theorem Makes.src {h' : Heap} (m : Makes E P h P' h') (k : AddKind) (len : Nat) :
    k.src h' len = k.src h len := by
  unfold AddKind.src
  rw [m.mem, m.refs]

theorem Makes.blk {h' : Heap} (m : Makes E P h P' h') (k : AddKind) : k.blk h' = k.blk h := by
  unfold AddKind.blk
  rw [m.refs]

/-- Making spare nodes first makes no difference. -/
theorem Added.of_makes {P₁ : Own} {h₁ : Heap} {s' : St} (m : Makes E P s.heap P₁ h₁)
    (ad : Added q E P₁ { s with heap := h₁ } k n pos len P' s') :
    Added q E P s k n pos len P' s' := by
  have hb : (St.conf { s with heap := h₁ }).bufSz = s.conf.bufSz := m.frame.bufSz _
  have hsolid : (∀ x, k.blk s.heap = some x → Solid P x) →
      ∀ x, k.blk h₁ = some x → Solid P₁ x := by
    intro hx x hx'
    rw [m.blk] at hx'
    exact m.grows.solid (hx x hx')
  refine ⟨ad.sound, m.frame.trans ad.frame, m.grows.trans ad.grows, ad.posOk, ad.base, ?_, ?_, ?_,
    ?_⟩
  · intro Q ps hk
    exact ad.ptrs ps hk
  · intro hf hk
    exact ad.fits hf ((AddKind.fits_congr hb).mpr hk)
  · intro fm hk
    exact ad.firm (fm.quiet m.quiet m.grows) (hsolid hk)
  · intro fm ps
    obtain ⟨xs, hxs, hc, hm⟩ := ad.content (fm.quiet m.quiet m.grows) fun hty =>
      (ps hty).frame m.frame
    refine ⟨xs, hxs, ?_, fun hk hx => ?_⟩
    · rw [hc]
      unfold Vstr.content
      dsimp only
      rw [m.quiet.flat fm]
    · rw [hm ((AddKind.meant_congr hb).mpr hk) (hsolid hx)]
      exact m.src k len

theorem uintSub_of_le {a b : Nat} (h : b ≤ a) : uintSub a b = a - b := if_pos h

theorem sizeSub_of_le {a b : Nat} (h : b ≤ a) : sizeSub a b = a - b := if_pos h

/-- The add functions once the position is the end of a node: no node could be had, or the
data is in. -/
theorem addAt_spec {f : Found} (sd : Sound E P s) (hat : At s.base pos f pre n post)
    (hfull : f.pos = n.len) (pk : PosUpTo q (pos + s.base.used) s.base) (hlen : 0 < len)
    (hlive : ∀ r, k.held = some r → 0 < (s.heap.refs r).ref) :
    ∃ P' s', (addAt k s f pos len = (false, s') ∧ Makes E P s.heap P' s'.heap ∧
        s'.base = s.base) ∨
      (addAt k s f pos len = (true, s') ∧ Added q E P s k n pos len P' s') := by
  have hnode : s.base.node f.idx = n := by
    rw [hat.idx]
    exact node_of_eq hat.nodes
  have hn : n ∈ s.base.nodes := by rw [hat.nodes]; simp
  unfold addAt
  dsimp only
  rw [hnode]
  split
  · rename_i h' hif
    split at hif
    · cases hif
    · obtain ⟨P', mk, -⟩ := makes_rangeSpare (E := E) sd.owned.heap s.base.conf k.type
        (allocNum len (k.max s.conf))
      rw [hif] at mk
      exact ⟨P', _, .inl ⟨rfl, mk, rfl⟩⟩
  · rename_i h' hif
    by_cases hfits : k.type = .buf ∧ n.type = .buf ∧ len ≤ uintSub s.conf.bufSz n.len
    · rw [if_pos hfits] at hif
      obtain rfl : s.heap = h' := (Prod.mk.inj hif).2
      obtain ⟨hk, hnt, hle⟩ := hfits
      have hnle := sd.valid.buf n hn hnt
      rw [uintSub_of_le hnle] at hle
      have hmax : k.max s.conf = s.conf.bufSz := by
        unfold AddKind.max
        rw [hk]
      have hd : n.data = .buf := by
        unfold Node.type at hnt
        split at hnt <;> first | assumption | cases hnt
      have ha : k.absorbs s.conf n = true := by
        unfold AddKind.absorbs
        rw [hd]
        cases k with
        | buf a => simp only [decide_eq_true_eq]; omega
        | repChr c => simp only [decide_eq_true_eq]; omega
        | _ => simp [AddKind.type] at hk
      have hall : min (k.max s.conf - n.len) len = len := by
        rw [hmax]
        exact Nat.min_eq_right hle
      have hfst : (addAbsorb k s f len).1 = len := by
        obtain ⟨s₁, e, -⟩ := addAbsorb_spec sd hat.nodes hat.idx ha len
        rw [e, hall]
      rw [if_pos ha, if_pos (by rw [hfst]; omega)]
      exact ⟨P, _, .inr ⟨rfl, added_absorb sd hat hfull pk ha hall⟩⟩
    · rw [if_neg hfits] at hif
      obtain ⟨P₁, mk, hsp⟩ := makes_rangeSpare (E := E) sd.owned.heap s.base.conf k.type
        (allocNum len (k.max s.conf))
      rw [hif] at mk hsp
      have hb : (St.conf { s with heap := h' }).bufSz = s.conf.bufSz := mk.frame.bufSz _
      have sd₁ : Sound E P₁ { s with heap := h' } :=
        ⟨sd.owned.makes mk, by rw [hb]; exact sd.valid, by rw [hb]; exact sd.bufSz_pos,
          by rw [hb]; exact sd.bufSz_le⟩
      have hmax : k.max (St.conf { s with heap := h' }) = k.max s.conf := by
        unfold AddKind.max
        rw [hb]
      have hsp₁ : allocNum len (k.max (St.conf { s with heap := h' })) ≤
          ((St.conf { s with heap := h' }).spare k.type).length := by
        rw [hmax]
        exact hsp rfl
      have hlive₁ : ∀ r, k.held = some r → 0 < (h'.refs r).ref := by
        intro r hr
        have := hlive r hr
        rwa [mk.refs]
      by_cases ha : k.absorbs (St.conf { s with heap := h' }) n = true
      · rw [if_pos ha]
        obtain ⟨s₁, e, -⟩ := addAbsorb_spec sd₁ hat.nodes hat.idx ha len
        by_cases hall : min (k.max (St.conf { s with heap := h' }) - n.len) len = len
        · rw [if_pos (by rw [e]; dsimp only; omega)]
          exact ⟨P₁, _, .inr ⟨rfl, (added_absorb sd₁ hat hfull pk ha hall).of_makes mk⟩⟩
        · rw [if_neg (by rw [e]; dsimp only; omega)]
          obtain ⟨P', ad⟩ := added_absorb_link (q := q) sd₁ hat hfull pk hsp₁ hlive₁ ha (by omega)
          exact ⟨P', _, .inr ⟨rfl, ad.of_makes mk⟩⟩
      · rw [if_neg ha]
        obtain ⟨P', ad⟩ := added_link (q := q) sd₁ hat hfull pk hlen hsp₁ hlive₁
        exact ⟨P', _, .inr ⟨rfl, ad.of_makes mk⟩⟩

/-- The state after an operation that failed: the content is as it was. -/
structure Stayed (E : Env) (P : Own) (s : St) (P' : Own) (s' : St) : Prop where
  /-- The state is sound. -/
  sound : Sound E P' s'
  /-- Foreign blocks are left alone. -/
  frame : Frame E P s.heap P' s'.heap
  /-- Nodes still start where the position cache says. -/
  posOk : PosOk False s'.base
  /-- Length, configuration and caches are as they were. -/
  grown : Grown s.base s'.base 0
  /-- `PTR` nodes point where they did, or to what is added. -/
  ptrs : ∀ {Q : Blk → Prop}, PtrsIn Q s.base.nodes → PtrsIn Q s'.base.nodes
  /-- Offsets do not wrap. -/
  fits : Fits s.base.nodes → Fits s'.base.nodes
  /-- The content is the same. -/
  content : PtrSafe E P s.base.nodes → Fits s.base.nodes → content s' = content s

theorem Grown.refl (b : Base) : Grown b b 0 := ⟨rfl, rfl, rfl, rfl, rfl, rfl⟩

theorem Grown.trans {b b' b'' : Base} {m : Nat} (f : Grown b b' len) (g : Grown b' b'' m) :
    Grown b b'' (len + m) where
  len := by rw [g.len, f.len, Nat.add_assoc]
  conf := g.conf.trans f.conf
  cacheAvailable := g.cacheAvailable.trans f.cacheAvailable
  cacheInternal := g.cacheInternal.trans f.cacheInternal
  cstr := g.cstr.trans f.cstr
  userData := g.userData.trans f.userData

theorem SetUp.grown {s' : St} {f : Found} (su : SetUp q E P s pos P' s' f pre n post) :
    Grown s.base s'.base 0 := by
  obtain ⟨d, -, e | ⟨n₀, beg, post₀, -, -, -, -, -, e⟩⟩ := su.base
  · rw [e]; exact ⟨rfl, rfl, rfl, rfl, rfl, rfl⟩
  · rw [e]; exact ⟨rfl, rfl, rfl, rfl, rfl, rfl⟩

/-- Making spare nodes for nothing. -/
theorem Sound.makes {h₁ : Heap} (sd : Sound E P s) (m : Makes E P s.heap P' h₁) :
    Sound E P' { s with heap := h₁ } := by
  have hb : (St.conf { s with heap := h₁ }).bufSz = s.conf.bufSz := m.frame.bufSz _
  exact ⟨sd.owned.makes m, by rw [hb]; exact sd.valid, by rw [hb]; exact sd.bufSz_pos,
    by rw [hb]; exact sd.bufSz_le⟩

/-- The data goes in as it is meant to, in front of a base: it is not in a buffer that is
squeezed. -/
def AddKind.MeantFront (s : St) (len : Nat) (k : AddKind) : Prop :=
  match k with
  | buf a => s.base.used ≠ 0 → a.blk ≠ .node (s.base.node 0).id
  | ptr a => s.base.used ≠ 0 → a.blk ≠ .node (s.base.node 0).id
  | ref _ off => off < 2 ^ 32 ∧ len ≤ maxNodeAll
  | _ => True

/-- The data goes in as it is meant to, at this place of this base. -/
def AddKind.MeantAt (s : St) (pos len : Nat) (k : AddKind) : Prop :=
  if pos = 0 then k.MeantFront s len else k.Meant s.conf (s.upTo pos) len

/-- The offsets of a reference that is added do not wrap, at this place of this base. -/
def AddKind.FitsAt (s : St) (pos len : Nat) (k : AddKind) : Prop :=
  if pos = 0 then ∀ r off, k = .ref r off → off + len ≤ 2 ^ 32 ∧ len ≤ maxNodeAll
  else k.Fits s.conf (s.upTo pos) len

/-- The state after an insertion. -/
structure Inserted (q : Prop) (E : Env) (P : Own) (s : St) (k : AddKind) (pos len : Nat)
    (P' : Own) (s' : St) : Prop where
  /-- The state is sound. -/
  sound : Sound E P' s'
  /-- Foreign blocks are left alone. -/
  frame : Frame E P s.heap P' s'.heap
  /-- The position cache is right. -/
  posOk : PosOk q s'.base
  /-- The callbacks were told, unless the data was appended. -/
  base : ∃ b', Grown s.base b' len ∧
    (s'.base = cacheAdd b' pos len ∨ (s'.base = b' ∧ pos = s.base.len))
  /-- `PTR` nodes point where they did, or to what is added. -/
  ptrs : ∀ {Q : Blk → Prop}, PtrsIn Q s.base.nodes → (∀ a, k = .ptr a → Q a.blk) →
    PtrsIn Q s'.base.nodes
  /-- Offsets do not wrap. -/
  fits : Vstr.Fits s.base.nodes → k.FitsAt s pos len → Vstr.Fits s'.base.nodes
  /-- The content grew behind the position. -/
  content : PtrSafe E P s.base.nodes → (pos ≠ 0 → s.CutFits pos) →
    ∃ xs, xs.length = len ∧ content s' = insertAfter (content s) pos xs ∧
      (k.MeantAt s pos len → (∀ x, k.blk s.heap = some x → Solid P x) → xs = k.src s.heap len)

theorem Quiet.blk {h' : Heap} (f : Quiet P h h') (k : AddKind) : k.blk h' = k.blk h := by
  cases k with
  | ref r off =>
    simp only [AddKind.blk, f.refPtr]
  | _ => rfl

/-- Data outside of spare and fresh blocks stays what it is. -/
theorem Quiet.src {h' : Heap} (f : Quiet P h h') (hk : ∀ x, k.blk h = some x → Solid P x)
    (len : Nat) : k.src h' len = k.src h len := by
  cases k with
  | buf a =>
    have hr : read h'.mem a len = read h.mem a len :=
      read_congr fun i _ => by rw [f.mem a.blk (hk _ rfl)]
    simp only [AddKind.src, hr]
  | ptr a =>
    have hr : read h'.mem a len = read h.mem a len :=
      read_congr fun i _ => by rw [f.mem a.blk (hk _ rfl)]
    simp only [AddKind.src, hr]
  | ref r off =>
    have hr : read h'.mem ((h.refs r).ptr.add off) len = read h.mem ((h.refs r).ptr.add off) len :=
      read_congr fun i _ => by rw [Ptr.add_blk, f.mem _ (hk _ rfl)]
    simp only [AddKind.src, f.refPtr, hr]
  | _ => rfl

/-- Insertion behind a byte. -/
theorem SetUp.inserted {P₁ : Own} {s₁ s' : St} {f : Found} (sd : Sound E P s)
    (su : SetUp q E P s pos P₁ s₁ f pre n post) (ad : Added q E P₁ s₁ k n pos len P' s')
    (hpos : pos ≠ 0) : Inserted q E P s k pos len P' s' := by
  have hb : s₁.conf.bufSz = s.conf.bufSz := by
    unfold St.conf
    rw [su.grown.conf]
    exact su.frame.bufSz _
  refine ⟨ad.sound, su.frame.trans ad.frame, ad.posOk, ?_, ?_, ?_, ?_⟩
  · obtain ⟨b', e, hg⟩ := ad.base
    have := su.grown.trans hg
    rw [Nat.zero_add] at this
    exact ⟨b', this, .inl e⟩
  · intro Q ps hk
    exact ad.ptrs (su.ptrs ps) hk
  · intro hf hk
    rw [AddKind.FitsAt, if_neg hpos, ← su.upTo] at hk
    exact ad.fits (su.fits hf) ((AddKind.fits_congr hb).mpr hk)
  · intro ps hf
    obtain ⟨fm₁, hc₁⟩ := su.content (sd.owned.firm ps) (hf hpos)
    obtain ⟨xs, hxs, hc, hm⟩ := ad.content fm₁ fun _ => (su.ptrs ps).frame su.frame
    refine ⟨xs, hxs, by rw [hc, hc₁], fun hk hx => ?_⟩
    rw [AddKind.MeantAt, if_neg hpos, ← su.upTo] at hk
    have hsolid : ∀ x, k.blk s₁.heap = some x → Solid P₁ x := by
      intro x hx'
      rw [su.quiet.blk] at hx'
      exact su.grows.solid (hx x hx')
    rw [hm ((AddKind.meant_congr hb).mpr hk) hsolid]
    exact su.quiet.src hx len

theorem SetUp.stayed {P₁ : Own} {s₁ : St} {f : Found} (sd : Sound E P s)
    (su : SetUp q E P s pos P₁ s₁ f pre n post) : Stayed E P s P₁ s₁ :=
  ⟨su.sound, su.frame, su.posOk, su.grown, su.ptrs,
    su.fits, fun ps hf => (su.content (sd.owned.firm ps) (hf.cutFits pos)).2⟩

/-- The state after nodes were made that an operation could not use. -/
theorem Stayed.makes {P₁ : Own} {s₁ s' : St} (st : Stayed E P s P₁ s₁)
    (mk : Makes E P₁ s₁.heap P' s'.heap) (hb : s'.base = s₁.base) : Stayed E P s P' s' := by
  have hs : s' = { s₁ with heap := s'.heap } := by rw [← hb]
  refine ⟨?_, st.frame.trans mk.frame, ?_, ?_, ?_, ?_, ?_⟩
  · rw [hs]; exact st.sound.makes mk
  · rw [hb]; exact st.posOk
  · rw [hb]; exact st.grown
  · intro Q ps
    rw [hb]
    exact st.ptrs ps
  · intro hf
    rw [hb]
    exact st.fits hf
  · intro ps hf
    rw [← st.content ps hf]
    unfold Vstr.content
    rw [hb, mk.flat]

/-- Only the position cache changed, and the heap where no byte is. -/
theorem stayed_of_posData {s' : St} {d : PosData} (sd : Sound E P s) (sd' : Sound E P' s')
    (fr : Frame E P s.heap P' s'.heap) (pk : PosOk q s'.base)
    (hd : s'.base = { s.base with posData := d }) (qt : Quiet P s.heap s'.heap) :
    Stayed E P s P' s' := by
  refine ⟨sd', fr, pk.weaken, ?_, ?_, ?_, ?_⟩
  · rw [hd]; exact ⟨rfl, rfl, rfl, rfl, rfl, rfl⟩
  · intro Q ps
    rw [hd]
    exact ps
  · intro hf
    rw [hd]
    exact hf
  · intro ps _
    unfold Vstr.content
    rw [hd]
    dsimp only
    rw [qt.flat (sd.owned.firm ps)]

/-- `addAfter`: it fails and the content is as it was, or the data is in. -/
theorem addAfter_spec (sd : Sound E P s) (pk : PosOk q s.base) (h1 : 1 ≤ pos)
    (h2 : pos ≤ s.base.len) (hlen : 0 < len)
    (hlive : ∀ r, k.held = some r → 0 < (s.heap.refs r).ref) :
    ∃ P' s', (addAfter k s pos len = (false, s') ∧ Stayed E P s P' s') ∨
      (addAfter k s pos len = (true, s') ∧ Inserted q E P s k pos len P' s') := by
  unfold addAfter
  obtain ⟨P₁, s₁, ⟨e, sd₁, fr₁, pk₁, ⟨d, hd⟩, gr₁, qt₁⟩ | ⟨f, pre, n, post, e, su⟩⟩ :=
    addSetupPos_spec sd pk h1 h2
  · rw [e]
    exact ⟨P₁, s₁, .inl ⟨rfl, stayed_of_posData sd sd₁ fr₁ pk₁ hd qt₁⟩⟩
  · rw [e]
    dsimp only
    have hused : s₁.base.used = s.base.used := by
      obtain ⟨d, -, e | ⟨n₀, beg, post₀, -, -, -, -, -, e⟩⟩ := su.base
      · rw [e]
      · rw [e]
        rfl
    have hlive₁ : ∀ r, k.held = some r → 0 < (s₁.heap.refs r).ref :=
      fun r hr => Nat.lt_of_lt_of_le (hlive r hr) (su.refs r)
    obtain ⟨P', s', ⟨e', mk, hb⟩ | ⟨e', ad⟩⟩ := addAt_spec (q := q) su.sound su.at_ su.full
      (by rw [hused]; exact su.posUpTo) hlen hlive₁
    · exact ⟨P', s', .inl ⟨e', (su.stayed sd).makes mk hb⟩⟩
    · exact ⟨P', s', .inr ⟨e', su.inserted sd ad (by omega)⟩⟩

/-! ## Insertion at the front -/

theorem Stayed.refl (sd : Sound E P s) (pk : PosOk q s.base) : Stayed E P s P s :=
  ⟨sd, Frame.refl E P s.heap, pk.weaken, Grown.refl s.base, id, fun hf => hf,
    fun _ _ => rfl⟩

/-- What is meant to go in front is not moved by the squeezing. -/
theorem src_baseZeroUsed (sd : Sound E P s) (hk : k.MeantFront s len)
    (hlive : ∀ r, k.held = some r → 0 < (s.heap.refs r).ref) :
    k.src (baseZeroUsed s).heap len = k.src s.heap len := by
  rcases baseZeroUsed_cases sd.valid with ⟨-, e⟩ | ⟨n, ns, hns, -, hu, -, e⟩
  · rw [e]
  · rw [e]
    have hnode : s.base.node 0 = n := node_zero_of_eq hns
    have hmine : P (.node n.id) = .base E.me := sd.owned.nodes.own n (by rw [hns]; simp)
    cases k with
    | buf a =>
      have hne := hk hu
      rw [hnode] at hne
      exact congrArg (List.map some) (read_write_of_ne _ _ _ hne)
    | ptr a =>
      have hne := hk hu
      rw [hnode] at hne
      exact congrArg (List.map some) (read_write_of_ne _ _ _ hne)
    | ref r off =>
      have hplace := sd.owned.heap.refOwn r (hlive r rfl)
      have hne : ((s.heap.refs r).ptr.add off).blk ≠ .node n.id := by
        rw [Ptr.add_blk]
        intro e'
        unfold RefPlace at hplace
        rw [e'] at hplace
        split at hplace
        · rcases hplace with hp | hp <;> rw [hmine] at hp <;> cases hp
        · obtain ⟨-, x, hx, hp⟩ := hplace
          rw [← hx, hmine] at hp
          cases hp
      exact congrArg (List.map some) (read_write_of_ne _ _ _ hne)
    | _ => rfl

/-- Linking in front of a base without used bytes. -/
theorem inserted_front (sd : Sound E P s) (pk : PosOk q s.base) (hlen : 0 < len)
    (hsp : allocNum len (k.max s.conf) ≤ (s.conf.spare k.type).length)
    (hlive : ∀ r, k.held = some r → 0 < (s.heap.refs r).ref) (atEnd : Bool) :
    ∃ P', Inserted q E P s k 0 len P' (addLink k (baseZeroUsed s) 0 atEnd len 0 len) := by
  obtain ⟨sd₁, fr₁, pk₁, ⟨ns₁, hb₁⟩, hrefs₁, hconfs₁, hps₁, hcont₁, hf₁⟩ := baseZeroUsed_spec sd pk
  have hsrc : k.MeantFront s len → _ → k.src (baseZeroUsed s).heap len = k.src s.heap len :=
    src_baseZeroUsed sd
  have hgrown : Grown s.base (baseZeroUsed s).base 0 := by
    rw [hb₁]
    exact ⟨rfl, rfl, rfl, rfl, rfl, rfl⟩
  have hconf : (baseZeroUsed s).conf = s.conf := by
    unfold St.conf
    rw [hgrown.conf, hconfs₁]
  have hused : (baseZeroUsed s).base.used = 0 := by rw [hb₁]
  have hlive₁ : ∀ r, k.held = some r → 0 < ((baseZeroUsed s).heap.refs r).ref := by
    intro r hr
    rw [hrefs₁]
    exact hlive r hr
  obtain ⟨P', new, l⟩ := addLink_spec (q := q) (k := k) (a := []) 0 sd₁ rfl
    (fun _ => hused) hlen (by rw [hconf]; exact hsp) hlive₁ (pk₁.upTo _)
    (by rw [hused]; intro new id k' i _ hk'; omega) atEnd len
  rw [List.length_nil] at l
  generalize addLink k (baseZeroUsed s) 0 atEnd len 0 len = s' at l ⊢
  refine ⟨P', ⟨l.sound, fr₁.trans l.frame, l.posOk, ?_, ?_, ?_, ?_⟩⟩
  · obtain ⟨b', e, hg⟩ := l.grown
    have := hgrown.trans hg
    rw [Nat.zero_add] at this
    exact ⟨b', this, .inl e⟩
  · intro Q ps hk
    exact l.ptrs (hps₁ ps) hk
  · intro hf hk
    exact l.fits (hf₁ hf) (by rwa [AddKind.FitsAt, if_pos rfl] at hk)
  · intro ps hf
    have hc₁ := hcont₁ ps
    have ps₁ : PtrSafe E P (baseZeroUsed s).base.nodes := hps₁ ps
    have fm₁ := sd₁.owned.firm ps₁
    refine ⟨flat s'.heap new, by rw [length_flat, l.chunks.lens], ?_, fun hk hx => ?_⟩
    · rw [insertAfter_zero, ← hc₁]
      unfold content
      rw [l.nodes, l.used, hused, List.drop_zero, List.drop_zero, List.nil_append, flat_append,
        l.quiet.flat fm₁]
    · rw [AddKind.MeantAt, if_pos rfl] at hk
      rw [← hsrc hk hlive]
      apply l.bytes
      · cases k with
        | ref r off => exact ⟨hk.2, hk.1⟩
        | _ => trivial
      · intro x hx'
        apply hx
        cases k with
        | ref r off =>
          simp only [AddKind.blk, hrefs₁] at hx' ⊢
          exact hx'
        | _ => exact hx'

/-- A base without bytes has no nodes. -/
theorem Valid.nil_of_len {bufSz : Nat} {b : Base} (v : Valid bufSz b) (h : b.len = 0) :
    b.nodes = [] ∧ b.used = 0 := by
  have hlen := v.len
  by_cases hu : b.used = 0
  · refine ⟨?_, hu⟩
    by_contra hne
    have := lens_pos v.pos hne
    omega
  · obtain ⟨n, ns, hns, -, hlt⟩ := v.used hu
    rw [hns, lens_cons] at hlen
    omega

/-- Making spare nodes first makes no difference. -/
theorem Inserted.of_makes {P₁ : Own} {h₁ : Heap} {s' : St} (m : Makes E P s.heap P₁ h₁)
    (i : Inserted q E P₁ { s with heap := h₁ } k 0 len P' s') :
    Inserted q E P s k 0 len P' s' := by
  refine ⟨i.sound, m.frame.trans i.frame, i.posOk, i.base, ?_, ?_, ?_⟩
  · intro Q ps hk
    exact i.ptrs ps hk
  · intro hf hk
    exact i.fits hf hk
  · intro ps hf
    obtain ⟨xs, hxs, hc, hm⟩ := i.content (ps.frame m.frame) (absurd rfl)
    refine ⟨xs, hxs, ?_, fun hk hx => ?_⟩
    · rw [hc]
      unfold Vstr.content
      dsimp only
      rw [m.flat]
    · rw [hm hk fun x hx' => m.grows.solid (hx x (by rw [← m.blk]; exact hx'))]
      exact m.src k len

/-- `addFront`: it fails and the content is as it was, or the data is in. -/
theorem addFront_spec (sd : Sound E P s) (pk : PosOk q s.base) (hlen : 0 < len)
    (hlive : ∀ r, k.held = some r → 0 < (s.heap.refs r).ref) :
    ∃ P' s', (addFront k s len = (false, s') ∧ Stayed E P s P' s') ∨
      (addFront k s len = (true, s') ∧ Inserted q E P s k 0 len P' s') := by
  obtain ⟨P₁, mk, hsp⟩ := makes_rangeSpare (E := E) sd.owned.heap s.base.conf k.type
    (allocNum len (k.max s.conf))
  unfold addFront
  dsimp only
  split
  · rename_i h₁ e
    rw [e] at mk
    have st : Stayed E P s P₁ { s with heap := h₁ } := (Stayed.refl sd pk).makes mk rfl
    exact ⟨P₁, _, .inl ⟨rfl, st⟩⟩
  · rename_i h₁ e
    rw [e] at mk hsp
    have hmax : k.max (St.conf { s with heap := h₁ }) = k.max s.conf := by
      have hb : (St.conf { s with heap := h₁ }).bufSz = s.conf.bufSz := mk.frame.bufSz _
      unfold AddKind.max
      rw [hb]
    have hsp₁ : allocNum len (k.max (St.conf { s with heap := h₁ })) ≤
        ((St.conf { s with heap := h₁ }).spare k.type).length := by
      rw [hmax]
      exact hsp rfl
    have hlive₁ : ∀ r, k.held = some r → 0 < (h₁.refs r).ref := by
      intro r hr
      rw [mk.refs]
      exact hlive r hr
    split
    · obtain ⟨P', i⟩ := inserted_front (sd.makes mk) pk hlen hsp₁ hlive₁ false
      exact ⟨P', _, .inr ⟨rfl, i.of_makes mk⟩⟩
    · rename_i h0
      obtain ⟨P', i⟩ := inserted_front (sd.makes mk) pk hlen hsp₁ hlive₁ true
      have hz : baseZeroUsed { s with heap := h₁ } = { s with heap := h₁ } := by
        have hn := (sd.valid.nil_of_len (by simpa using h0)).1
        unfold baseZeroUsed
        dsimp only
        rw [hn]
      rw [hz] at i
      exact ⟨P', _, .inr ⟨rfl, i.of_makes mk⟩⟩

/-- The five add functions after their argument checks. -/
theorem addData_spec (sd : Sound E P s) (pk : PosOk q s.base) (hpos : pos ≤ s.base.len)
    (hlen : 0 < len) (hlive : ∀ r, k.held = some r → 0 < (s.heap.refs r).ref) :
    ∃ P' s', (addData k s pos len = (false, s') ∧ Stayed E P s P' s') ∨
      (addData k s pos len = (true, s') ∧ Inserted q E P s k pos len P' s') := by
  unfold addData
  split
  · rename_i h
    exact addAfter_spec sd pk (by omega) hpos hlen hlive
  · rename_i h
    have h0 : pos = 0 := by omega
    rw [h0]
    exact addFront_spec sd pk hlen hlive

/-! ## The inline appends -/

/-- The last node of a base that has one. -/
theorem exists_last {b : Base} (hne : b.nodes ≠ []) : ∃ pre n, b.nodes = pre ++ [n] :=
  ⟨b.nodes.dropLast, b.nodes.getLast hne, (List.dropLast_append_getLast hne).symm⟩

theorem Valid.nodes_ne_nil {bufSz : Nat} {b : Base} (v : Valid bufSz b) (h : b.len ≠ 0) :
    b.nodes ≠ [] := by
  intro e
  have hlen := v.len
  rw [e, lens_nil] at hlen
  omega

/-- The last byte is at the end of the last node. -/
theorem At.last {bufSz : Nat} {b : Base} {f : Found} (hat : At b b.len f pre n post)
    (v : Valid bufSz b) : post = [] ∧ f.pos = n.len := by
  have h1 := v.len
  have h2 := hat.pos
  have h3 := hat.le_len
  rw [hat.nodes, lens_append, lens_cons] at h1
  refine ⟨?_, by omega⟩
  by_contra hne
  have := lens_pos (fun m hm => v.pos m (by rw [hat.nodes]; simp [hm])) hne
  omega

/-- Up to the last byte, the last node is whole. -/
theorem upTo_len (sd : Sound E P s) (pk : PosOk q s.base) (hne : s.base.len ≠ 0)
    (hns : s.base.nodes = pre ++ [n]) :
    s.upTo s.base.len = n ∧ At s.base s.base.len ⟨pre.length, n.len, s.base.num⟩ pre n [] := by
  obtain ⟨pre', n', post', hat, -, -⟩ := basePos_at sd.valid sd.owned.nodes.nodup pk
    (by omega : 1 ≤ s.base.len) (Nat.le_refl _) true
  obtain ⟨rfl, hpos⟩ := hat.last sd.valid
  have he := hat.nodes
  rw [hns] at he
  obtain ⟨rfl, hn⟩ := List.append_inj' he rfl
  obtain rfl : n = n' := by simpa using hn
  refine ⟨?_, hns, rfl, by rw [← hat.pos, hpos], ?_, Nat.le_refl _⟩
  · unfold St.upTo
    rw [hat.idx, node_of_eq hat.nodes, hpos]
  · have := hat.one_le
    dsimp only
    omega

/-- The inline append does what the slow path does, but tells no callback. -/
theorem addFast_spec (sd : Sound E P s) (pk : PosOk q s.base) (hty : k.type = .buf)
    (hlen : 0 < len) (hok : addFastOk s pos len = true) :
    Inserted q E P s k pos len P (addFast k s len) := by
  unfold addFastOk at hok
  simp only [decide_eq_true_eq] at hok
  obtain ⟨hne, rfl, hnt, hle, -⟩ := hok
  obtain ⟨pre, n, hns⟩ := exists_last (sd.valid.nodes_ne_nil hne)
  obtain ⟨-, hidx⟩ := sd.valid.last sd.owned.nodes.nodup hns
  have hnode : s.base.node pre.length = n := node_of_eq hns
  rw [hidx, hnode] at hnt hle
  rw [uintSub_of_le (sd.valid.buf n (by rw [hns]; simp) hnt)] at hle
  obtain ⟨hup, hat⟩ := upTo_len sd pk hne hns
  have hmax : k.max s.conf = s.conf.bufSz := by
    unfold AddKind.max
    rw [hty]
  have ha : k.absorbs s.conf n = true := by
    have hd : n.data = .buf := by
      unfold Node.type at hnt
      split at hnt <;> first | assumption | cases hnt
    unfold AddKind.absorbs
    rw [hd]
    cases k with
    | buf a => simp only [decide_eq_true_eq]; omega
    | repChr c => simp only [decide_eq_true_eq]; omega
    | _ => simp [AddKind.type] at hty
  have hall : min (k.max s.conf - n.len) len = len := by
    rw [hmax]
    exact Nat.min_eq_right hle
  have ad := added_absorb (q := q) (k := k) sd hat rfl (pk.upTo _) ha hall
  have he : addFast k s len = (addAbsorb k s ⟨pre.length, n.len, s.base.num⟩ len).2 := by
    unfold addFast addAbsorb
    dsimp only
    rw [hidx, hnode, hall]
  obtain ⟨s₁, e, -, -, hb₁, -⟩ := addAbsorb_spec sd hns
    (f := ⟨pre.length, n.len, s.base.num⟩) rfl ha len
  rw [hall] at hb₁
  rw [e] at ad he
  rw [he]
  dsimp only at ad ⊢
  have hcore := core_cacheAdd s₁.base s.base.len len
  have hnodes := nodes_of_core hcore
  refine ⟨ad.sound.congr hcore.symm, ad.frame, ?_, ?_, ?_, ?_, ?_⟩
  · intro id hid hc
    rw [posData_of_noVec hb₁] at hid
    have hc' : s.base.cacheAvailable = true := by
      rw [← hc]
      exact (congrArg Base.cacheAvailable hb₁ :).symm
    obtain ⟨h1, k', i, hk, hs, hq⟩ := pk id hid hc'
    have hn₁ : s₁.base.nodes = pre ++ [{ n with len := n.len + len }] :=
      (congrArg Base.nodes hb₁ :)
    have hu₁ : s₁.base.used = s.base.used := (congrArg Base.used hb₁ :)
    rw [posData_of_noVec hb₁, hu₁, hn₁]
    refine ⟨h1, k', i, hk, ?_, hq⟩
    rw [hns] at hs
    simp only [sits_append, sits_cons] at hs ⊢
    rcases hs with hs | ⟨k₁, i₁, rfl, rfl, hs | ⟨k₂, i₂, rfl, rfl, ⟨p₁, m, p₂, hnil, -⟩⟩⟩
    · exact .inl hs
    · exact .inr ⟨k₁, i₁, rfl, rfl, .inl hs⟩
    · simp at hnil
  · exact ⟨s₁.base, ⟨(congrArg Base.len hb₁ :), (congrArg Base.conf hb₁ :),
      (congrArg Base.cacheAvailable hb₁ :), (congrArg Base.cacheInternal hb₁ :),
      (congrArg Base.cstr hb₁ :), (congrArg Base.userData hb₁ :)⟩, .inr ⟨rfl, rfl⟩⟩
  · intro Q ps hk
    rw [← hnodes]
    exact ad.ptrs ps hk
  · intro hf hk
    rw [AddKind.FitsAt, if_neg hne, hup] at hk
    rw [← hnodes]
    exact ad.fits hf hk
  · intro ps _
    obtain ⟨xs, hxs, hc, hm⟩ := ad.content (sd.owned.firm ps) fun _ => ps
    refine ⟨xs, hxs, ?_, fun hk hx => ?_⟩
    · rw [← hc]
      exact (content_congr hcore).symm
    · rw [AddKind.MeantAt, if_neg hne, hup] at hk
      exact hm hk hx

/-! ## The add functions -/

/-- An add function: it fails and the content is as it was, or the data, if there is any,
is in. -/
def AddSpec (q : Prop) (E : Env) (P : Own) (s : St) (k : AddKind) (pos len : Nat)
    (r : Bool × St) : Prop :=
  ∃ P' s', (r = (false, s') ∧ Stayed E P s P' s') ∨
    (r = (true, s') ∧ ((len = 0 ∧ P' = P ∧ s' = s) ∨ Inserted q E P s k pos len P' s'))

/-- The slow paths. -/
theorem addSpec_of_data (sd : Sound E P s) (pk : PosOk q s.base) (hpos : pos ≤ s.base.len)
    (hlen : 0 < len) (hlive : ∀ r, k.held = some r → 0 < (s.heap.refs r).ref) :
    AddSpec q E P s k pos len (addData k s pos len) := by
  obtain ⟨P', s', ⟨e, st⟩ | ⟨e, i⟩⟩ := addData_spec (k := k) sd pk hpos hlen hlive
  · exact ⟨P', s', .inl ⟨e, st⟩⟩
  · exact ⟨P', s', .inr ⟨e, .inr i⟩⟩

/-- `vstr_extern_inline_add_buf`. -/
theorem externAddBuf_spec (sd : Sound E P s) (pk : PosOk q s.base) (hpos : pos ≤ s.base.len)
    (buffer : Addr) (len : Nat) :
    AddSpec q E P s (.buf buffer) pos len (externAddBuf s pos buffer len) := by
  unfold externAddBuf
  split
  · exact ⟨P, s, .inl ⟨rfl, Stayed.refl sd pk⟩⟩
  · exact addSpec_of_data sd pk hpos (by omega) (by simp [AddKind.held])

/-- `vstr_extern_inline_add_rep_chr`. -/
theorem externAddRepChr_spec (sd : Sound E P s) (pk : PosOk q s.base)
    (hpos : pos ≤ s.base.len) (chr : UInt8) (len : Nat) :
    AddSpec q E P s (.repChr chr) pos len (externAddRepChr s pos chr len) := by
  unfold externAddRepChr
  split
  · exact ⟨P, s, .inl ⟨rfl, Stayed.refl sd pk⟩⟩
  · exact addSpec_of_data sd pk hpos (by omega) (by simp [AddKind.held])

/-- `vstr_add_buf`, by either path. -/
theorem addBuf_spec (sd : Sound E P s) (pk : PosOk q s.base) (hpos : pos ≤ s.base.len)
    (buffer : Addr) (len : Nat) :
    AddSpec q E P s (.buf buffer) pos len (addBuf s pos buffer len) := by
  unfold addBuf
  rw [if_neg (Nat.not_lt.mpr hpos)]
  split
  · rename_i h0
    exact ⟨P, s, .inr ⟨rfl, .inl ⟨h0, rfl, rfl⟩⟩⟩
  · split
    · rename_i h0 hok
      exact ⟨P, _, .inr ⟨rfl, .inr (addFast_spec sd pk rfl (by omega) hok)⟩⟩
    · exact externAddBuf_spec sd pk hpos buffer len

/-- `vstr_add_rep_chr`, by either path. -/
theorem addRepChr_spec (sd : Sound E P s) (pk : PosOk q s.base) (hpos : pos ≤ s.base.len)
    (chr : UInt8) (len : Nat) :
    AddSpec q E P s (.repChr chr) pos len (addRepChr s pos chr len) := by
  unfold addRepChr
  rw [if_neg (Nat.not_lt.mpr hpos)]
  split
  · rename_i h0
    exact ⟨P, s, .inr ⟨rfl, .inl ⟨h0, rfl, rfl⟩⟩⟩
  · split
    · rename_i h0 hok
      exact ⟨P, _, .inr ⟨rfl, .inr (addFast_spec sd pk rfl (by omega) hok)⟩⟩
    · exact externAddRepChr_spec sd pk hpos chr len

/-- `vstr_add_non`. -/
theorem addNon_spec (sd : Sound E P s) (pk : PosOk q s.base) (hpos : pos ≤ s.base.len)
    (len : Nat) : AddSpec q E P s .non pos len (addNon s pos len) := by
  unfold addNon
  rw [if_neg (Nat.not_lt.mpr hpos)]
  split
  · rename_i h0
    exact ⟨P, s, .inr ⟨rfl, .inl ⟨h0, rfl, rfl⟩⟩⟩
  · exact addSpec_of_data sd pk hpos (by omega) (by simp [AddKind.held])

/-- `vstr_add_ptr`. -/
theorem addPtr_spec (sd : Sound E P s) (pk : PosOk q s.base) (hpos : pos ≤ s.base.len)
    (ptr : Addr) (len : Nat) : AddSpec q E P s (.ptr ptr) pos len (addPtr s pos ptr len) := by
  unfold addPtr
  rw [if_neg (Nat.not_lt.mpr hpos)]
  split
  · rename_i h0
    exact ⟨P, s, .inr ⟨rfl, .inl ⟨h0, rfl, rfl⟩⟩⟩
  · exact addSpec_of_data sd pk hpos (by omega) (by simp [AddKind.held])

/-- `vstr_add_ref`, of a live reference. -/
theorem addRef_spec (sd : Sound E P s) (pk : PosOk q s.base) (hpos : pos ≤ s.base.len)
    {r : Nat} (hr : 0 < (s.heap.refs r).ref) (off len : Nat) :
    AddSpec q E P s (.ref r off) pos len (addRef s pos r off len) := by
  unfold addRef
  rw [if_neg (Nat.not_lt.mpr hpos)]
  split
  · rename_i h0
    exact ⟨P, s, .inr ⟨rfl, .inl ⟨h0, rfl, rfl⟩⟩⟩
  · refine addSpec_of_data sd pk hpos (by omega) fun r' hr' => ?_
    simp only [AddKind.held, Option.some.injEq] at hr'
    rw [← hr']
    exact hr

end Vstr
