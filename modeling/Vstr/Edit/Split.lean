import Vstr.Own.Nodes
import Vstr.Cache.Core

/-!
# Splitting a node and squeezing out used bytes

The two changes of the list that no edit asks for: they leave the content, and every
node that starts somewhere still starts there.
-/

namespace Vstr

open Memory

variable {E : Env} {P P' : Own} {s : St} {h : Heap} {pre post : List Node} {n : Node}

/-- Offsets into references do not wrap. -/
def Fits (ns : List Node) : Prop :=
  ∀ m ∈ ns, ∀ r off, m.data = .ref r off → off + m.len ≤ 2 ^ 32

theorem Fits.subset {ns ns' : List Node} (hf : Fits ns) (hs : ∀ m ∈ ns', m ∈ ns) : Fits ns' :=
  fun m hm => hf m (hs m hm)

theorem fits_append {a b : List Node} : Fits (a ++ b) ↔ Fits a ∧ Fits b := by
  constructor
  · intro hf
    exact ⟨hf.subset fun m hm => List.mem_append_left _ hm,
      hf.subset fun m hm => List.mem_append_right _ hm⟩
  · rintro ⟨ha, hb⟩ m hm
    rcases List.mem_append.mp hm with hm | hm
    · exact ha m hm
    · exact hb m hm

theorem fits_cons {ns : List Node} :
    Fits (n :: ns) ↔ (∀ r off, n.data = .ref r off → off + n.len ≤ 2 ^ 32) ∧ Fits ns := by
  constructor
  · intro hf
    exact ⟨hf n List.mem_cons_self, hf.subset fun m hm => List.mem_cons_of_mem _ hm⟩
  · rintro ⟨hn, hs⟩ m hm
    rcases List.mem_cons.mp hm with rfl | hm
    · exact hn
    · exact hs m hm

theorem ptrsIn_append {Q : Blk → Prop} {a b : List Node} :
    PtrsIn Q (a ++ b) ↔ PtrsIn Q a ∧ PtrsIn Q b := by
  constructor
  · intro ps
    exact ⟨ps.subset fun m hm => List.mem_append_left _ hm,
      ps.subset fun m hm => List.mem_append_right _ hm⟩
  · rintro ⟨ha, hb⟩ m hm
    rcases List.mem_append.mp hm with hm | hm
    · exact ha m hm
    · exact hb m hm

theorem ptrsIn_cons {Q : Blk → Prop} {ns : List Node} :
    PtrsIn Q (n :: ns) ↔ (∀ a, n.data = .ptr a → Q a.blk) ∧ PtrsIn Q ns := by
  constructor
  · intro ps
    exact ⟨ps n List.mem_cons_self, ps.subset fun m hm => List.mem_cons_of_mem _ hm⟩
  · rintro ⟨hn, hs⟩ m hm
    rcases List.mem_cons.mp hm with rfl | hm
    · exact hn
    · exact hs m hm

/-! ## Splitting -/

/-- The base after a split: `beg` is the new node. -/
def splitBase (b : Base) (pre : List Node) (n beg : Node) (post : List Node) (p : Nat) : Base :=
  { b with
    num := b.num + 1
    iovecUptoDate := false
    nodes := pre ++ { n with len := p } :: beg :: post
    endNode := if post = [] then some beg.id else b.endNode }

/-- A split fails for lack of a node, or takes the first spare one. -/
theorem baseSplitNode_cases (ok : HeapOk P s.heap) (hns : s.base.nodes = pre ++ n :: post)
    (p : Nat) :
    ∃ P' h', Makes E P s.heap P' h' ∧
      (baseSplitNode s pre.length p = (false, ⟨h', s.base⟩) ∨
        ∃ id rest, (h'.confs s.base.conf).spare n.type = id :: rest ∧
          baseSplitNode s pre.length p =
            (true, ⟨(splitPayload (h'.dropSpare s.base.conf n.type 1) n id p).2,
              splitBase s.base pre n ⟨id, n.len - p,
                (splitPayload (h'.dropSpare s.base.conf n.type 1) n id p).1⟩ post p⟩)) := by
  have hnode : s.base.node pre.length = n := node_of_eq hns
  obtain ⟨P', mk, hlen⟩ := makes_rangeSpare (E := E) ok s.base.conf n.type 1
  refine ⟨P', (rangeSpare s.heap s.base.conf n.type 1).2, mk, ?_⟩
  unfold baseSplitNode
  dsimp only
  rw [hnode]
  split
  · rename_i h' e
    rw [e]
    exact .inl rfl
  · rename_i h' e
    rw [e] at hlen ⊢
    obtain ⟨id, rest, hsp⟩ := List.exists_cons_of_ne_nil
      (List.ne_nil_of_length_pos (hlen rfl))
    refine .inr ⟨id, rest, hsp, ?_⟩
    have hhead : h'.headSpare s.base.conf n.type = id := by
      rw [Heap.headSpare, hsp]
      rfl
    have htake : s.base.nodes.take pre.length = pre := by
      rw [hns]
      exact List.take_left' rfl
    have hdrop : s.base.nodes.drop (pre.length + 1) = post := by
      rw [hns, List.drop_append, List.drop_eq_nil_of_le (by omega)]
      simp
    have hend : pre.length + 1 < s.base.nodes.length ↔ post ≠ [] := by
      rw [hns, List.length_append, List.length_cons, ← List.length_pos_iff]
      omega
    rw [hhead, htake, hdrop]
    simp only [splitBase, hend, ite_not, ne_eq]

/-- What the second half of a node names. -/
def Payload.cut (d : Payload) (p : Nat) : Payload :=
  match d with
  | .ptr a => .ptr (a.add p)
  | .ref r off => .ref r (refOff (off + p))
  | d => d

theorem splitPayload_fst (h : Heap) (n : Node) (id p : Nat) :
    (splitPayload h n id p).1 = n.data.cut p := by
  unfold splitPayload
  cases n.data <;> rfl

/-- The second half of a node has its type. -/
theorem splitPayload_type (h : Heap) (n : Node) (id p len : Nat) :
    Node.type ⟨id, len, (splitPayload h n id p).1⟩ = n.type := by
  unfold splitPayload Node.type
  cases n.data <;> rfl

/-- The second half of a node holds what the node held. -/
theorem splitPayload_ref (h : Heap) (n : Node) (id p len : Nat) :
    Node.ref ⟨id, len, (splitPayload h n id p).1⟩ = n.ref := by
  unfold splitPayload Node.ref
  cases n.data <;> rfl

theorem valid_splitBase {bufSz : Nat} {b : Base} (v : Valid bufSz b)
    (hns : b.nodes = pre ++ n :: post) {p : Nat} {beg : Node} (h0 : 0 < p) (h1 : p < n.len)
    (hu : pre = [] → b.used < p) (hty : beg.type = n.type) (hlen : beg.len = n.len - p) :
    Valid bufSz (splitBase b pre n beg post p) := by
  have hn : n ∈ b.nodes := by rw [hns]; simp
  have hmem : ∀ m ∈ pre ++ { n with len := p } :: beg :: post,
      m ∈ b.nodes ∨ (m.len ≤ n.len ∧ 0 < m.len ∧ m.type = n.type) := by
    intro m hm
    simp only [List.mem_append, List.mem_cons] at hm
    rcases hm with hm | rfl | rfl | hm
    · exact .inl (by rw [hns]; simp [hm])
    · exact .inr ⟨by dsimp only; omega, h0, rfl⟩
    · exact .inr ⟨by omega, by omega, hty⟩
    · exact .inl (by rw [hns]; simp [hm])
  refine ⟨?_, ?_, ?_, ?_, ?_, ?_, ?_, ?_⟩
  · have := v.len
    rw [hns] at this
    simp only [splitBase, lens_append, lens_cons] at this ⊢
    omega
  · have := v.num
    rw [hns] at this
    simp only [splitBase, List.length_append, List.length_cons] at this ⊢
    omega
  · have hend := v.endNode
    simp only [splitBase]
    rw [hend, hns]
    cases post with
    | nil => simp
    | cons m ms => simp
  · intro m hm
    rcases hmem m hm with hm | ⟨-, hm, -⟩
    · exact v.pos m hm
    · exact hm
  · intro hne
    obtain ⟨k, ks, hk, hd, hlt⟩ := v.used hne
    rw [hns] at hk
    simp only [splitBase]
    cases pre with
    | nil =>
      rw [List.nil_append, List.cons.injEq] at hk
      exact ⟨_, _, rfl, by rw [← hd, ← hk.1], hu rfl⟩
    | cons m ms =>
      rw [List.cons_append, List.cons.injEq] at hk
      exact ⟨m, _, rfl, by rw [hk.1]; exact hd, by rw [hk.1]; exact hlt⟩
  · intro m hm
    rcases hmem m hm with hm | ⟨-, -, hm⟩
    · exact v.flags m hm
    · rw [hm]; exact v.flags n hn
  · intro m hm hb
    rcases hmem m hm with hm | ⟨hle, -, hm⟩
    · exact v.buf m hm hb
    · exact Nat.le_trans hle (v.buf n hn (hm.symm.trans hb))
  · intro m hm
    rcases hmem m hm with hm | ⟨hle, -, -⟩
    · exact v.max m hm
    · exact Nat.le_trans hle (v.max n hn)

/-- Every node still starts where it did; only numbers behind the split change. -/
theorem posOk_splitBase {q : Prop} {b : Base} (pk : PosOk q b)
    (hns : b.nodes = pre ++ n :: post) {p : Nat} {beg : Node} (h1 : p < n.len)
    (hlen : beg.len = n.len - p) : PosOk False (splitBase b pre n beg post p) := by
  intro id hid hc
  obtain ⟨hone, k, i, hk, hs, -⟩ := pk id hid hc
  rw [hns] at hs
  simp only [sits_append, sits_cons] at hs
  refine ⟨hone, k, ?_⟩
  simp only [splitBase, sits_append, sits_cons]
  rcases hs with hs | ⟨k', i', rfl, rfl, ⟨he, rfl, rfl⟩ | ⟨k'', i'', rfl, rfl, hs⟩⟩
  · exact ⟨i, hk, .inl hs, False.elim⟩
  · exact ⟨_, hk, .inr ⟨0, 0, rfl, rfl, .inl ⟨he, rfl, rfl⟩⟩, False.elim⟩
  · refine ⟨_, hk, .inr ⟨n.len + k'', _, rfl, rfl, .inr ⟨beg.len + k'', _, ?_, rfl,
      .inr ⟨k'', i'', rfl, rfl, hs⟩⟩⟩, False.elim⟩
    omega

/-- The second half of a node takes one more reference. -/
theorem splitPayload_count (h : Heap) (n : Node) (c id p r : Nat) :
    ((splitPayload (h.dropSpare c n.type 1) n id p).2.refs r).ref =
      (h.refs r).ref + if n.ref = some r then 1 else 0 := by
  unfold splitPayload Node.ref
  cases n.data with
  | buf => simp only [reduceCtorEq, if_false]; rfl
  | non => simp only [reduceCtorEq, if_false]; rfl
  | ptr a => simp only [reduceCtorEq, if_false]; rfl
  | ref r' off =>
    simp only [Option.some.injEq]
    rw [refAdd_ref]
    rfl

/-- A node of a spare list takes the second half. -/
theorem owned_split (ow : Owned E P h (pre ++ n :: post)) {c id p : Nat} {rest : List Nat}
    (hsp : (h.confs c).spare n.type = id :: rest) :
    Owned E (P.give [id] (.base E.me)) (splitPayload (h.dropSpare c n.type 1) n id p).2
      (pre ++ { n with len := p } ::
        ⟨id, n.len - p, (splitPayload (h.dropSpare c n.type 1) n id p).1⟩ :: post) := by
  have htake : ((h.confs c).spare n.type).take 1 = [id] := by rw [hsp]; rfl
  have hheap : HeapOk (P.give (((h.confs c).spare n.type).take 1) (.base E.me))
      (h.dropSpare c n.type 1) := ow.heap.dropSpare 1 E.me
  rw [htake] at hheap
  have hmine : P (.node id) = .spare c n.type :=
    ow.heap.spareOwn c n.type id (by rw [hsp]; exact List.mem_cons_self)
  have hnodes : NodesOk (P.give [id] (.base E.me)) E.me (pre ++ { n with len := p } ::
      ⟨id, n.len - p, (splitPayload (h.dropSpare c n.type 1) n id p).1⟩ :: post) := by
    have hok : NodesOk P E.me ((pre ++ [{ n with len := p }]) ++ post) :=
      ow.nodes.of_ids (by simp)
    let beg : Node := ⟨id, n.len - p, (splitPayload (h.dropSpare c n.type 1) n id p).1⟩
    have hmine' : ∀ i ∈ [beg].map Node.id, P (.node i) = .spare c n.type := by
      intro i hi
      obtain rfl : i = id := by simpa using hi
      exact hmine
    have := hok.insert (by simp [beg]) hmine'
    simpa using this
  refine ⟨?_, hnodes, ?_⟩
  · unfold splitPayload
    split
    · exact hheap.setMem _
    · exact hheap
    · exact hheap
    · rename_i r off hd
      apply hheap.refAdd
      exact ow.ref_pos (m := n) (by simp) (by simp only [Node.ref, hd])
  · intro r
    have hc := ow.refs r
    simp only [heldBy_append, heldBy_cons, splitPayload_ref] at hc ⊢
    have hn : Node.ref { n with len := p } = n.ref := rfl
    rw [hn]
    rw [splitPayload_count, hc]
    omega

/-- Only the new node is written. -/
theorem quiet_split (ok : HeapOk P h) {c id p : Nat} {rest : List Nat}
    (hsp : (h.confs c).spare n.type = id :: rest) :
    Quiet P h (splitPayload (h.dropSpare c n.type 1) n id p).2 := by
  have hmine : P (.node id) = .spare c n.type :=
    ok.spareOwn c n.type id (by rw [hsp]; exact List.mem_cons_self)
  unfold splitPayload
  split
  · refine ⟨fun x hx => write_of_ne _ _ ?_, fun _ => rfl⟩
    rintro rfl
    exact hx.2 _ _ hmine
  · exact ⟨fun _ _ => rfl, fun _ => rfl⟩
  · exact ⟨fun _ _ => rfl, fun _ => rfl⟩
  · exact ⟨fun _ _ => rfl, (like_refAdd _ _).refPtr⟩

/-- The bytes of both halves. -/
theorem nodeBytes_split (ok : HeapOk P h) (hn : ∀ a, exportNodePtr h n = some a → Solid P a.blk)
    {c id p : Nat} {rest : List Nat} (hf : ∀ r off, n.data = .ref r off → off + p < 2 ^ 32)
    (hsp : (h.confs c).spare n.type = id :: rest) (h1 : p < n.len) :
    let r := splitPayload (h.dropSpare c n.type 1) n id p
    nodeBytes r.2 { n with len := p } = (nodeBytes h n).take p ∧
      nodeBytes r.2 ⟨id, n.len - p, r.1⟩ = (nodeBytes h n).drop p := by
  have hlike := like_dropSpare h c n.type 1
  have hq : Quiet P h (splitPayload (h.dropSpare c n.type 1) n id p).2 := quiet_split ok hsp
  dsimp only
  constructor
  · rw [hq.nodeBytes (m := { n with len := p }) hn]
    unfold nodeBytes
    have he : exportNodePtr h { n with len := p } = exportNodePtr h n := rfl
    rw [he]
    split
    · rw [List.take_replicate, Nat.min_eq_left (Nat.le_of_lt h1)]
    · rw [← List.map_take, take_read _ _ (Nat.le_of_lt h1)]
  · simp only [splitPayload, nodeBytes_eq h n]
    cases hd : n.data with
    | buf =>
      rw [nodeBytes_eq]
      dsimp only
      rw [← List.map_drop, drop_read]
      have hr : read ((h.dropSpare c n.type 1).setMem (copy (h.dropSpare c n.type 1).mem
          ⟨.node id, 0⟩ ⟨.node n.id, p⟩ (n.len - p))).mem ⟨.node id, 0⟩ (n.len - p) =
          read h.mem ⟨.node n.id, p⟩ (n.len - p) := read_copy_self _ _ _ _
      rw [hr]
      simp [Ptr.add]
    | non =>
      rw [nodeBytes_eq]
      dsimp only
      rw [List.drop_replicate]
    | ptr a =>
      rw [nodeBytes_eq]
      dsimp only
      rw [hlike.mem, ← List.map_drop, drop_read]
    | ref r off =>
      have hlike' := hlike.trans (like_refAdd (h.dropSpare c n.type 1) r)
      have hoff : refOff (off + p) = off + p := by
        exact Nat.mod_eq_of_lt (hf r off hd)
      rw [nodeBytes_eq]
      dsimp only
      rw [hlike'.mem, hlike'.refPtr, ← List.map_drop, drop_read, hoff, Ptr.add_add]

/-- The offsets of both halves fit. -/
theorem fits_split (hf : Fits (pre ++ n :: post)) {id p : Nat} (h1 : p < n.len) :
    Fits (pre ++ { n with len := p } :: ⟨id, n.len - p, (splitPayload h n id p).1⟩ :: post) := by
  simp only [fits_append, fits_cons] at hf ⊢
  obtain ⟨hpre, hn, hpost⟩ := hf
  refine ⟨hpre, fun r off hr => ?_, fun r off hr => ?_, hpost⟩
  · have := hn r off hr
    omega
  · simp only [splitPayload] at hr
    split at hr <;> try cases hr
    rename_i off' hd
    have := hn r off' hd
    have hoff : refOff (off' + p) = off' + p := Nat.mod_eq_of_lt (by omega)
    rw [hoff]
    omega

/-- Both halves point where the node pointed. -/
theorem ptrsIn_split {Q : Blk → Prop} (ps : PtrsIn Q (pre ++ n :: post)) {id p : Nat} :
    PtrsIn Q
      (pre ++ { n with len := p } :: ⟨id, n.len - p, (splitPayload h n id p).1⟩ :: post) := by
  simp only [ptrsIn_append, ptrsIn_cons] at ps ⊢
  obtain ⟨hpre, hn, hpost⟩ := ps
  refine ⟨hpre, hn, fun a ha => ?_, hpost⟩
  simp only [splitPayload] at ha
  split at ha <;> try cases ha
  rename_i a' hd
  exact hn a' hd

/-- The bytes of both halves are where those of the node were, or in the new node. -/
theorem firm_split (ow : Owned E P h (pre ++ n :: post)) (fm : Firm P h (pre ++ n :: post))
    {c id p : Nat} {rest : List Nat} (hsp : (h.confs c).spare n.type = id :: rest) :
    Firm (P.give [id] (.base E.me)) (splitPayload (h.dropSpare c n.type 1) n id p).2
      (pre ++ { n with len := p } ::
        ⟨id, n.len - p, (splitPayload (h.dropSpare c n.type 1) n id p).1⟩ :: post) := by
  have hq : Quiet P h (splitPayload (h.dropSpare c n.type 1) n id p).2 :=
    quiet_split ow.heap hsp
  have hmine : P (.node id) = .spare c n.type :=
    ow.heap.spareOwn c n.type id (by rw [hsp]; exact List.mem_cons_self)
  have hgr : Grows P (P.give [id] (.base E.me)) := by
    intro x hx
    apply P.give_of_ne
    rintro i hi rfl
    rw [List.mem_singleton.mp hi] at hx
    exact hx.2 _ _ hmine
  have fm' := fm.quiet hq hgr
  simp only [firm_append, firm_cons] at fm' ⊢
  obtain ⟨hpre, hn, hpost⟩ := fm'
  refine ⟨hpre, hn, fun a ha => ?_, hpost⟩
  cases hd : n.data with
  | buf =>
    simp only [exportNodePtr, splitPayload, hd, Option.some.injEq] at ha
    rw [← ha]
    exact solid_of_base (P.give_mem _ (List.mem_singleton_self id))
  | non => simp [exportNodePtr, splitPayload, hd] at ha
  | ptr q =>
    simp only [exportNodePtr, splitPayload, hd, Option.some.injEq] at ha hn
    rw [← ha]
    exact hn q rfl
  | ref r off =>
    simp only [exportNodePtr, splitPayload, hd, Option.some.injEq] at ha hn
    rw [← ha, Ptr.add_blk]
    have hs := hn _ rfl
    rwa [Ptr.add_blk] at hs

/-- `vstr__base_split_node`: it fails and leaves the base alone, or splits the node. -/
theorem baseSplitNode_spec (sd : Sound E P s) (hns : s.base.nodes = pre ++ n :: post) {p : Nat}
    (h0 : 0 < p) (h1 : p < n.len) (hu : pre = [] → s.base.used < p) :
    ∃ P' s', Sound E P' s' ∧ Frame E P s.heap P' s'.heap ∧ Grows P P' ∧
      Quiet P s.heap s'.heap ∧ (∀ r, (s.heap.refs r).ref ≤ (s'.heap.refs r).ref) ∧
      ((baseSplitNode s pre.length p = (false, s') ∧ s'.base = s.base) ∨
        ∃ beg, baseSplitNode s pre.length p = (true, s') ∧
          s'.base = splitBase s.base pre n beg post p ∧ beg.type = n.type ∧
          beg.data = n.data.cut p ∧ beg.len = n.len - p ∧
          (∀ {Q : Blk → Prop}, PtrsIn Q s.base.nodes → PtrsIn Q s'.base.nodes) ∧
          (Fits s.base.nodes → Fits s'.base.nodes) ∧
          (Firm P s.heap s.base.nodes → (∀ r off, n.data = .ref r off → off + p < 2 ^ 32) →
            Firm P' s'.heap s'.base.nodes ∧
            nodeBytes s'.heap { n with len := p } = (nodeBytes s.heap n).take p ∧
            nodeBytes s'.heap beg = (nodeBytes s.heap n).drop p)) := by
  obtain ⟨P₁, h₁, mk, e | ⟨id, rest, hsp, e⟩⟩ :=
    baseSplitNode_cases (E := E) sd.owned.heap hns p
  · have hb : (h₁.confs s.base.conf).bufSz = s.conf.bufSz := mk.frame.bufSz _
    refine ⟨P₁, ⟨h₁, s.base⟩, ⟨sd.owned.makes mk, ?_, ?_, ?_⟩, mk.frame, mk.grows,
      mk.quiet, fun r => Nat.le_of_eq (by dsimp only; rw [mk.refs]), .inl ⟨e, rfl⟩⟩
    · rw [St.conf, hb]; exact sd.valid
    · rw [St.conf, hb]; exact sd.bufSz_pos
    · rw [St.conf, hb]; exact sd.bufSz_le
  · have ow₁ := sd.owned.makes mk
    rw [hns] at ow₁
    have ow₂ := owned_split ow₁ (p := p) hsp
    have hmine : P₁ (.node id) = .spare s.base.conf n.type :=
      ow₁.heap.spareOwn _ _ id (by rw [hsp]; exact List.mem_cons_self)
    have hgive : P₁.give [id] (.base E.me) (.node id) = .base E.me :=
      P₁.give_mem _ (List.mem_singleton_self id)
    have hfr : Frame E P₁ h₁ (P₁.give [id] (.base E.me))
        (splitPayload (h₁.dropSpare s.base.conf n.type 1) n id p).2 := by
      have hdrop : Frame E P₁ h₁ (P₁.give [id] (.base E.me))
          (h₁.dropSpare s.base.conf n.type 1) := by
        apply (like_dropSpare h₁ s.base.conf n.type 1).frame _ (by simp)
        intro i hi
        rw [List.mem_singleton.mp hi]
        exact not_foreign_of_spare hmine
      unfold splitPayload
      split
      · exact hdrop.trans (frame_setMem _ (not_foreign_of_base hgive))
      · exact hdrop
      · exact hdrop
      · exact hdrop.trans (like_refAdd _ _).frame_same
    have hfr' := mk.frame.trans hfr
    have hb : (((splitPayload (h₁.dropSpare s.base.conf n.type 1) n id p).2).confs
        s.base.conf).bufSz = s.conf.bufSz := hfr'.bufSz _
    have hgr : Grows P₁ (P₁.give [id] (.base E.me)) := by
      intro x hx
      apply P₁.give_of_ne
      rintro i hi rfl
      rw [List.mem_singleton.mp hi] at hx
      exact hx.2 _ _ hmine
    refine ⟨_, _, ⟨ow₂, ?_, ?_, ?_⟩, hfr', mk.grows.trans hgr,
      mk.quiet.trans mk.grows (quiet_split ow₁.heap hsp), fun r => ?_,
      .inr ⟨_, e, rfl, splitPayload_type _ _ _ _ _, splitPayload_fst _ _ _ _, rfl, fun ps => ?_,
        fun hf => ?_, fun fm hf => ?_⟩⟩
    · change Valid (((splitPayload (h₁.dropSpare s.base.conf n.type 1) n id p).2).confs
        s.base.conf).bufSz _
      rw [hb]
      exact valid_splitBase sd.valid hns h0 h1 hu (splitPayload_type _ _ _ _ _) rfl
    · change 0 < (((splitPayload (h₁.dropSpare s.base.conf n.type 1) n id p).2).confs
        s.base.conf).bufSz
      rw [hb]; exact sd.bufSz_pos
    · change (((splitPayload (h₁.dropSpare s.base.conf n.type 1) n id p).2).confs
        s.base.conf).bufSz ≤ _
      rw [hb]; exact sd.bufSz_le
    · dsimp only
      rw [splitPayload_count, ← mk.refs]
      exact Nat.le_add_right _ _
    · rw [hns] at ps
      exact ptrsIn_split ps
    · rw [hns] at hf
      exact fits_split hf h1
    · rw [hns] at fm
      have fm₁ := fm.quiet mk.quiet mk.grows
      have hn : nodeBytes h₁ n = nodeBytes s.heap n :=
        mk.quiet.nodeBytes (fm n (by simp))
      obtain ⟨hfst, hsnd⟩ := nodeBytes_split ow₁.heap (fm₁ n (by simp)) hf hsp h1
      refine ⟨firm_split ow₁ fm₁ hsp, ?_, ?_⟩
      · rw [← hn]; exact hfst
      · rw [← hn]; exact hsnd

/-! ## Finding the place of an insertion -/

/-- `vstr_base__pos` changes nothing but the position cache. -/
theorem basePos_base (b : Base) (pos : Nat) (cache : Bool) :
    ∃ d, (basePos b pos cache).2 = { b with posData := d } := by
  unfold basePos
  dsimp only
  split
  · exact ⟨b.posData, rfl⟩
  · split
    · exact ⟨b.posData, rfl⟩
    · dsimp only
      split
      · unfold cachePos
        split
        · exact ⟨_, rfl⟩
        · exact ⟨b.posData, rfl⟩
      · exact ⟨b.posData, rfl⟩

/-- Structure does not depend on the caches. -/
theorem Sound.congr (sd : Sound E P s) {b : Base} (hc : b.core = s.base.core) :
    Sound E P ⟨s.heap, b⟩ := by
  have hconf : St.conf ⟨s.heap, b⟩ = s.conf := by
    unfold St.conf
    dsimp only
    rw [conf_of_core hc]
  refine ⟨?_, ?_, ?_, ?_⟩
  · dsimp only
    rw [nodes_of_core hc]
    exact sd.owned
  · rw [hconf]
    exact sd.valid.congr hc
  · rw [hconf]; exact sd.bufSz_pos
  · rw [hconf]; exact sd.bufSz_le

/-- The node a position is in, up to the position. -/
def St.upTo (s : St) (pos : Nat) : Node :=
  { s.base.node (basePos s.base pos true).1.idx with len := (basePos s.base pos true).1.pos }

/-- Cutting the node at a position does not wrap an offset. -/
def St.CutFits (s : St) (pos : Nat) : Prop :=
  ∀ r off, (s.base.node (basePos s.base pos true).1.idx).data = .ref r off →
    (basePos s.base pos true).1.pos < (s.base.node (basePos s.base pos true).1.idx).len →
    off + (basePos s.base pos true).1.pos < 2 ^ 32

theorem Fits.cutFits (hf : Fits s.base.nodes) (pos : Nat) : s.CutFits pos := by
  intro r off hd hlt
  have hmem : s.base.node (basePos s.base pos true).1.idx ∈ s.base.nodes := by
    unfold Base.node at hd ⊢
    rw [List.getD_eq_getElem?_getD] at hd ⊢
    cases he : s.base.nodes[(basePos s.base pos true).1.idx]? with
    | none =>
      rw [he] at hd
      cases hd
    | some m => exact List.mem_of_getElem? he
  have := hf _ hmem r off hd
  omega

/-- The state `vstr__add_setup_pos` leaves when it succeeds: the position is the end of
the node `n`. -/
structure SetUp (q : Prop) (E : Env) (P : Own) (s : St) (pos : Nat) (P' : Own) (s' : St)
    (f : Found) (pre : List Node) (n : Node) (post : List Node) : Prop where
  /-- The state is sound. -/
  sound : Sound E P' s'
  /-- Foreign blocks are left alone. -/
  frame : Frame E P s.heap P' s'.heap
  /-- Only spare and fresh blocks changed their place. -/
  grows : Grows P P'
  /-- The node was found. -/
  at_ : At s'.base pos f pre n post
  /-- The position is its end. -/
  full : f.pos = n.len
  /-- It is the node that was at the position, cut there. -/
  upTo : n = s.upTo pos
  /-- Its number. -/
  num : q → f.num = pre.length + 1
  /-- Nodes that start at or before the position are cached rightly. -/
  posUpTo : PosUpTo q (pos + s.base.used) s'.base
  /-- All nodes start where the cache says. -/
  posOk : PosOk False s'.base
  /-- What was found. -/
  found : f = (basePos s.base pos true).1
  /-- Nothing but the position cache changed, or a node was split. -/
  base : ∃ d, (basePos s.base pos true).2 = { s.base with posData := d } ∧
    (s'.base = { s.base with posData := d } ∨ ∃ n₀ beg post₀,
      s.base.nodes = pre ++ n₀ :: post₀ ∧ n = { n₀ with len := f.pos } ∧ f.pos < n₀.len ∧
      beg.data = n₀.data.cut f.pos ∧ beg.len = n₀.len - f.pos ∧
      s'.base = splitBase { s.base with posData := d } pre n₀ beg post₀ f.pos)
  /-- Only spare and fresh blocks are written. -/
  quiet : Quiet P s.heap s'.heap
  /-- No reference is dropped. -/
  refs : ∀ r, (s.heap.refs r).ref ≤ (s'.heap.refs r).ref
  /-- Offsets do not wrap. -/
  fits : Fits s.base.nodes → Fits s'.base.nodes
  /-- `PTR` nodes point where they did. -/
  ptrs : ∀ {Q : Blk → Prop}, PtrsIn Q s.base.nodes → PtrsIn Q s'.base.nodes
  /-- The content is the same. -/
  content : Firm P s.heap s.base.nodes → s.CutFits pos →
    Firm P' s'.heap s'.base.nodes ∧ content s' = content s

/-- `vstr__add_setup_pos`: it fails and changes nothing but the position cache, or sets
up. -/
theorem addSetupPos_spec {q : Prop} (sd : Sound E P s) (pk : PosOk q s.base) {pos : Nat}
    (h1 : 1 ≤ pos) (h2 : pos ≤ s.base.len) :
    ∃ P' s', (addSetupPos s pos = (none, s') ∧ Sound E P' s' ∧ Frame E P s.heap P' s'.heap ∧
        PosOk q s'.base ∧ (∃ d, s'.base = { s.base with posData := d }) ∧ Grows P P' ∧
        Quiet P s.heap s'.heap) ∨
      ∃ f pre n post, addSetupPos s pos = (some f, s') ∧
        SetUp q E P s pos P' s' f pre n post := by
  obtain ⟨pre, n, post, hat, hnum, -⟩ := basePos_at sd.valid sd.owned.nodes.nodup pk h1 h2 true
  have pk₁ := posOk_basePos sd.valid sd.owned.nodes.nodup pk h1 h2 true
  obtain ⟨d, hd⟩ := basePos_base s.base pos true
  rw [hd] at pk₁
  have sd₁ : Sound E P ⟨s.heap, { s.base with posData := d }⟩ := sd.congr rfl
  have hns : ({ s.base with posData := d } : Base).nodes = pre ++ n :: post := hat.nodes
  have hnode : ({ s.base with posData := d } : Base).node
      (basePos s.base pos true).1.idx = n := by
    rw [hat.idx]
    exact node_of_eq hns
  have hnode₀ : s.base.node (basePos s.base pos true).1.idx = n := hnode
  have hpos := hat.pos
  have hupTo : ({ n with len := (basePos s.base pos true).1.pos } : Node) = s.upTo pos := by
    rw [St.upTo, ← hnode]
    rfl
  unfold addSetupPos St.pos
  dsimp only
  rw [hd, hnode]
  split
  · rename_i hne
    have hlt : (basePos s.base pos true).1.pos < n.len := by
      have := hat.le_len
      omega
    have hu : pre = [] → s.base.used < (basePos s.base pos true).1.pos := by
      rintro rfl
      rw [lens_nil] at hpos
      omega
    obtain ⟨P', s', sd', fr, gr, qt, hrf, ⟨e, hb⟩ |
      ⟨beg, e, hb, hty, hdata, hlen, hps, hft, hfm⟩⟩ :=
      baseSplitNode_spec sd₁ hns hat.one_le hlt hu
    · rw [hat.idx, e]
      exact ⟨P', s', .inl ⟨rfl, sd', fr, by rw [hb]; exact pk₁, ⟨d, hb⟩, gr, qt⟩⟩
    · rw [hat.idx, e]
      refine ⟨P', s', .inr ⟨_, pre, { n with len := (basePos s.base pos true).1.pos },
        beg :: post, rfl, ⟨sd', fr, gr, ?_, rfl, hupTo, hnum, ?_, ?_, rfl, ?_, qt, hrf, hft, hps,
          ?_⟩⟩⟩
      · rw [hb]
        exact ⟨rfl, hat.idx, hat.pos, hat.one_le, Nat.le_refl _⟩
      · rw [hb]
        refine (pk₁.upTo (pos + s.base.used)).edit ?_ ?_ ?_ ?_
        · rfl
        · rfl
        · rfl
        rw [hns]
        exact keepsTo_edit pre post (beg :: post) rfl (by rw [← hpos]; omega)
      · rw [hb]
        exact posOk_splitBase pk₁ hns hlt hlen
      · exact ⟨d, hd, .inr ⟨n, beg, post, hat.nodes, rfl, hlt, hdata, hlen, hb⟩⟩
      · intro fm hf
        obtain ⟨fm', hfst, hsnd⟩ := hfm fm fun r off hd => by
          rw [St.CutFits, hnode₀] at hf
          exact hf r off hd hlt
        refine ⟨fm', ?_⟩
        unfold content
        have hused : s'.base.used = s.base.used := by rw [hb]; rfl
        have hnodes : s'.base.nodes = pre ++ { n with len := (basePos s.base pos true).1.pos } ::
            beg :: post := by rw [hb]; rfl
        rw [hat.nodes, firm_append, firm_cons] at fm
        rw [hused, hnodes, hat.nodes, flat_append, flat_cons, flat_cons, qt.flat fm.1,
          qt.flat fm.2.2, hfst, hsnd, flat_append, flat_cons,
          ← List.append_assoc (List.take _ _), List.take_append_drop]
  · rename_i heq
    have heq' : (basePos s.base pos true).1.pos = n.len := by
      by_contra hne
      exact heq hne
    refine ⟨P, ⟨s.heap, { s.base with posData := d }⟩, .inr ⟨_, pre, n, post, rfl,
      ⟨sd₁, Frame.refl E P s.heap, fun _ _ => rfl, ?_, heq', by rw [← hupTo, heq'], hnum,
        pk₁.upTo _, pk₁.weaken, rfl, ⟨d, hd, .inl rfl⟩,
        Quiet.refl P s.heap, fun _ => Nat.le_refl _, fun hf => hf, fun ps => ps,
        fun fm _ => ⟨fm, rfl⟩⟩⟩⟩
    exact ⟨hns, hat.idx, hat.pos, hat.one_le, hat.le_len⟩

end Vstr
