import Vstr.Edit.Long
import Vstr.Edit.Drop
import Vstr.Export.Cstr
import Vstr.Model.Sub
import Vstr.Run.Inline

/-!
# Substituting a whole node

`vstr_sub_ptr` and `vstr_sub_ref` on a slice that is exactly the live part of one node: the
node is replaced under the list. Lengths change in two steps, with a callback for what goes,
what is replaced and what is added, and the vector of the node is stored again; the caches
that were coherent before are so afterwards.
-/

namespace Vstr

open Memory Splice

variable {E : Env} {P P' : Own} {s s' : St} {q : Prop} {b b' : Base} {h h' : Heap}
  {pre post : List Node} {n node : Node} {pos len newLen : Nat}

/-! ## The node under the slice -/

/-- The used bytes of the node behind `pre`. -/
def usedOf (b : Base) (pre : List Node) : Nat := if pre = [] then b.used else 0

/-- The slice is the live part of the node `n`. -/
structure LivePart (b : Base) (pos len : Nat) (pre : List Node) (n : Node) (post : List Node) :
    Prop where
  /-- The list around the node. -/
  nodes : b.nodes = pre ++ n :: post
  /-- The slice starts at the first live byte. -/
  pos : lens pre + usedOf b pre + 1 = pos + b.used
  /-- And ends with the node. -/
  len : len + usedOf b pre = n.len

/-- Only the first node has used bytes. -/
theorem Valid.usedOf_lt {bufSz : Nat} (v : Valid bufSz b) (hns : b.nodes = pre ++ n :: post) :
    usedOf b pre < n.len := by
  have hpos := v.pos n (by rw [hns]; simp)
  unfold usedOf
  split
  · rename_i e
    by_cases h0 : b.used = 0
    · omega
    · obtain ⟨m, ms, hm, -, hlt⟩ := v.used h0
      rw [hns, e] at hm
      cases hm
      exact hlt
  · exact hpos

theorem LivePart.range {bufSz : Nat} (lp : LivePart b pos len pre n post) (v : Valid bufSz b) :
    1 ≤ pos ∧ 0 < len ∧ pos + len ≤ b.len + 1 := by
  have hlen := v.len
  have hlt := v.usedOf_lt lp.nodes
  have h1 := lp.pos
  have h2 := lp.len
  rw [lp.nodes, lens_append, lens_cons] at hlen
  have hused : b.used ≤ lens pre + usedOf b pre := by
    unfold usedOf
    split
    · omega
    · rename_i hne
      by_cases h0 : b.used = 0
      · omega
      · obtain ⟨m, ms, hm, -, hlt⟩ := v.used h0
        obtain ⟨x, xs, rfl⟩ := List.exists_cons_of_ne_nil hne
        rw [lp.nodes, List.cons_append, List.cons.injEq] at hm
        rw [lens_cons, hm.1]
        omega
  omega

/-- The iterator over such a slice. -/
theorem iterFwdBeg_whole (sd : Sound E P s) (pk : PosOk True s.base)
    (lp : LivePart s.base pos len pre n post) :
    iterFwdBeg s pos len = (some ⟨n, pre.length + 1, usedOf s.base pre, len, 0⟩,
        ⟨s.heap, (basePos s.base pos true).2⟩) ∧
      iterEqAllNode (basePos s.base pos true).2
        ⟨n, pre.length + 1, usedOf s.base pre, len, 0⟩ = true := by
  obtain ⟨h1, hlen, h2⟩ := lp.range sd.valid
  obtain ⟨pre', n', post', hat, hnum, -⟩ :=
    basePos_at sd.valid sd.owned.nodes.nodup pk h1 (by omega) true
  have hcore := core_basePos s.base pos true
  have hp := lp.pos
  have hl := lp.len
  have hap := hat.pos
  have hao := hat.one_le
  have hal := hat.le_len
  obtain ⟨rfl, rfl, rfl⟩ := node_unique (p := pos + s.base.used)
    (lp.nodes.symm.trans hat.nodes) (by omega) (by omega) (by omega) (by omega)
  have hnode : (basePos s.base pos true).2.node (basePos s.base pos true).1.idx = n' := by
    rw [hat.idx]
    exact node_of_eq ((nodes_of_core hcore).trans hat.nodes)
  constructor
  · unfold iterFwdBeg
    rw [rangeOk_of_le h1 h2, if_neg (by simp; omega)]
    dsimp only [St.pos]
    rw [hnode, hnum trivial]
    have hoff : (basePos s.base pos true).1.pos - 1 = usedOf s.base pre' := by omega
    have hmin : min (n'.len - usedOf s.base pre') len = len := by omega
    rw [hoff, hmin, Nat.sub_self]
  · unfold iterEqAllNode
    have hhead : ((basePos s.base pos true).2.nodes.head?.map Node.id = some n'.id) ↔
        pre' = [] := by
      have hd := sd.owned.nodes.nodup
      rw [nodes_of_core hcore, lp.nodes] at *
      cases pre' with
      | nil => simp
      | cons x xs =>
        rw [List.cons_append, List.map_cons, List.nodup_cons] at hd
        simp only [List.cons_append, List.head?_cons, Option.map_some, Option.some.injEq,
          reduceCtorEq, iff_false]
        intro e
        apply hd.1
        rw [e]
        exact List.mem_map_of_mem (by simp)
    have hused : (basePos s.base pos true).2.used = s.base.used := used_of_core hcore
    dsimp only
    simp only [hhead, hused]
    unfold usedOf at hl ⊢
    simp only [true_and, and_true, decide_eq_true_eq]
    omega

/-! ## Places and references -/

variable {k : AddKind}

/-- The memory after the new data took its reference and the old node gave up its own. -/
def wholeHeap (h : Heap) (k : AddKind) (n : Node) (id : Nat) : Heap := delNode (k.fillNew h id 0) n

theorem like_fillNew (hk : k.Names) (h : Heap) (id m : Nat) : Like h (k.fillNew h id m) := by
  cases k with
  | ptr a => exact Like.refl h
  | ref r off => exact like_refAdd h r
  | _ => exact False.elim hk

theorem like_wholeHeap (hk : k.Names) (h : Heap) (n : Node) (id : Nat) :
    Like h (wholeHeap h k n id) :=
  (like_fillNew hk h id 0).trans (like_delNode _ n)

/-- A node of the type of the data changes what it names. -/
theorem owned_same (ow : Owned E P h (pre ++ n :: post)) (hk : k.Names)
    (hlive : ∀ r, k.held = some r → 0 < (h.refs r).ref) (m : Nat) :
    ∃ P', Owned E P' (wholeHeap h k n n.id) (pre ++ ⟨n.id, m, k.payload⟩ :: post) ∧
      Frame E P h P' (wholeHeap h k n n.id) := by
  have hf := filled_fillNew h k n.id 0
  have ok : HeapOk P (k.fillNew h n.id 0) := by
    apply ow.heap.filled hf
    intro r hr
    obtain ⟨x, hx, hxr⟩ := List.countP_pos_iff.mp hr
    rw [List.mem_singleton.mp hx, AddKind.ref_payload] at hxr
    exact hlive r (by simpa using hxr)
  have hr : RefsOk E.ext (k.fillNew h n.id 0) (n :: (pre ++ ⟨n.id, m, k.payload⟩ :: post)) := by
    intro r
    have h1 := hf.refCount r
    have h2 := ow.refs r
    simp only [heldBy_append, heldBy_cons, heldBy_nil, AddKind.ref_payload] at h1 h2 ⊢
    omega
  obtain ⟨P', ok', hr', fr, hp⟩ := ok.delNode hr
  refine ⟨P', ⟨ok', ?_, hr'⟩, (like_fillNew hk h n.id 0).frame_same.trans fr⟩
  refine (ow.nodes.of_ids ?_).of_place hp
  simp

/-- A node from the spare list takes the place of the node. -/
theorem owned_swap {c id m : Nat} {rest : List Nat} (ow : Owned E P h (pre ++ n :: post))
    (hk : k.Names) (hlive : ∀ r, k.held = some r → 0 < (h.refs r).ref) (hm : 0 < m)
    (hsp : (h.confs c).spare k.type = id :: rest) :
    ∃ P', Owned E P' (relinkNodes (wholeHeap (h.dropSpare c k.type 1) k n id) c [n])
        (pre ++ ⟨id, m, k.payload⟩ :: post) ∧
      Frame E P h P' (relinkNodes (wholeHeap (h.dropSpare c k.type 1) k n id) c [n]) := by
  have hch : Chunks k m m ((h.confs c).spare k.type) [⟨id, m, k.payload⟩] := by
    refine ⟨by rw [hsp]; rfl, by simp, rfl, ?_, ?_, ?_, ?_, ?_, ?_⟩ <;>
      intro x hx <;> obtain rfl := List.mem_singleton.mp hx
    · exact hm
    · exact Nat.le_refl m
    · exact k.type_payload _ _
    · exact k.ref_payload _ _
    · intro y hy
      cases k <;> cases hy
      exact ⟨_, rfl, rfl⟩
    · intro r o ho
      cases k <;> cases ho
      exact ⟨_, rfl, fun _ => ⟨rfl, rfl⟩⟩
  have hf : Filled h (k.fillNew h id 0) [⟨id, m, k.payload⟩] := by
    have hf := filled_fillNew h k id 0
    refine ⟨hf.confs, hf.next, hf.size, hf.refPtr, hf.refFunc, fun r => ?_, fun x hx => ?_⟩
    · rw [hf.refCount r, heldBy_cons, heldBy_cons, AddKind.ref_payload, AddKind.ref_payload]
    · apply hf.mem x
      intro y hy
      have hne := hx ⟨id, m, k.payload⟩ (List.mem_singleton_self _)
      rw [List.mem_singleton.mp hy]
      exact hne
  obtain ⟨ow₁, fr₁, -, -⟩ := owned_link ow hch hf hlive
  have hcomm : (k.fillNew h id 0).dropSpare c k.type 1 =
      k.fillNew (h.dropSpare c k.type 1) id 0 := by
    cases k with
    | ptr a => rfl
    | ref r off => rfl
    | _ => exact False.elim hk
  rw [List.length_singleton, hcomm] at ow₁ fr₁
  have d : Dropping E (P.give ([(⟨id, m, k.payload⟩ : Node)].map Node.id) (.base E.me))
      (k.fillNew (h.dropSpare c k.type 1) id 0) (pre ++ [⟨id, m, k.payload⟩]) [] (n :: post) := by
    apply Owned.dropping
    exact ow₁
  obtain ⟨P₂, d₂, fr₂⟩ := d.take
  have d₂' : Dropping E P₂ (wholeHeap (h.dropSpare c k.type 1) k n id)
      (pre ++ [⟨id, m, k.payload⟩]) ([n] ++ []) post := d₂
  obtain ⟨P₃, d₃, fr₃⟩ := d₂'.relink c
  refine ⟨P₃, ?_, (fr₁.trans fr₂).trans fr₃⟩
  have ow₃ := d₃.owned
  rw [List.append_assoc, List.singleton_append] at ow₃
  exact ow₃

/-! ## The base -/

/-- The base once the node is no longer than what replaces it. -/
def shortBase (b : Base) (n : Node) (pos diff : Nat) : Base :=
  if diff ≠ 0 then
    cacheDel { b.setNode n.id { n with len := n.len - diff } with len := b.len - diff } pos diff
  else b

/-- What `node` replaced: the base without its caches. -/
def wholeBase (b : Base) (pre : List Node) (node : Node) (post : List Node) (len newLen : Nat) :
    Base :=
  { b with
    nodes := pre ++ node :: post
    len := b.len - len + newLen
    used := if pre = [] then 0 else b.used
    endNode := if post = [] then some node.id else b.endNode
    nodeUsed := Function.update b.nodeUsed node.type true }

/-- What the position cache becomes: callbacks around the renaming of the node. -/
def wholePos (d : PosData) (n node : Node) (pos len newLen : Nat) : PosData :=
  let d₁ := if newLen < len then cachePosCb pos .del d else d
  let d₂ := if d₁.node = some n.id then
      { d₁ with node := if min len newLen ≥ n.len - (len - newLen) then some node.id else none }
    else d₁
  if len < newLen then cachePosCb pos .add d₂ else d₂

/-- What the C string cache becomes. -/
def wholeCstr (data : CstrData) (pos len newLen : Nat) : CstrData :=
  let d₁ := if newLen < len then cacheCstrCb pos (len - newLen) .del data else data
  let d₂ := cacheCstrCb pos newLen .sub d₁
  if len < newLen then cacheCstrCb pos (newLen - len) .add d₂ else d₂

/-- The base after the substitution. -/
structure Swapped (h' : Heap) (b b' : Base) (pos len newLen : Nat) (pre : List Node)
    (n node : Node) (post : List Node) : Prop where
  /-- The structure. -/
  core : b'.core = (wholeBase b pre node post len newLen).core
  /-- The position cache. -/
  posData : b.cacheAvailable = true → b'.posData = wholePos b.posData n node pos len newLen
  /-- The vectors are as good as they were. -/
  iovecUptoDate : b'.iovecUptoDate = b.iovecUptoDate
  /-- The vector of the node. -/
  vec : b.iovecUptoDate = true → b'.vec = b.vec.map fun vec =>
    vec.set (vec.off + pre.length) (nodeIovec h' 0 node) node.type
  /-- The C string cache. -/
  cstr : b.cacheAvailable = true → b'.cstr = b.cstr.map (wholeCstr · pos len newLen)
  /-- Nobody tells it anything when caches are off. -/
  cstrOff : b.cacheAvailable = false → b'.cstr = b.cstr

theorem setNode_eq (hns : b.nodes = pre ++ n :: post) (hd : (b.nodes.map Node.id).Nodup)
    (node : Node) : b.setNode n.id node = { b with nodes := pre ++ node :: post } := by
  unfold Base.setNode
  rw [indexOf_of_eq hns hd, hns, set_of_eq]

/-- The shortened base. -/
theorem shortBase_spec (hns : b.nodes = pre ++ n :: post) (hd : (b.nodes.map Node.id).Nodup)
    (pos len newLen : Nat) :
    (shortBase b n pos (len - newLen)).core = { b with
        nodes := pre ++ { n with len := n.len - (len - newLen) } :: post
        len := b.len - (len - newLen) }.core ∧
      (b.cacheAvailable = true → (shortBase b n pos (len - newLen)).posData =
        if newLen < len then cachePosCb pos .del b.posData else b.posData) ∧
      (shortBase b n pos (len - newLen)).iovecUptoDate = b.iovecUptoDate ∧
      (shortBase b n pos (len - newLen)).vec = b.vec ∧
      (b.cacheAvailable = true → (shortBase b n pos (len - newLen)).cstr =
        b.cstr.map fun data =>
          if newLen < len then cacheCstrCb pos (len - newLen) .del data else data) ∧
      (b.cacheAvailable = false → (shortBase b n pos (len - newLen)).cstr = b.cstr) := by
  unfold shortBase
  by_cases hlt : newLen < len
  · have hne : len - newLen ≠ 0 := by omega
    rw [if_pos hne, setNode_eq hns hd]
    refine ⟨core_cacheDel _ _ _, ?_, ?_, ?_, ?_, ?_⟩
    · intro hav
      simp only [cacheDel, hav, if_true, cacheCbs, if_pos hlt]
    · unfold cacheDel
      split <;> rfl
    · unfold cacheDel
      split <;> rfl
    · intro hav
      simp only [cacheDel, hav, if_true, cacheCbs, if_pos hlt]
    · intro hav
      simp only [cacheDel, hav, Bool.false_eq_true, if_false]
  · have h0 : len - newLen = 0 := by omega
    rw [h0, if_neg (by simp)]
    refine ⟨?_, fun _ => by rw [if_neg hlt], rfl, rfl, fun _ => ?_, fun _ => rfl⟩
    · rw [Nat.sub_zero, Nat.sub_zero]
      simp only [Base.core, hns]
    · simp only [if_neg hlt]
      rw [Option.map_id']

/-- Storing the vector of a node without used bytes. -/
theorem vec_cacheIovecResetNode (hv : b.iovecUptoDate = true) (hu : pre = [] → b.used = 0)
    (h : Heap) (node : Node) :
    (cacheIovecResetNode h b node (pre.length + 1)).vec = b.vec.map fun vec =>
      vec.set (vec.off + pre.length) (nodeIovec h 0 node) node.type := by
  have h0 : (if pre.length + 1 = 1 then b.used else 0) = 0 := by
    split
    · rename_i e
      exact hu (List.length_eq_zero_iff.mp (by omega))
    · rfl
  unfold cacheIovecResetNode
  rw [if_pos hv]
  dsimp only
  rw [h0]
  rfl

theorem iovecUptoDate_cacheIovecResetNode (h : Heap) (b : Base) (node : Node) (num : Nat) :
    (cacheIovecResetNode h b node num).iovecUptoDate = b.iovecUptoDate := by
  unfold cacheIovecResetNode
  split <;> rfl

/-- The base between the callbacks, once the node is replaced. -/
structure Midway (h' : Heap) (b b₂ : Base) (pos len newLen : Nat) (pre : List Node)
    (n node : Node) (post : List Node) : Prop where
  /-- The structure. -/
  core : b₂.core = (wholeBase b pre node post len (min len newLen)).core
  /-- The position cache. -/
  posData : b.cacheAvailable = true → b₂.posData =
    let d₁ := if newLen < len then cachePosCb pos .del b.posData else b.posData
    if d₁.node = some n.id then
      { d₁ with node := if min len newLen ≥ n.len - (len - newLen) then some node.id else none }
    else d₁
  /-- The vectors are as good as they were. -/
  iovecUptoDate : b₂.iovecUptoDate = b.iovecUptoDate
  /-- The vector of the node. -/
  vec : b.iovecUptoDate = true → b₂.vec = b.vec.map fun vec =>
    vec.set (vec.off + pre.length) (nodeIovec h' 0 node) node.type
  /-- The C string cache. -/
  cstr : b.cacheAvailable = true → b₂.cstr = b.cstr.map fun data =>
    if newLen < len then cacheCstrCb pos (len - newLen) .del data else data
  /-- Nobody tells it anything when caches are off. -/
  cstrOff : b.cacheAvailable = false → b₂.cstr = b.cstr

/-- A node of the type of the data. -/
theorem midway_same {bufSz : Nat} (v : Valid bufSz b) (hd : (b.nodes.map Node.id).Nodup)
    (lp : LivePart b pos len pre n post) (h : Heap) {data : Payload}
    (hty : Node.type ⟨n.id, min len newLen, data⟩ = n.type) (hbuf : n.data ≠ .buf) :
    Midway h b (cacheIovecResetNode h
      ((shortBase b n pos (len - newLen)).setNode n.id ⟨n.id, min len newLen, data⟩)
      ⟨n.id, min len newLen, data⟩ (pre.length + 1)) pos len newLen pre n
      ⟨n.id, min len newLen, data⟩ post := by
  obtain ⟨hcore, hpos, hup, hvec, hcstr, hoff⟩ := shortBase_spec lp.nodes hd pos len newLen
  have hn : n ∈ b.nodes := by rw [lp.nodes]; simp
  have hused : pre = [] → b.used = 0 := by
    intro e
    by_contra h0
    obtain ⟨m, ms, hm, hmd, -⟩ := v.used h0
    rw [lp.nodes, e] at hm
    cases hm
    exact hbuf hmd
  obtain ⟨h1, -, h2⟩ := lp.range v
  have hns : (shortBase b n pos (len - newLen)).nodes =
      pre ++ { n with len := n.len - (len - newLen) } :: post := nodes_of_core hcore
  have hd' : ((shortBase b n pos (len - newLen)).nodes.map Node.id).Nodup := by
    rw [hns]
    rw [lp.nodes] at hd
    simpa using hd
  have hset := setNode_eq hns hd' ⟨n.id, min len newLen, data⟩
  dsimp only at hset
  rw [hset]
  have hnv := noVec_cacheIovecResetNode h { shortBase b n pos (len - newLen) with
      nodes := pre ++ ⟨n.id, min len newLen, data⟩ :: post } ⟨n.id, min len newLen, data⟩
      (pre.length + 1)
  refine ⟨?_, fun hav => ?_, ?_, fun hv => ?_, fun hav => ?_, fun hav => ?_⟩
  · rw [core_of_noVec hnv]
    have hend := v.endNode
    rw [lp.nodes] at hend
    have hflag := v.flags n hn
    have hnu : Function.update b.nodeUsed n.type true = b.nodeUsed := by
      rw [← hflag]
      exact Function.update_eq_self _ _
    simp only [Base.core, Base.mk.injEq] at hcore
    obtain ⟨e1, -, e3, e4, e5, e6, -, e8, -, e10, -, -, -, e14⟩ := hcore
    simp only [Base.core, wholeBase, Base.mk.injEq]
    refine ⟨?_, trivial, ?_, e4, e5, ?_, trivial, e8, trivial, ?_, trivial, trivial, trivial, e14⟩
    · rw [e1]
      omega
    · rw [e3]
      split
      · rename_i e
        rw [hend, e]
        simp
      · rfl
    · rw [e6]
      split
      · rename_i e
        exact hused e
      · rfl
    · rw [e10, hty, hnu]
  · rw [posData_of_noVec hnv]
    dsimp only
    rw [hpos hav]
    have hle : min len newLen ≥ n.len - (len - newLen) := by
      have := lp.len
      have hu : usedOf b pre = 0 := by
        unfold usedOf
        split
        · rename_i e
          exact hused e
        · rfl
      omega
    rw [if_pos hle]
    generalize (if newLen < len then cachePosCb pos .del b.posData else b.posData) = d
    split
    · rename_i e
      rw [← e]
    · rfl
  · rw [iovecUptoDate_cacheIovecResetNode]
    exact hup
  · rw [vec_cacheIovecResetNode (by exact hup.trans hv) (fun e => by
      exact (used_of_core hcore).trans (hused e))]
    dsimp only
    rw [hvec]
  · rw [cstr_of_noVec hnv]
    exact hcstr hav
  · rw [cstr_of_noVec hnv]
    exact hoff hav

/-- A scan from the first node finds the node a byte is in. -/
theorem basePtrPos_eq (hns : b.nodes = pre ++ n :: post) (h1 : lens pre < pos + b.used)
    (h2 : pos + b.used ≤ lens pre + n.len) :
    (basePtrPos b pos).idx = pre.length ∧ (basePtrPos b pos).num = pre.length + 1 := by
  obtain ⟨m, ms, hm⟩ : ∃ m ms, b.nodes = m :: ms := by
    rw [hns]
    cases pre with
    | nil => exact ⟨_, _, rfl⟩
    | cons x xs => exact ⟨_, _, rfl⟩
  have hle : pos + b.used ≤ lens b.nodes := by
    rw [hns, lens_append, lens_cons]
    omega
  have hm' : b.nodes = [] ++ m :: ms := hm
  obtain ⟨pre', n', post', hat, hnum⟩ := scanFrom_spec (f := ⟨0, pos + b.used, 1⟩) hm'
    rfl (by simp) (by dsimp only; omega) hle
  have hp := hat.pos
  have ho := hat.one_le
  have hl := hat.le_len
  obtain ⟨rfl, rfl, rfl⟩ := node_unique (p := pos + b.used) (hns.symm.trans hat.nodes) h1 h2
    (by omega) (by omega)
  exact ⟨hat.idx, hnum rfl⟩

/-- A node from the spare list. -/
theorem midway_swap {bufSz : Nat} (v : Valid bufSz b) (hd : (b.nodes.map Node.id).Nodup)
    (lp : LivePart b pos len pre n post) (h : Heap) (hnew : 0 < newLen) {id : Nat}
    {data : Payload} (hty : Node.type ⟨id, min len newLen, data⟩ = .ptr ∨
      Node.type ⟨id, min len newLen, data⟩ = .ref) :
    (swapNode ⟨h, shortBase b n pos (len - newLen)⟩ pos ⟨id, min len newLen, data⟩).heap =
        relinkNodes h b.conf [n] ∧
      Midway (relinkNodes h b.conf [n]) b
        (swapNode ⟨h, shortBase b n pos (len - newLen)⟩ pos ⟨id, min len newLen, data⟩).base
        pos len newLen pre n ⟨id, min len newLen, data⟩ post := by
  obtain ⟨hcore, hpos, hup, hvec, hcstr, hoff⟩ := shortBase_spec lp.nodes hd pos len newLen
  have hns : (shortBase b n pos (len - newLen)).nodes =
      pre ++ { n with len := n.len - (len - newLen) } :: post := nodes_of_core hcore
  have hu : (shortBase b n pos (len - newLen)).used = b.used := (used_of_core hcore :)
  have hconf : (shortBase b n pos (len - newLen)).conf = b.conf := (conf_of_core hcore :)
  have hav' : (shortBase b n pos (len - newLen)).cacheAvailable = b.cacheAvailable :=
    (cacheAvailable_of_core hcore :)
  obtain ⟨h1, hlen, h2⟩ := lp.range v
  have hlp := lp.pos
  have hll := lp.len
  have hb₁ : lens pre < pos + (shortBase b n pos (len - newLen)).used := by rw [hu]; omega
  obtain ⟨hidx, hnum⟩ := basePtrPos_eq hns hb₁ (by rw [hu]; dsimp only; omega)
  have hnode := node_of_eq hns
  have hset : (shortBase b n pos (len - newLen)).nodes.set pre.length
      ⟨id, min len newLen, data⟩ = pre ++ ⟨id, min len newLen, data⟩ :: post := by
    rw [hns, set_of_eq]
  have hlast : pre.length + 1 < (shortBase b n pos (len - newLen)).nodes.length ↔ post ≠ [] := by
    rw [hns, List.length_append, List.length_cons, ← List.length_pos_iff]
    omega
  have hzero : pre.length = 0 ↔ pre = [] := List.length_eq_zero_iff
  unfold swapNode
  dsimp only
  rw [hidx, hnum, hnode, hset, hconf, hav']
  simp only [hlast, hzero, if_pos hty, ite_not, ne_eq]
  have hrel : relinkNodes h b.conf [{ n with len := n.len - (len - newLen) }] =
      relinkNodes h b.conf [n] := rfl
  rw [hrel]
  refine ⟨rfl, ?_⟩
  generalize hb₂ : ({ shortBase b n pos (len - newLen) with
    conf := b.conf
    cacheAvailable := b.cacheAvailable
    nodes := pre ++ ⟨id, min len newLen, data⟩ :: post
    endNode := if post = [] then some id else (shortBase b n pos (len - newLen)).endNode
    used := if pre = [] then 0 else (shortBase b n pos (len - newLen)).used
    posData := if b.cacheAvailable = true ∧
        (shortBase b n pos (len - newLen)).posData.node = some n.id then
        { (shortBase b n pos (len - newLen)).posData with
          node := if min len newLen ≥ n.len - (len - newLen) then some id else none }
      else (shortBase b n pos (len - newLen)).posData
    nodeUsed := Function.update (shortBase b n pos (len - newLen)).nodeUsed
      (Node.type ⟨id, min len newLen, data⟩) true } : Base) = b₂
  have hnv := noVec_cacheIovecResetNode (relinkNodes h b.conf [n]) b₂
    ⟨id, min len newLen, data⟩ (pre.length + 1)
  refine ⟨?_, fun hav => ?_, ?_, fun hv => ?_, fun hav => ?_, fun hav => ?_⟩
  · rw [core_of_noVec hnv, ← hb₂]
    simp only [Base.core, Base.mk.injEq] at hcore
    obtain ⟨e1, -, e3, e4, e5, e6, -, e8, -, e10, -, -, -, e14⟩ := hcore
    simp only [Base.core, wholeBase, Base.mk.injEq]
    refine ⟨?_, trivial, by rw [e3], e4, trivial, by rw [e6], trivial, trivial, trivial,
      by rw [e10], trivial, trivial, trivial, e14⟩
    rw [e1]
    omega
  · rw [posData_of_noVec hnv, ← hb₂]
    dsimp only
    rw [hpos hav]
    simp only [hav, true_and]
  · rw [iovecUptoDate_cacheIovecResetNode, ← hb₂]
    exact hup
  · rw [vec_cacheIovecResetNode (by rw [← hb₂]; exact hup.trans hv) (fun e => by
      rw [← hb₂]
      dsimp only
      rw [if_pos e])]
    rw [← hb₂]
    dsimp only
    rw [hvec]
  · rw [cstr_of_noVec hnv, ← hb₂]
    exact hcstr hav
  · rw [cstr_of_noVec hnv, ← hb₂]
    exact hoff hav

/-- The base once the callbacks know of the substitution and what is added. -/
def grownBase (h' : Heap) (b : Base) (pos len newLen num : Nat) (node : Node) : Base :=
  if newLen > len then
    cacheAdd (cacheIovecResetNode h'
      { (cacheCbSub b pos newLen).setNode node.id node with
        len := (cacheCbSub b pos newLen).len + (newLen - len) } node num) pos (newLen - len)
  else cacheCbSub b pos newLen

theorem cachePosCb_sub (pos : Nat) (d : PosData) : cachePosCb pos .sub d = d := by
  unfold cachePosCb
  simp

theorem cacheCbSub_fields (b : Base) (pos len : Nat) :
    (cacheCbSub b pos len).posData = b.posData ∧
      (cacheCbSub b pos len).iovecUptoDate = b.iovecUptoDate ∧
      (cacheCbSub b pos len).vec = b.vec ∧
      (b.cacheAvailable = true →
        (cacheCbSub b pos len).cstr = b.cstr.map (cacheCstrCb pos len .sub)) ∧
      (b.cacheAvailable = false → (cacheCbSub b pos len).cstr = b.cstr) := by
  unfold cacheCbSub
  split
  · rename_i hav
    exact ⟨cachePosCb_sub _ _, rfl, rfl, fun _ => rfl, fun h => by rw [hav] at h; cases h⟩
  · rename_i hav
    exact ⟨rfl, rfl, rfl, fun h => absurd h hav, fun _ => rfl⟩

theorem cacheAdd_fields (b : Base) (pos len : Nat) :
    (cacheAdd b pos len).iovecUptoDate = b.iovecUptoDate ∧ (cacheAdd b pos len).vec = b.vec ∧
      (b.cacheAvailable = true → (cacheAdd b pos len).posData = cachePosCb pos .add b.posData ∧
        (cacheAdd b pos len).cstr = b.cstr.map (cacheCstrCb pos len .add)) ∧
      (b.cacheAvailable = false → (cacheAdd b pos len).cstr = b.cstr) := by
  unfold cacheAdd
  split
  · rename_i hav
    exact ⟨rfl, rfl, fun _ => ⟨rfl, rfl⟩, fun h => by rw [hav] at h; cases h⟩
  · rename_i hav
    exact ⟨rfl, rfl, fun h => absurd h hav, fun _ => rfl⟩

theorem IovecData.set_set (d : IovecData) (i : Nat) (x y : Iovec) (t u : NodeType) :
    (d.set i x t).set i y u = d.set i y u := by
  simp only [IovecData.set, Function.update_idem]

theorem Midway.swapped {b₂ : Base} {id : Nat} {data : Payload}
    (m : Midway h' b b₂ pos len newLen pre n ⟨id, min len newLen, data⟩ post)
    (hd : ((pre ++ ⟨id, min len newLen, data⟩ :: post).map Node.id).Nodup) :
    Swapped h' b (grownBase h' b₂ pos len newLen (pre.length + 1) ⟨id, newLen, data⟩) pos len
      newLen pre n ⟨id, newLen, data⟩ post := by
  obtain ⟨sp, si, sv, sc, soff⟩ := cacheCbSub_fields b₂ pos newLen
  have hav₂ : b₂.cacheAvailable = b.cacheAvailable := (cacheAvailable_of_core m.core :)
  have hcs := core_cacheCbSub b₂ pos newLen
  unfold grownBase
  split
  · rename_i hgt
    have hmin : min len newLen = len := by omega
    have hns : (cacheCbSub b₂ pos newLen).nodes =
        pre ++ ⟨id, min len newLen, data⟩ :: post :=
      (nodes_of_core hcs).trans (nodes_of_core m.core :)
    have hset := setNode_eq hns (by rw [hns]; exact hd) ⟨id, newLen, data⟩
    dsimp only at hset ⊢
    rw [hset]
    generalize hb₃ : ({ cacheCbSub b₂ pos newLen with
      nodes := pre ++ ⟨id, newLen, data⟩ :: post
      len := (cacheCbSub b₂ pos newLen).len + (newLen - len) } : Base) = b₃
    have hnv := noVec_cacheIovecResetNode h' b₃ ⟨id, newLen, data⟩ (pre.length + 1)
    obtain ⟨ai, avec, aav, aoff⟩ := cacheAdd_fields
      (cacheIovecResetNode h' b₃ ⟨id, newLen, data⟩ (pre.length + 1)) pos (newLen - len)
    have hcore₃ : b₃.core = (wholeBase b pre ⟨id, newLen, data⟩ post len newLen).core := by
      have e := hcs.trans m.core
      simp only [Base.core, wholeBase, Base.mk.injEq] at e
      obtain ⟨e1, -, e3, e4, e5, e6, -, e8, -, e10, -, -, -, e14⟩ := e
      rw [← hb₃]
      simp only [Base.core, wholeBase, Base.mk.injEq]
      refine ⟨?_, trivial, e3, e4, e5, e6, trivial, e8, trivial, e10, trivial, trivial, trivial,
        e14⟩
      rw [e1]
      omega
    have hav₃ : (cacheIovecResetNode h' b₃ ⟨id, newLen, data⟩
        (pre.length + 1)).cacheAvailable = b.cacheAvailable := by
      have e : (cacheIovecResetNode h' b₃ ⟨id, newLen, data⟩ (pre.length + 1)).cacheAvailable =
          b₃.cacheAvailable := (congrArg Base.cacheAvailable hnv :)
      rw [e, cacheAvailable_of_core hcore₃]
      rfl
    refine ⟨?_, fun hav => ?_, ?_, fun hv => ?_, fun hav => ?_, fun hav => ?_⟩
    · rw [core_cacheAdd, core_of_noVec hnv]
      exact hcore₃
    · rw [(aav (hav₃.trans hav)).1, posData_of_noVec hnv, ← hb₃]
      dsimp only
      rw [sp, m.posData hav]
      unfold wholePos
      dsimp only
      rw [if_pos (show len < newLen from hgt)]
    · rw [ai, iovecUptoDate_cacheIovecResetNode, ← hb₃]
      exact si.trans m.iovecUptoDate
    · rw [avec, vec_cacheIovecResetNode]
      · rw [← hb₃]
        dsimp only
        rw [sv, m.vec hv, Option.map_map]
        congr 1
        funext vec
        exact IovecData.set_set vec _ _ _ _ _
      · rw [← hb₃]
        exact si.trans (m.iovecUptoDate.trans hv)
      · intro e
        rw [used_of_core hcore₃]
        simp only [wholeBase, if_pos e]
    · rw [(aav (hav₃.trans hav)).2, cstr_of_noVec hnv, ← hb₃]
      dsimp only
      rw [sc (hav₂.trans hav), m.cstr hav, Option.map_map, Option.map_map]
      congr 1
      funext d
      simp only [Function.comp, wholeCstr, if_pos (show len < newLen from hgt)]
    · rw [aoff (hav₃.trans hav), cstr_of_noVec hnv, ← hb₃]
      exact (soff (hav₂.trans hav)).trans (m.cstrOff hav)
  · rename_i hle
    have hmin : min len newLen = newLen := by omega
    have hcore := m.core
    rw [hmin] at m hcore
    refine ⟨hcs.trans hcore, fun hav => ?_, si.trans m.iovecUptoDate, fun hv => ?_, fun hav => ?_,
      fun hav => (soff (hav₂.trans hav)).trans (m.cstrOff hav)⟩
    · rw [sp, m.posData hav]
      unfold wholePos
      dsimp only
      rw [if_neg (show ¬ len < newLen from hle)]
    · rw [sv, m.vec hv]
    · rw [sc (hav₂.trans hav), m.cstr hav, Option.map_map]
      congr 1
      funext d
      simp only [Function.comp, wholeCstr, if_neg (show ¬ len < newLen from hle)]

/-! ## The structure and the position cache -/

theorem valid_wholeBase {bufSz : Nat} (v : Valid bufSz b) (lp : LivePart b pos len pre n post)
    (hlen : node.len = newLen) (h1 : 0 < newLen) (h2 : newLen ≤ maxNodeAll)
    (hty : node.type ≠ .buf) : Valid bufSz (wholeBase b pre node post len newLen) := by
  have hv := v.len
  rw [lp.nodes, lens_append, lens_cons] at hv
  obtain ⟨h3, h4, h5⟩ := lp.range v
  have hll := lp.len
  have hmem : ∀ m ∈ pre ++ node :: post, m ∈ b.nodes ∨ m = node := by
    intro m hm
    rw [lp.nodes]
    simp only [List.mem_append, List.mem_cons] at hm ⊢
    rcases hm with hm | hm | hm
    · exact .inl (.inl hm)
    · exact .inr hm
    · exact .inl (.inr (.inr hm))
  refine ⟨?_, ?_, ?_, fun m hm => ?_, fun h0 => ?_, fun m hm => ?_, fun m hm hb => ?_,
    fun m hm => ?_⟩
  · simp only [wholeBase, lens_append, lens_cons, hlen]
    unfold usedOf at hll
    split <;> rename_i e <;> simp only [e, if_true, if_false] at hll
    · rw [e, lens_nil] at hv ⊢
      omega
    · omega
  · have hnum := v.num
    rw [lp.nodes, List.length_append, List.length_cons] at hnum
    simp only [wholeBase, List.length_append, List.length_cons, hnum]
  · have hend := v.endNode
    rw [lp.nodes] at hend
    simp only [wholeBase]
    cases post with
    | nil => simp
    | cons x xs =>
      rw [if_neg (by simp), hend]
      simp
  · rcases hmem m hm with hm | rfl
    · exact v.pos m hm
    · omega
  · simp only [wholeBase] at h0 ⊢
    cases pre with
    | nil => exact absurd rfl h0
    | cons x xs =>
      obtain ⟨m, ms, hm, hd, hlt⟩ := v.used (by simpa using h0)
      rw [lp.nodes, List.cons_append, List.cons.injEq] at hm
      exact ⟨x, _, rfl, by rw [hm.1]; exact hd, by rw [hm.1]; simpa using hlt⟩
  · simp only [wholeBase, Function.update_apply]
    split
    · rfl
    · rename_i hne
      rcases hmem m hm with hm | rfl
      · exact v.flags m hm
      · exact absurd rfl hne
  · rcases hmem m hm with hm | rfl
    · exact v.buf m hm hb
    · exact absurd hb hty
  · rcases hmem m hm with hm | rfl
    · exact v.max m hm
    · omega

/-- A callback keeps what is cached, or nothing. -/
theorem cachePosCb_cases (pos : Nat) (type : CacheType) (d : PosData) :
    (cachePosCb pos type d = d ∧ (d.node ≠ none → type = .add → d.pos ≤ pos) ∧
        (d.node ≠ none → type = .del → d.pos < pos)) ∨
      (cachePosCb pos type d).node = none := by
  unfold cachePosCb
  split
  · rename_i h0
    exact .inl ⟨rfl, fun h => absurd h0 h, fun h => absurd h0 h⟩
  · split
    · rename_i h1
      exact .inl ⟨rfl, fun _ _ => h1.2, fun _ h => by rw [h1.1] at h; cases h⟩
    · split
      · rename_i h1
        exact .inl ⟨rfl, fun _ h => by (rw [h1.1] at h; cases h), fun _ _ => h1.2⟩
      · split
        · rename_i h1
          exact .inl ⟨rfl, fun _ h => by (rw [h1] at h; cases h),
            fun _ h => by (rw [h1] at h; cases h)⟩
        · exact .inr rfl

/-- What stays cached is what was, under its new name. -/
theorem wholePos_cases (d : PosData) (n node : Node) (pos len newLen : Nat) {j : Nat}
    (hj : (wholePos d n node pos len newLen).node = some j) :
    ∃ i, d.node = some i ∧ j = (if i = n.id then node.id else i) ∧
      (wholePos d n node pos len newLen).pos = d.pos ∧
      (wholePos d n node pos len newLen).num = d.num ∧ (newLen < len → d.pos < pos) ∧
      (len < newLen → d.pos ≤ pos) := by
  have hshort : ∃ d₁, d₁ = (if newLen < len then cachePosCb pos .del d else d) ∧
      (d₁ = d ∧ (d.node ≠ none → newLen < len → d.pos < pos) ∨ d₁.node = none) := by
    refine ⟨_, rfl, ?_⟩
    split
    · rcases cachePosCb_cases pos .del d with ⟨e, -, hlt⟩ | e
      · exact .inl ⟨e, fun hne _ => hlt hne rfl⟩
      · exact .inr e
    · rename_i hge
      exact .inl ⟨rfl, fun _ h => absurd h hge⟩
  obtain ⟨d₁, hd₁, hcase⟩ := hshort
  unfold wholePos at hj ⊢
  dsimp only at hj ⊢
  rw [← hd₁] at hj ⊢
  generalize hd₂ : (if d₁.node = some n.id then
      { d₁ with node := if min len newLen ≥ n.len - (len - newLen) then some node.id else none }
    else d₁) = d₂ at hj ⊢
  have hkeep : ∃ d₃, d₃ = (if len < newLen then cachePosCb pos .add d₂ else d₂) ∧
      (d₃ = d₂ ∧ (d₂.node ≠ none → len < newLen → d₂.pos ≤ pos) ∨ d₃.node = none) := by
    refine ⟨_, rfl, ?_⟩
    split
    · rcases cachePosCb_cases pos .add d₂ with ⟨e, hlt, -⟩ | e
      · exact .inl ⟨e, fun hne _ => hlt hne rfl⟩
      · exact .inr e
    · rename_i hge
      exact .inl ⟨rfl, fun _ h => absurd h hge⟩
  obtain ⟨d₃, hd₃, ⟨e₃, hle⟩ | e₃⟩ := hkeep
  · rw [← hd₃, e₃] at hj ⊢
    have hne₂ : d₂.node ≠ none := by
      rw [hj]
      simp
    rcases hcase with ⟨e₁, hlt⟩ | e₁
    · rw [e₁] at hd₂
      split at hd₂
      · rename_i hn
        rw [← hd₂] at hj hle ⊢
        dsimp only at hj hle ⊢
        refine ⟨n.id, hn, ?_, rfl, rfl, hlt (by rw [hn]; simp), ?_⟩
        · rw [if_pos rfl]
          split at hj
          · exact (Option.some.inj hj).symm
          · cases hj
        · exact hle (by rw [hj]; simp)
      · rename_i hn
        rw [← hd₂] at hj hle ⊢
        refine ⟨j, hj, ?_, rfl, rfl, hlt (by rw [hj]; simp), hle (by rw [hj]; simp)⟩
        rw [if_neg]
        rintro rfl
        exact hn hj
    · rw [if_neg (by rw [e₁]; simp)] at hd₂
      rw [← hd₂] at hne₂
      exact absurd e₁ hne₂
  · rw [← hd₃, e₃] at hj
    cases hj

/-- The position cache follows the node. -/
theorem Swapped.posOk {bufSz : Nat} (sw : Swapped h' b b' pos len newLen pre n node post)
    (v : Valid bufSz b) (hd : (b.nodes.map Node.id).Nodup) (pk : PosOk q b)
    (lp : LivePart b pos len pre n post) (hlen : node.len = newLen) : PosOk q b' := by
  have hns : b'.nodes = pre ++ node :: post := (nodes_of_core sw.core :)
  have hu : b'.used = if pre = [] then 0 else b.used := (used_of_core sw.core :)
  have hav : b'.cacheAvailable = b.cacheAvailable := (cacheAvailable_of_core sw.core :)
  have hll := lp.len
  have hlp := lp.pos
  unfold usedOf at hll hlp
  intro j hj hc
  rw [hav] at hc
  rw [sw.posData hc] at hj
  obtain ⟨i, hi, hjn, hp, hm, hshort, hlong⟩ := wholePos_cases b.posData n node pos len newLen hj
  obtain ⟨h1, k, a, hk, hs, hq⟩ := pk i hi hc
  rw [sw.posData hc, hp, hm, hns, hu, hjn]
  refine ⟨h1, ?_⟩
  obtain ⟨pre', x, post', e, hx, hpre', ha⟩ := hs
  by_cases he : i = n.id
  · obtain ⟨e₁, -, -⟩ := split_unique (lp.nodes.symm.trans e) (hx.trans he) (lp.nodes ▸ hd)
    rw [e₁] at hpre' ha
    refine ⟨k, a, ?_, ⟨pre, node, post, rfl, ?_, hpre', ha⟩, hq⟩
    · split
      · rename_i e'
        rw [e', lens_nil] at hpre'
        omega
      · exact hk
    · rw [if_pos he]
  · rw [if_neg he]
    have hs : Sits (pre ++ n :: post) i k a :=
      ⟨pre', x, post', lp.nodes.symm.trans e, hx, hpre', ha⟩
    simp only [sits_append, sits_cons] at hs ⊢
    rcases hs with hs | ⟨k', a', rfl, rfl, ⟨he', -, -⟩ | ⟨k'', a'', rfl, rfl, hs⟩⟩
    · refine ⟨k, a, ?_, .inl hs, hq⟩
      rw [if_neg]
      · exact hk
      · rintro rfl
        obtain ⟨pre₁, x₁, post₁, e₁, -⟩ := hs
        simp at e₁
    · exact absurd he'.symm he
    · refine ⟨_, _, ?_, .inr ⟨_, _, rfl, rfl, .inr ⟨k'', a'', rfl, rfl, hs⟩⟩, hq⟩
      have hpos := v.usedOf_lt lp.nodes
      unfold usedOf at hpos
      rw [hlen]
      split <;> rename_i e' <;> simp only [e', if_true, if_false] at hll hlp hpos
      · simp only [e', lens_nil] at hk hlp ⊢
        by_cases h3 : newLen < len
        · have := hshort h3
          omega
        · by_cases h4 : len < newLen
          · have := hlong h4
            omega
          · omega
      · by_cases h3 : newLen < len
        · have := hshort h3
          omega
        · by_cases h4 : len < newLen
          · have := hlong h4
            omega
          · omega

/-! ## The vectors -/

theorem Swapped.iovecOk (sw : Swapped h' b b' pos len newLen pre n node post)
    (iv : IovecOk ⟨h, b⟩) (lp : LivePart b pos len pre n post)
    (hptr : ∀ r, (h'.refs r).ptr = (h.refs r).ptr) : IovecOk ⟨h', b'⟩ := by
  have hns : b'.nodes = pre ++ node :: post := (nodes_of_core sw.core :)
  have hu : b'.used = if pre = [] then 0 else b.used := (used_of_core sw.core :)
  have hnum : b'.num = b.num := (congrArg Base.num sw.core :)
  have hexp : ∀ m, exportNodePtr h' m = exportNodePtr h m := by
    intro m
    unfold exportNodePtr
    split
    · rfl
    · rfl
    · rfl
    · rw [hptr]
  intro hup _
  have hup' : b.iovecUptoDate = true := sw.iovecUptoDate.symm.trans hup
  obtain ⟨vec, hvec, hsz, hall⟩ := iv hup' (by simp [lp.nodes])
  dsimp only at hvec hsz hall ⊢
  refine ⟨vec.set (vec.off + pre.length) (nodeIovec h' 0 node) node.type, ?_, ?_, ?_⟩
  · rw [sw.vec hup', hvec]
    rfl
  · rw [hnum]
    exact hsz
  · intro i m hm
    rw [hns] at hm
    by_cases hi : i = pre.length
    · subst hi
      have hmn : node = m := by simpa using hm
      subst hmn
      have h0 : (if pre.length = 0 then b'.used else 0) = 0 := by
        split
        · rename_i e
          rw [hu, if_pos (List.length_eq_zero_iff.mp e)]
        · rfl
      rw [h0]
      simp [IovecData.set]
    · have hm' : b.nodes[i]? = some m := by
        rw [lp.nodes]
        rcases Nat.lt_or_ge i pre.length with hlt | hge
        · rw [List.getElem?_append_left hlt] at hm ⊢
          exact hm
        · rw [List.getElem?_append_right hge] at hm ⊢
          obtain ⟨j, hj⟩ : ∃ j, i - pre.length = j + 1 := ⟨i - pre.length - 1, by omega⟩
          rw [hj, List.getElem?_cons_succ] at hm ⊢
          exact hm
      obtain ⟨hv, ht⟩ := hall i m hm'
      have hne : vec.off + i ≠ vec.off + pre.length := by omega
      have hused : (if i = 0 then b'.used else 0) = if i = 0 then b.used else 0 := by
        split
        · rename_i h0
          rw [hu, if_neg]
          rintro rfl
          exact hi h0
        · rfl
      rw [hused]
      refine ⟨?_, ?_⟩
      · change Function.update vec.v _ _ (vec.off + i) = _
        rw [Function.update_of_ne hne, hv]
        unfold nodeIovec
        rw [hexp]
      · change Function.update vec.t _ _ (vec.off + i) = _
        rw [Function.update_of_ne hne, ht]

/-! ## The C string cache -/

/-- A substitution leaves a cached slice that is apart from it, or none. -/
theorem cacheCstrCb_sub {data : CstrData} {m : Nat} (hr : data.ref ≠ none)
    (hne : (cacheCstrCb pos m .sub data).len ≠ 0) :
    data.len ≠ 0 ∧ cacheCstrCb pos m .sub data = data ∧
      (data.pos + data.len ≤ pos ∨ pos + m ≤ data.pos) := by
  unfold cacheCstrCb at hne ⊢
  dsimp only at hne ⊢
  split at hne
  · rename_i h0
    rcases h0 with h0 | h0
    · exact absurd h0 hr
    · exact absurd h0 hne
  · rename_i h0
    rw [if_neg h0]
    have hlen : data.len ≠ 0 := fun h => h0 (.inr h)
    split at hne
    · rename_i h1
      rw [if_pos h1]
      unfold scPoslast at h1
      exact ⟨hlen, rfl, .inl (by omega)⟩
    · rename_i h1
      rw [if_neg h1]
      simp only [reduceCtorEq, false_and, if_false, ne_eq, not_false_eq_true, true_and] at hne ⊢
      split at hne
      · rename_i h2
        rw [if_pos h2]
        unfold scPoslast at h2
        exact ⟨hlen, rfl, .inr (by omega)⟩
      · exact absurd rfl hne

/-- An insertion leaves a slice in front of it. -/
theorem cacheCstrCb_add_front {data : CstrData} {m : Nat}
    (hle : data.pos + data.len ≤ pos) : cacheCstrCb pos m .add data = data := by
  unfold cacheCstrCb scPoslast
  dsimp only
  split
  · rfl
  · rw [if_pos (by omega)]

/-- An insertion moves a slice behind it. -/
theorem cacheCstrCb_add_behind {data : CstrData} {m : Nat} (hr : data.ref ≠ none)
    (hlen : data.len ≠ 0) (hlt : pos < data.pos) :
    cacheCstrCb pos m .add data = { data with pos := data.pos + m } := by
  unfold cacheCstrCb scPoslast
  dsimp only
  rw [if_neg (by rintro (h | h) <;> contradiction), if_neg (by omega), if_neg (by omega),
    if_pos ⟨rfl, hlt⟩]

/-- What the callbacks of the whole substitution leave: a slice in front of it, or one
behind it that moved. -/
theorem wholeCstr_cases {data : CstrData} (hr : data.ref ≠ none) (h1 : 0 < newLen)
    (hne : (wholeCstr data pos len newLen).len ≠ 0) :
    data.len ≠ 0 ∧ ∃ p, wholeCstr data pos len newLen = { data with pos := p } ∧
      ((data.pos + data.len ≤ pos ∧ p = data.pos) ∨
        (pos + len ≤ data.pos ∧ p = data.pos - len + newLen)) := by
  unfold wholeCstr at hne ⊢
  dsimp only at hne ⊢
  by_cases hlt : newLen < len
  · have hge : ¬ len < newLen := by omega
    rw [if_pos hlt, if_neg hge] at hne ⊢
    have hr₁ : (cacheCstrCb pos (len - newLen) .del data).ref ≠ none := by
      rw [cacheCstrCb_ref]
      exact hr
    obtain ⟨hl₁, e₁, hcase⟩ := cacheCstrCb_sub hr₁ hne
    rw [e₁]
    rw [cacheCstrCb_del] at hl₁ hcase ⊢
    by_cases h0 : data.ref = none ∨ data.len = 0
    · rw [if_pos h0] at hl₁
      rcases h0 with h0 | h0
      · exact absurd h0 hr
      · exact absurd h0 hl₁
    · rw [if_neg h0] at hl₁ hcase ⊢
      have hlen : data.len ≠ 0 := fun h => h0 (.inr h)
      unfold scPoslast at hl₁ hcase ⊢
      refine ⟨hlen, ?_⟩
      split at hcase
      · rename_i h2
        rw [if_pos h2]
        exact ⟨data.pos, rfl, .inl ⟨by omega, rfl⟩⟩
      · rename_i h2
        rw [if_neg h2] at hl₁ ⊢
        split at hcase
        · rename_i h3
          rw [if_pos h3]
          dsimp only at hcase
          exact ⟨data.pos - (len - newLen), rfl, .inr ⟨by omega, by omega⟩⟩
        · rename_i h3
          rw [if_neg h3] at hl₁ ⊢
          split at hcase
          · rename_i h4
            rw [if_pos h4] at hl₁
            dsimp only at hcase hl₁
            omega
          · rename_i h4
            rw [if_neg h4] at hl₁
            exact absurd rfl hl₁
  · rw [if_neg hlt] at hne ⊢
    by_cases hgt : len < newLen
    · rw [if_pos hgt] at hne ⊢
      have hl₁ : (cacheCstrCb pos newLen .sub data).len ≠ 0 := by
        intro h0
        rw [cacheCstrCb_of_zero h0] at hne
        exact hne h0
      obtain ⟨hlen, e₁, hcase⟩ := cacheCstrCb_sub hr hl₁
      rw [e₁]
      refine ⟨hlen, ?_⟩
      rcases hcase with hcase | hcase
      · exact ⟨data.pos, cacheCstrCb_add_front hcase, .inl ⟨hcase, rfl⟩⟩
      · exact ⟨data.pos + (newLen - len), cacheCstrCb_add_behind hr hlen (by omega),
          .inr ⟨by omega, by omega⟩⟩
    · rw [if_neg hgt] at hne ⊢
      obtain ⟨hlen, e₁, hcase⟩ := cacheCstrCb_sub hr hne
      rw [e₁]
      refine ⟨hlen, data.pos, rfl, ?_⟩
      rcases hcase with hcase | hcase
      · exact .inl ⟨hcase, rfl⟩
      · exact .inr ⟨by omega, by omega⟩

theorem wholeCstr_ref (data : CstrData) (pos len newLen : Nat) :
    (wholeCstr data pos len newLen).ref = data.ref := by
  unfold wholeCstr
  dsimp only
  repeat' split
  all_goals simp only [cacheCstrCb_ref]

/-- The cache still holds its reference. -/
theorem Swapped.cstrHeld (sw : Swapped h' b b' pos len newLen pre n node post) :
    cstrHeld b' = cstrHeld b := by
  funext r
  unfold Vstr.cstrHeld
  cases hav : b.cacheAvailable with
  | false => rw [sw.cstrOff hav]
  | true =>
    rw [sw.cstr hav]
    cases b.cstr with
    | none => rfl
    | some data => simp only [Option.map_some, wholeCstr_ref]

/-- A slice in front of a cut. -/
theorem slice_left {α : Type} {a c : List α} {p m : Nat} (h : p + m ≤ a.length + 1)
    (h1 : 1 ≤ p) : slice (a ++ c) p m = slice a p m := by
  unfold slice
  rw [List.drop_append_of_le_length (by omega), List.take_append_of_le_length (by
    rw [List.length_drop]; omega)]

/-- A slice behind a cut. -/
theorem slice_right {α : Type} {a c : List α} {p m : Nat} (h : a.length < p) :
    slice (a ++ c) p m = slice c (p - a.length) m := by
  unfold slice
  rw [List.drop_append, List.drop_eq_nil_of_le (by omega), List.nil_append]
  congr 2
  omega

/-- The content around the slice. -/
structure Around (s s' : St) (pos len newLen : Nat) (xs ys : List (Option UInt8)) : Prop where
  /-- Before. -/
  old : ∃ old, content s = xs ++ old ++ ys ∧ old.length = len
  /-- After. -/
  new : ∃ new, content s' = xs ++ new ++ ys ∧ new.length = newLen
  /-- Where the slice starts. -/
  pos : xs.length + 1 = pos

/-- A cached slice that is apart from the substitution is still there. -/
theorem Swapped.cstrOk (sw : Swapped h' b b' pos len newLen pre n node post)
    {xs ys : List (Option UInt8)} (ar : Around ⟨h, b⟩ ⟨h', b'⟩ pos len newLen xs ys)
    (ck : CstrOk ⟨h, b⟩) (h1 : 0 < newLen) (h2 : pos + len ≤ b.len + 1) (hmem : h'.mem = h.mem)
    (hptr : ∀ r, (h'.refs r).ptr = (h.refs r).ptr)
    (hsize : ∀ data r, b.cstr = some data → data.ref = some r →
      h'.size (h.refs r).ptr.blk = h.size (h.refs r).ptr.blk) : CstrOk ⟨h', b'⟩ := by
  obtain ⟨⟨old, hold, hol⟩, ⟨new, hnew, hnl⟩, hx⟩ := ar
  have hav : b'.cacheAvailable = b.cacheAvailable := (cacheAvailable_of_core sw.core :)
  have hlen : b'.len = b.len - len + newLen := (len_of_core sw.core :)
  intro data' r hc hd hr hne
  dsimp only at hc hd
  rw [hav] at hc
  rw [sw.cstr hc] at hd
  obtain ⟨data, hdata, rfl⟩ := Option.map_eq_some_iff.mp hd
  have hr₀ : data.ref = some r := by
    rw [← hr, wholeCstr_ref]
  obtain ⟨hl, p, hp, hcase⟩ := wholeCstr_cases (by rw [hr₀]; simp) h1 hne
  have ok := ck data r hc hdata hr₀ hl
  have hsz := hsize data r hdata hr₀
  have hbound := ok.bound
  have hbytes := ok.bytes
  have hone := ok.one_le
  have hle := ok.le_len
  dsimp only at hbound hbytes hle
  have hslice : slice (content ⟨h', b'⟩) p data.len = slice (content ⟨h, b⟩) data.pos data.len := by
    rw [hold, hnew]
    rcases hcase with ⟨hc, rfl⟩ | ⟨hc, rfl⟩
    · rw [List.append_assoc, List.append_assoc, slice_left (by omega) hone,
        slice_left (by omega) hone]
    · rw [slice_right (by rw [List.length_append]; omega),
        slice_right (by rw [List.length_append]; omega)]
      congr 1
      rw [List.length_append, List.length_append, hol, hnl]
      omega
  rw [hp]
  refine ⟨?_, ?_, ?_, ?_⟩
  · dsimp only
    omega
  · dsimp only
    omega
  · dsimp only
    rw [hslice, hptr]
    unfold HoldsAt at hbytes ⊢
    rw [hmem]
    exact hbytes
  · dsimp only
    rw [hptr, hsz]
    exact hbound

/-! ## The substitution -/

/-- The iterator that stands on the whole node. -/
def wholeIter (b : Base) (pre : List Node) (n : Node) (len : Nat) : Iter :=
  ⟨n, pre.length + 1, usedOf b pre, len, 0⟩

/-- The substitution, stage by stage. -/
theorem subWhole_eq (hk : k.Names) (s : St) (pre : List Node) (n : Node) (pos len newLen : Nat) :
    subWhole s (wholeIter s.base pre n len) pos len newLen k.payload k.type =
      if n.type = k.type then
        let node : Node := ⟨n.id, min len newLen, k.payload⟩
        let h' := wholeHeap s.heap k n n.id
        (true, ⟨h', grownBase h' (cacheIovecResetNode h'
          ((shortBase s.base n pos (len - newLen)).setNode n.id node) node (pre.length + 1))
          pos len newLen (pre.length + 1) ⟨n.id, newLen, k.payload⟩⟩)
      else
        match rangeSpare s.heap s.base.conf k.type 1 with
        | (false, h) => (false, { s with heap := h })
        | (true, h) =>
          let id := h.headSpare s.base.conf k.type
          let t := swapNode ⟨wholeHeap (h.dropSpare s.base.conf k.type 1) k n id,
            shortBase s.base n pos (len - newLen)⟩ pos ⟨id, min len newLen, k.payload⟩
          (true, ⟨t.heap, grownBase t.heap t.base pos len newLen (pre.length + 1)
            ⟨id, newLen, k.payload⟩⟩) := by
  unfold subWhole wholeIter
  dsimp only
  by_cases hs : n.type = k.type
  · simp only [hs, if_true]
    cases k with
    | ptr a =>
      unfold grownBase
      split <;> rfl
    | ref r off =>
      unfold grownBase
      split <;> rfl
    | _ => exact False.elim hk
  · simp only [hs, if_false]
    generalize rangeSpare s.heap s.base.conf k.type 1 = r
    obtain ⟨ok, h⟩ := r
    cases ok with
    | false => rfl
    | true =>
      cases k with
      | ptr a =>
        unfold grownBase
        dsimp only
        split <;> rfl
      | ref r off =>
        unfold grownBase
        dsimp only
        split <;> rfl
      | _ => exact False.elim hk

/-- A node that names memory outside is no `BUF` node. -/
theorem AddKind.Names.type_node (hk : k.Names) (id m : Nat) :
    Node.type ⟨id, m, k.payload⟩ = .ptr ∨ Node.type ⟨id, m, k.payload⟩ = .ref := by
  cases k with
  | ptr a => exact .inl rfl
  | ref r off => exact .inr rfl
  | _ => exact False.elim hk

theorem AddKind.Names.ne_buf (hk : k.Names) (id m : Nat) :
    Node.type ⟨id, m, k.payload⟩ ≠ .buf := by
  intro e
  rcases hk.type_node id m with h | h <;> rw [h] at e <;> cases e

/-- With the node replaced the string is sound. -/
theorem Swapped.sound {id : Nat}
    (sw : Swapped h' s.base b' pos len newLen pre n ⟨id, newLen, k.payload⟩ post)
    (sd : Sound E P s) (lp : LivePart s.base pos len pre n post) (hk : k.Names)
    (h1 : 0 < newLen) (h2 : newLen ≤ maxNodeAll)
    (ow : Owned E P' h' (pre ++ ⟨id, newLen, k.payload⟩ :: post)) (fr : Frame E P s.heap P' h') :
    Sound E P' ⟨h', b'⟩ := by
  have hconf : (St.conf ⟨h', b'⟩).bufSz = s.conf.bufSz := by
    unfold St.conf
    dsimp only
    rw [conf_of_core sw.core]
    exact fr.bufSz _
  have hns : b'.nodes = pre ++ ⟨id, newLen, k.payload⟩ :: post := (nodes_of_core sw.core :)
  refine ⟨?_, ?_, ?_, ?_⟩
  · dsimp only
    rw [hns]
    exact ow
  · rw [hconf]
    exact (valid_wholeBase sd.valid lp rfl h1 h2 (hk.ne_buf _ _)).congr sw.core
  · rw [hconf]
    exact sd.bufSz_pos
  · rw [hconf]
    exact sd.bufSz_le

/-- What the substitution does: no node could be had and nothing changed, or the node is
replaced. -/
theorem subWhole_spec (sd : Sound E P s) (lp : LivePart s.base pos len pre n post)
    (hk : k.Names) (h1 : 0 < newLen) (h2 : newLen ≤ maxNodeAll)
    (hlive : ∀ r, k.held = some r → 0 < (s.heap.refs r).ref) :
    ∃ P' s', (subWhole s (wholeIter s.base pre n len) pos len newLen k.payload k.type =
          (false, s') ∧ s'.base = s.base ∧ Makes E P s.heap P' s'.heap) ∨
      (subWhole s (wholeIter s.base pre n len) pos len newLen k.payload k.type = (true, s') ∧
        Sound E P' s' ∧ Frame E P s.heap P' s'.heap ∧ s'.heap.mem = s.heap.mem ∧
        (∀ r, (s'.heap.refs r).ptr = (s.heap.refs r).ptr) ∧
        ∃ id, Swapped s'.heap s.base s'.base pos len newLen pre n
          ⟨id, newLen, k.payload⟩ post) := by
  have hd := sd.owned.nodes.nodup
  have hlen := (lp.range sd.valid).2.1
  have ow := sd.owned
  rw [lp.nodes] at ow
  rw [subWhole_eq hk]
  by_cases hs : n.type = k.type
  · rw [if_pos hs]
    dsimp only
    have hbuf : n.data ≠ .buf := by
      intro e
      apply hk.ne_buf n.id 0
      rw [AddKind.type_payload, ← hs, Node.type, e]
    have hlike := like_wholeHeap hk s.heap n n.id
    have hty : Node.type ⟨n.id, min len newLen, k.payload⟩ = n.type := by
      rw [AddKind.type_payload, hs]
    have m := midway_same sd.valid hd lp (wholeHeap s.heap k n n.id) hty hbuf
    have hd' : ((pre ++ ⟨n.id, min len newLen, k.payload⟩ :: post).map Node.id).Nodup := by
      rw [lp.nodes] at hd
      simpa using hd
    have sw := m.swapped hd'
    obtain ⟨P', ow', fr⟩ := owned_same ow hk hlive newLen
    exact ⟨P', _, .inr ⟨rfl, sw.sound sd lp hk h1 h2 ow' fr, fr, hlike.mem, hlike.refPtr, n.id, sw⟩⟩
  · rw [if_neg hs]
    obtain ⟨P₁, mk, hsp⟩ := makes_rangeSpare (E := E) sd.owned.heap s.base.conf k.type 1
    generalize rangeSpare s.heap s.base.conf k.type 1 = r at mk hsp
    obtain ⟨ok, h₁⟩ := r
    cases ok with
    | false => exact ⟨P₁, { s with heap := h₁ }, .inl ⟨rfl, rfl, mk⟩⟩
    | true =>
      dsimp only at mk hsp ⊢
      obtain ⟨id, rest, hsp'⟩ := List.exists_cons_of_ne_nil
        (List.ne_nil_of_length_pos (hsp rfl))
      have hhead : h₁.headSpare s.base.conf k.type = id := by
        rw [Heap.headSpare, hsp']
        rfl
      rw [hhead]
      have ow₁ := ow.makes mk
      have hlive₁ : ∀ r, k.held = some r → 0 < (h₁.refs r).ref := by
        intro r hr
        rw [mk.refs]
        exact hlive r hr
      obtain ⟨P', ow', fr⟩ := owned_swap (m := newLen) ow₁ hk hlive₁ h1 hsp'
      obtain ⟨hheap, m⟩ := midway_swap sd.valid hd lp
        (wholeHeap (h₁.dropSpare s.base.conf k.type 1) k n id) h1 (hk.type_node id (min len newLen))
      rw [hheap]
      have hd' : ((pre ++ ⟨id, min len newLen, k.payload⟩ :: post).map Node.id).Nodup := by
        have := ow'.nodes.nodup
        simpa using this
      have sw := m.swapped hd'
      have hlike := ((like_dropSpare h₁ s.base.conf k.type 1).trans
        (like_wholeHeap hk _ n id)).trans
        (like_relinkNodes _ s.base.conf [n])
      have fr' := mk.frame.trans fr
      exact ⟨P', _, .inr ⟨rfl, sw.sound sd lp hk h1 h2 ow' fr', fr', hlike.mem.trans mk.mem,
        fun r => (hlike.refPtr r).trans (by rw [mk.refs]), id, sw⟩⟩

/-! ## What is replaced -/

/-- What the nodes say, byte by byte, around the slice: only what the node says is new. -/
theorem Swapped.around {α : Type} {bufSz : Nat}
    (sw : Swapped h' b b' pos len newLen pre n node post) (v : Valid bufSz b)
    (lp : LivePart b pos len pre n post) {f f' : Node → List α} (hf : ∀ m, (f m).length = m.len)
    (he : ∀ m, f' m = f m) :
    ∃ xs old ys, (b.nodes.flatMap f).drop b.used = xs ++ old ++ ys ∧ old.length = len ∧
      (b'.nodes.flatMap f').drop b'.used = xs ++ f' node ++ ys ∧ xs.length + 1 = pos := by
  have hns : b'.nodes = pre ++ node :: post := (nodes_of_core sw.core :)
  have hu : b'.used = if pre = [] then 0 else b.used := (used_of_core sw.core :)
  have hff : f' = f := funext he
  have hl : ∀ ns : List Node, (ns.flatMap f).length = lens ns := by
    intro ns
    induction ns with
    | nil => rfl
    | cons m ms ih => rw [List.flatMap_cons, List.length_append, hf, ih, lens_cons]
  have hlt := v.usedOf_lt lp.nodes
  have hp := lp.pos
  have hll := lp.len
  have h1 := (lp.range v).1
  have htake : ((f n).take (usedOf b pre)).length = usedOf b pre := by
    rw [List.length_take, hf]
    omega
  have hle : b.used ≤ (pre.flatMap f ++ (f n).take (usedOf b pre)).length := by
    rw [List.length_append, hl, htake]
    omega
  refine ⟨(pre.flatMap f ++ (f n).take (usedOf b pre)).drop b.used, (f n).drop (usedOf b pre),
    post.flatMap f, ?_, ?_, ?_, ?_⟩
  · have e : b.nodes.flatMap f = (pre.flatMap f ++ (f n).take (usedOf b pre)) ++
        ((f n).drop (usedOf b pre) ++ post.flatMap f) := by
      rw [lp.nodes, List.flatMap_append, List.flatMap_cons, List.append_assoc,
        ← List.append_assoc (List.take _ _), List.take_append_drop]
    rw [e, List.drop_append_of_le_length hle, List.append_assoc]
  · rw [List.length_drop, hf]
    omega
  · have hfirst : (pre.flatMap f ++ (f n).take (usedOf b pre)).drop b.used =
        (pre.flatMap f).drop b'.used := by
      rw [hu]
      unfold usedOf at hle htake ⊢
      split
      · rename_i e
        rw [e] at hle htake ⊢
        simp only [List.flatMap_nil, List.nil_append, if_true, List.drop_nil] at hle htake ⊢
        exact List.drop_eq_nil_of_le (by omega)
      · rw [List.take_zero, List.append_nil]
    have hle' : b'.used ≤ (pre.flatMap f).length := by
      rw [hu]
      unfold usedOf at hle htake
      split
      · exact Nat.zero_le _
      · rename_i e
        rw [if_neg e, List.take_zero, List.append_nil] at hle
        exact hle
    rw [hfirst, hff, hns, List.flatMap_append, List.flatMap_cons,
      List.drop_append_of_le_length hle', List.append_assoc]
  · rw [List.length_drop, List.length_append, hl, htake]
    omega

/-- The node is replaced, and everything that depends on it is in step. -/
structure Replaced (E : Env) (P : Own) (s s' : St) (k : AddKind) (pos len newLen : Nat)
    (n : Node) : Prop where
  /-- Structure, spare lists and references, with the C string cache holding its own. -/
  usable : ∃ P', Usable (E.hold (cstrHeld s'.base)) P' s' ∧
    Frame (E.hold (cstrHeld s.base)) P s.heap P' s'.heap
  /-- The position cache. -/
  posOk : PosOk True s'.base
  /-- The vectors. -/
  iovecOk : IovecOk s'
  /-- The C string cache. -/
  cstrOk : CstrOk s'
  /-- The content is that of an insertion and a deletion. -/
  content : content s' =
    deleteRange (insertAfter (content s) (pos - 1) (k.src s.heap newLen)) (pos + newLen) len
  /-- So is what the nodes name. -/
  sources : sources s'.base =
    deleteRange (insertAfter (sources s.base) (pos - 1) (k.stretch newLen)) (pos + newLen) len
  /-- The old reference is released once, the new one taken once. -/
  refs : ∀ r, (s'.heap.refs r).ref + (if n.ref = some r then 1 else 0) =
    (s.heap.refs r).ref + if k.held = some r then 1 else 0

/-- Nothing changed but the position cache, which is right, and the spare nodes. -/
structure Untouched (s s' : St) : Prop where
  /-- The string. -/
  base : ∃ d, s'.base = { s.base with posData := d }
  /-- The position cache. -/
  posOk : PosOk True s'.base
  /-- Memory. -/
  mem : s'.heap.mem = s.heap.mem
  /-- References. -/
  refs : s'.heap.refs = s.heap.refs

theorem nodeBytes_of_same (hmem : h'.mem = h.mem) (hptr : ∀ r, (h'.refs r).ptr = (h.refs r).ptr)
    (m : Node) : nodeBytes h' m = nodeBytes h m := by
  rw [nodeBytes_eq, nodeBytes_eq, hmem]
  split
  · rfl
  · rfl
  · rfl
  · rw [hptr]

/-- A live part does not depend on the caches. -/
theorem LivePart.congr (lp : LivePart b pos len pre n post) (hc : b'.core = b.core) :
    LivePart b' pos len pre n post := by
  obtain ⟨h1, h2, h3⟩ := lp
  have hu := used_of_core hc
  refine ⟨(nodes_of_core hc).trans h1, ?_, ?_⟩
  · unfold usedOf at h2 ⊢
    rw [hu]
    exact h2
  · unfold usedOf at h3 ⊢
    rw [hu]
    exact h3

/-- A list of the nodes, byte by byte, is that of an insertion and a deletion. -/
theorem Swapped.replace {α : Type} {bufSz : Nat} {new : List α}
    (sw : Swapped h' b b' pos len newLen pre n node post) (v : Valid bufSz b)
    (lp : LivePart b pos len pre n post) {f f' : Node → List α} (hf : ∀ m, (f m).length = m.len)
    (he : ∀ m, f' m = f m) (hnew : new.length = newLen) :
    (b'.nodes.flatMap f').drop b'.used =
        deleteRange (insertAfter ((b.nodes.flatMap f).drop b.used) (pos - 1) new) (pos + newLen)
          len ↔ f' node = new := by
  obtain ⟨xs, old, ys, hc, hol, hc', hx⟩ := sw.around v lp hf he
  have h : deleteRange (insertAfter (xs ++ old ++ ys) (pos - 1) new) (pos + new.length)
      old.length = xs ++ new ++ ys := deleteRange_insertAfter hx
  rw [hol, hnew] at h
  rw [hc', hc, h, List.append_cancel_right_eq, List.append_cancel_left_eq]

/-- What the nodes name is replaced, exactly when the offset of a reference is a 32 bit one. -/
theorem Swapped.sources_iff {bufSz id : Nat}
    (sw : Swapped h' b b' pos len newLen pre n ⟨id, newLen, k.payload⟩ post) (v : Valid bufSz b)
    (lp : LivePart b pos len pre n post) (hk : k.Names) (h1 : 0 < newLen) :
    sources b' = deleteRange (insertAfter (sources b) (pos - 1) (k.stretch newLen))
      (pos + newLen) len ↔ ∀ r off, k = .ref r off → off < 2 ^ 32 := by
  have h := sw.replace v lp (f := fun m => m.data.stretch m.len)
    (fun m => Payload.length_stretch _ _) (fun _ => rfl) (AddKind.length_stretch k newLen)
  refine Iff.trans h ?_
  cases k with
  | ptr a => exact ⟨(fun _ r off e => by cases e), fun _ => rfl⟩
  | ref r off =>
    constructor
    · intro e r' off' he
      cases he
      have hoff : refOff off = off := stretch_ref_inj h1 e
      unfold refOff at hoff
      omega
    · intro hlt
      have hoff : refOff off = off := Nat.mod_eq_of_lt (hlt r off rfl)
      change (Payload.ref r (refOff off)).stretch newLen = _
      rw [hoff]
      rfl
  | _ => exact False.elim hk

/-- The content is replaced. -/
theorem Swapped.content_eq {id : Nat}
    (sw : Swapped h' s.base s'.base pos len newLen pre n ⟨id, newLen, k.payload⟩ post)
    (v : Valid s.conf.bufSz s.base) (lp : LivePart s.base pos len pre n post) (hk : k.Names)
    (hmem : s'.heap.mem = s.heap.mem) (hptr : ∀ r, (s'.heap.refs r).ptr = (s.heap.refs r).ptr)
    (hlt : ∀ r off, k = .ref r off → off < 2 ^ 32) :
    content s' =
      deleteRange (insertAfter (content s) (pos - 1) (k.src s.heap newLen)) (pos + newLen) len := by
  have hbytes := nodeBytes_of_same hmem hptr
  refine (sw.replace v lp (length_nodeBytes s.heap) hbytes
    (AddKind.length_src s.heap k newLen)).mpr ?_
  rw [hbytes, nodeBytes_eq]
  cases k with
  | ptr a => rfl
  | ref r off =>
    have hoff : refOff off = off := Nat.mod_eq_of_lt (hlt r off rfl)
    simp only [AddKind.payload, AddKind.src, hoff]
  | _ => exact False.elim hk

/-- No node points into memory that is not its own. -/
theorem Swapped.ptrSafe {id : Nat}
    (sw : Swapped h' b b' pos len newLen pre n ⟨id, newLen, k.payload⟩ post)
    (lp : LivePart b pos len pre n post) (ps : PtrSafe E P b.nodes) (fr : Frame E P h P' h')
    (hfor : ∀ a, k = .ptr a → Foreign E P a.blk) : PtrSafe E P' b'.nodes := by
  have hns' : b'.nodes = pre ++ ⟨id, newLen, k.payload⟩ :: post := (nodes_of_core sw.core :)
  have ps' := PtrsIn.frame ps fr
  rw [lp.nodes] at ps'
  rw [hns']
  unfold PtrSafe at ps' ⊢
  rw [ptrsIn_append, ptrsIn_cons] at ps' ⊢
  refine ⟨ps'.1, fun a ha => ?_, ps'.2.2⟩
  cases k with
  | ptr a' =>
    cases ha
    exact fr.foreign (hfor a rfl)
  | _ => cases ha

/-- The node is replaced by one that names what was given, exactly when the offset of a
reference is a 32 bit one. -/
theorem replaced_iff (u : Usable (E.hold (cstrHeld s.base)) P s) (iv : IovecOk s) (ck : CstrOk s)
    (pk : PosOk True s.base) (lp : LivePart s.base pos len pre n post) (hk : k.Names)
    (h1 : 0 < newLen) (h2 : newLen ≤ maxNodeAll)
    (hlive : ∀ r, k.held = some r → 0 < (s.heap.refs r).ref)
    (hfor : ∀ a, k = .ptr a → Foreign (E.hold (cstrHeld s.base)) P a.blk)
    (e : subWhole s (wholeIter s.base pre n len) pos len newLen k.payload k.type = (true, s')) :
    Replaced E P s s' k pos len newLen n ↔ ∀ r off, k = .ref r off → off < 2 ^ 32 := by
  obtain ⟨P', s₁, ⟨e₁, -⟩ | ⟨e₁, sd, fr, hmem, hptr, id, sw⟩⟩ :=
    subWhole_spec u.sound lp hk h1 h2 hlive
  · rw [e] at e₁
    cases e₁
  · rw [e] at e₁
    obtain rfl := (Prod.mk.inj e₁).2
    have v := u.sound.valid
    have hsrc := sw.sources_iff v lp hk h1
    refine ⟨fun rp => hsrc.mp rp.sources, fun hlt => ?_⟩
    have hpos := sw.posOk v u.sound.owned.nodes.nodup pk lp rfl
    refine ⟨⟨P', ?_, fr⟩, hpos, sw.iovecOk iv lp hptr, ?_,
      sw.content_eq v lp hk hmem hptr hlt, hsrc.mpr hlt, ?_⟩
    · rw [sw.cstrHeld]
      exact ⟨sd, hpos.weaken, sw.ptrSafe lp u.ptrSafe fr hfor⟩
    · obtain ⟨xs, old, ys, hc, hol, hc', hx⟩ := sw.around v lp
        (length_nodeBytes s.heap) (nodeBytes_of_same hmem hptr)
      refine sw.cstrOk ⟨⟨old, hc, hol⟩, ⟨_, hc', ?_⟩, hx⟩ ck h1 (lp.range v).2.2 hmem hptr ?_
      · rw [length_nodeBytes]
      · intro data r hd hr
        have hlive' : 0 < (s.heap.refs r).ref := by
          have h := u.sound.owned.refs r
          rw [Env.hold_ext, cstrHeld_some hd hr, oneUse_self] at h
          omega
        exact fr.size _ (u.sound.owned.heap.solid_ref hlive').1
    · intro r
      have hns' : s'.base.nodes = pre ++ ⟨id, newLen, k.payload⟩ :: post :=
        (nodes_of_core sw.core :)
      have h1 := sd.owned.refs r
      have h2 := u.sound.owned.refs r
      rw [hns', heldBy_append, heldBy_cons, AddKind.ref_payload] at h1
      rw [lp.nodes, heldBy_append, heldBy_cons] at h2
      omega

/-! ## `vstr_sub_ptr` and `vstr_sub_ref` -/

/-- The state in which the place of the slice is found. -/
theorem found_whole (u : Usable E P s) (pk : PosOk True s.base) (iv : IovecOk s) (ck : CstrOk s)
    (lp : LivePart s.base pos len pre n post) :
    ∃ d, (basePos s.base pos true).2 = { s.base with posData := d } ∧
      Usable E P ⟨s.heap, { s.base with posData := d }⟩ ∧
      PosOk True { s.base with posData := d } ∧ IovecOk ⟨s.heap, { s.base with posData := d }⟩ ∧
      CstrOk ⟨s.heap, { s.base with posData := d }⟩ ∧
      LivePart { s.base with posData := d } pos len pre n post := by
  obtain ⟨h1, hlen, h2⟩ := lp.range u.sound.valid
  obtain ⟨d, hd⟩ := basePos_base s.base pos true
  have pk₁ := posOk_basePos u.sound.valid u.sound.owned.nodes.nodup pk h1 (by omega) true
  rw [hd] at pk₁
  refine ⟨d, hd, ⟨u.sound.congr rfl, pk₁.weaken, u.ptrSafe⟩, pk₁, iv, ?_, lp.congr rfl⟩
  intro data r hc hdata hr hne
  have ok := ck data r hc hdata hr hne
  exact ⟨ok.one_le, ok.le_len, ok.bytes, ok.bound⟩

/-- What was replaced since the place was found was replaced since then. -/
theorem Replaced.of_found {d : PosData}
    (rp : Replaced E P ⟨s.heap, { s.base with posData := d }⟩ s' k pos len newLen n) :
    Replaced E P s s' k pos len newLen n :=
  ⟨rp.usable, rp.posOk, rp.iovecOk, rp.cstrOk, rp.content, rp.sources, rp.refs⟩

/-- A whole node is replaced in place. -/
theorem whole_cases (u : Usable (E.hold (cstrHeld s.base)) P s) (pk : PosOk True s.base)
    (iv : IovecOk s) (ck : CstrOk s) (lp : LivePart s.base pos len pre n post) (hk : k.Names)
    (h1 : 0 < newLen) (h2 : newLen ≤ maxNodeAll)
    (hlive : ∀ r, k.held = some r → 0 < (s.heap.refs r).ref)
    (hfor : ∀ a, k = .ptr a → Foreign (E.hold (cstrHeld s.base)) P a.blk) {r : Bool × St}
    (hr : ∀ d, (basePos s.base pos true).2 = { s.base with posData := d } →
      r = subWhole ⟨s.heap, { s.base with posData := d }⟩
        (wholeIter { s.base with posData := d } pre n len) pos len newLen k.payload k.type) :
    (r.1 = true → (Replaced E P s r.2 k pos len newLen n ↔
        ∀ i off, k = .ref i off → off < 2 ^ 32)) ∧
      (r.1 = false → Untouched s r.2) ∧ (Granted s.heap → r.1 = true) := by
  obtain ⟨d, hd, u₁, pk₁, iv₁, ck₁, lp₁⟩ := found_whole u pk iv ck lp
  have e := hr d hd
  refine ⟨fun ht => ?_, fun hf => ?_, fun g => ?_⟩
  · have h := replaced_iff u₁ iv₁ ck₁ pk₁ lp₁ hk h1 h2 hlive hfor
      (e.symm.trans (Prod.ext ht rfl))
    rw [← h]
    exact ⟨fun rp => ⟨rp.usable, rp.posOk, rp.iovecOk, rp.cstrOk, rp.content, rp.sources, rp.refs⟩,
      Replaced.of_found⟩
  · obtain ⟨P', s₁, ⟨e₁, hb, mk⟩ | ⟨e₁, -⟩⟩ :=
      subWhole_spec u₁.sound lp₁ hk h1 h2 hlive
    · rw [e, e₁]
      refine ⟨⟨d, hb⟩, ?_, mk.mem, mk.refs⟩
      dsimp only
      rw [hb]
      exact pk₁
    · rw [e, e₁] at hf
      cases hf
  · rw [e, subWhole_eq hk]
    split
    · rfl
    · obtain ⟨hg, -⟩ := rangeSpare_granted g s.base.conf k.type 1
      dsimp only at hg ⊢
      generalize rangeSpare s.heap s.base.conf k.type 1 = r at hg
      obtain ⟨ok, h⟩ := r
      obtain rfl : ok = true := hg
      rfl

/-- A slice that is the live part of a node, replaced by what one node holds:
`vstr_sub_ptr` leaves what an insertion and a deletion leave, with every cache in step, and
so does `vstr_sub_ref` exactly when the offset is a 32 bit one; when they fail nothing has
changed, and they succeed when memory can be had. -/
theorem whole_sub_exact_iff (u : Usable (E.hold (cstrHeld s.base)) P s) (pk : PosOk True s.base)
    (iv : IovecOk s) (ck : CstrOk s) (lp : LivePart s.base pos len pre n post)
    (h1 : 0 < newLen) (h2 : newLen ≤ maxNodeAll) :
    (∀ a, Foreign (E.hold (cstrHeld s.base)) P a.blk →
      ((subPtr s pos len a newLen).1 = true →
        Replaced E P s (subPtr s pos len a newLen).2 (.ptr a) pos len newLen n) ∧
      ((subPtr s pos len a newLen).1 = false → Untouched s (subPtr s pos len a newLen).2) ∧
      (Granted s.heap → (subPtr s pos len a newLen).1 = true)) ∧
    (∀ r off, 0 < (s.heap.refs r).ref →
      ((subRef s pos len r off newLen).1 = true →
        (Replaced E P s (subRef s pos len r off newLen).2 (.ref r off) pos len newLen n ↔
          off < 2 ^ 32)) ∧
      ((subRef s pos len r off newLen).1 = false →
        Untouched s (subRef s pos len r off newLen).2) ∧
      (Granted s.heap → (subRef s pos len r off newLen).1 = true)) := by
  obtain ⟨-, hlen, -⟩ := lp.range u.sound.valid
  obtain ⟨hit, heq⟩ := iterFwdBeg_whole u.sound pk lp
  have hne : ¬ (len = 0 ∨ newLen = 0) := by omega
  refine ⟨fun a ha => ?_, fun r off hr => ?_⟩
  · have h := whole_cases (k := .ptr a) u pk iv ck lp trivial h1 h2 (fun r hr => by cases hr)
      (fun b hb => by cases hb; exact ha) (r := subPtr s pos len a newLen) (fun d hd => by
        unfold subPtr
        rw [if_neg hne, hit]
        dsimp only
        rw [if_pos ⟨h2, heq⟩, hd]
        rfl)
    refine ⟨fun ht => (h.1 ht).mpr fun i off e => ?_, h.2⟩
    cases e
  · have h := whole_cases (k := .ref r off) u pk iv ck lp trivial h1 h2
      (fun r' hr' => by cases hr'; exact hr) (fun b hb => by cases hb)
      (r := subRef s pos len r off newLen) (fun d hd => by
        unfold subRef
        rw [if_neg hne, hit]
        dsimp only
        rw [if_pos ⟨h2, heq⟩, hd]
        rfl)
    refine ⟨fun ht => (h.1 ht).trans ⟨fun hl => hl r off rfl, fun hl i o e => ?_⟩, h.2⟩
    cases e
    exact hl

/-- A string with one node, which names the two bytes of a reference. -/
def namingRef : St := (addRef besideRef 0 0 0 2).2

theorem usable_namingRef : ∃ P, Usable
    (Env.hold ⟨0, fun r => if r = 0 then 1 else 0⟩ (cstrHeld namingRef.base)) P namingRef := by
  have hlive : ∀ r, (AddKind.ref 0 0).held = some r → 0 < (besideRef.heap.refs r).ref := by
    intro r hr
    cases hr
    decide
  have hpos : 0 ≤ besideRef.base.len := Nat.zero_le _
  obtain ⟨P', s₁, ⟨e, -⟩ | ⟨e, i⟩⟩ :=
    addData_spec usable_besideRef.sound usable_besideRef.posOk hpos (show 0 < 2 by decide) hlive
  · have ht : (addData (.ref 0 0) besideRef 0 2).1 = true := by decide
    rw [e] at ht
    cases ht
  · have hs : s₁ = namingRef := (congrArg Prod.snd e).symm
    have hnone : namingRef.base.posData.node = none := by decide
    have hnodes : namingRef.base.nodes = [⟨1, 2, .ref 0 0⟩] := by decide
    have hE : Env.hold ⟨0, fun r => if r = 0 then 1 else 0⟩ (cstrHeld namingRef.base) =
        ⟨0, fun r => if r = 0 then 1 else 0⟩ := rfl
    have sd := i.sound
    rw [hs] at sd
    rw [hE]
    refine ⟨P', sd, posOk_of_none hnone, fun m hm a ha => ?_⟩
    rw [hnodes, List.mem_singleton] at hm
    rw [hm] at ha
    cases ha

theorem livePart_namingRef : LivePart namingRef.base 1 2 [] ⟨1, 2, .ref 0 0⟩ [] :=
  ⟨by decide, by decide, by decide⟩

theorem caches_namingRef : PosOk True namingRef.base ∧ IovecOk namingRef ∧ CstrOk namingRef := by
  have hnone : namingRef.base.posData.node = none := by decide
  refine ⟨posOk_of_none hnone, fun hup => ?_, fun d r _ hd => ?_⟩
  · have hf : namingRef.base.iovecUptoDate = false := by decide
    rw [hf] at hup
    cases hup
  · have hf : namingRef.base.cstr = none := by rfl
    rw [hf] at hd
    cases hd

/-- The two bytes give way to the second of them. -/
theorem whole_sub_exact_ref : (subRef namingRef 1 2 0 1 1).1 = true ∧
    ∃ P, Replaced ⟨0, fun r => if r = 0 then 1 else 0⟩ P namingRef
      (subRef namingRef 1 2 0 1 1).2 (.ref 0 1) 1 2 1 ⟨1, 2, .ref 0 0⟩ := by
  obtain ⟨P, u⟩ := usable_namingRef
  obtain ⟨pk, iv, ck⟩ := caches_namingRef
  have h := whole_sub_exact_iff u pk iv ck livePart_namingRef Nat.one_pos (by decide)
  have ht : (subRef namingRef 1 2 0 1 1).1 = true := by decide
  exact ⟨ht, P, ((h.2 0 1 (by decide)).1 ht).mpr (by decide)⟩

/-- An offset of `2 ^ 32` is stored as none: the bytes at the start of the memory come back. -/
theorem whole_sub_offset_cut : (∃ P, Usable
      (Env.hold ⟨0, fun r => if r = 0 then 1 else 0⟩ (cstrHeld namingRef.base)) P namingRef) ∧
    LivePart namingRef.base 1 2 [] ⟨1, 2, .ref 0 0⟩ [] ∧
    (subRef namingRef 1 2 0 (2 ^ 32) 2).1 = true ∧
    (subRef namingRef 1 2 0 (2 ^ 32) 2).2.base.nodes = [⟨1, 2, .ref 0 0⟩] ∧
    content (subRef namingRef 1 2 0 (2 ^ 32) 2).2 = [some 97, some 98] ∧
    (AddKind.ref 0 (2 ^ 32)).src namingRef.heap 2 = [some 0, some 0] ∧
    ∀ E P, ¬ Replaced E P namingRef (subRef namingRef 1 2 0 (2 ^ 32) 2).2 (.ref 0 (2 ^ 32)) 1 2 2
      ⟨1, 2, .ref 0 0⟩ := by
  refine ⟨usable_namingRef, livePart_namingRef, by decide, by decide,
    by decide, by decide, fun E P rp => ?_⟩
  have h : ¬ content (subRef namingRef 1 2 0 (2 ^ 32) 2).2 =
      deleteRange (insertAfter (content namingRef) (1 - 1)
        ((AddKind.ref 0 (2 ^ 32)).src namingRef.heap 2)) (1 + 2) 2 := by decide
  exact h rp.content

end Vstr
