import Vstr.Model.Cache

/-!
# Finding, splitting and walking nodes

`vstr_base__pos` answers from the first node, the last node, the position cache or
a scan. A node pointer that is used at once is its index on the list; one that is
kept across changes of the list (the position cache, an iterator) is the identity
of the node.
-/

namespace Vstr

open Memory

/-- The result of `vstr_base__pos`: the node, the offset of the byte in it counted
from one, and its number. -/
structure Found where
  /-- Index of the node on the list. -/
  idx : Nat
  /-- Value left in `*pos`. -/
  pos : Nat
  /-- Value left in `*num`. -/
  num : Nat
  deriving DecidableEq, Repr

/-- Index of the node with identity `id`. -/
def Base.indexOf (b : Base) (id : Nat) : Nat := b.nodes.findIdx (·.id = id)

/-- The node an index stands for; only asked for indices on the list. -/
def Base.node (b : Base) (i : Nat) : Node := b.nodes.getD i ⟨0, 0, .non⟩

/-- `while (*pos > scan->len)`: nodes skipped and the offset in the node reached. -/
def scanNodes : List Node → Nat → Nat × Nat
  | [], pos => (0, pos)
  | n :: ns, pos =>
    if pos > n.len then
      let r := scanNodes ns (pos - n.len)
      (r.1 + 1, r.2)
    else (0, pos)

/-- Where the scan of `vstr_base__pos` starts: at the cached node when it is not
after the position, else at the first node. -/
def scanStart (b : Base) (pos : Nat) : Found :=
  match b.posData.node with
  | some id =>
    if b.cacheAvailable ∧ b.posData.pos ≤ pos then
      ⟨b.indexOf id, pos - b.posData.pos + 1, b.posData.num⟩
    else ⟨0, pos + b.used, 1⟩
  | none => ⟨0, pos + b.used, 1⟩

/-- The scan of `vstr_base__pos` from its starting node. -/
def scanFrom (b : Base) (f : Found) : Found :=
  let r := scanNodes (b.nodes.drop f.idx) f.pos
  ⟨f.idx + r.1, r.2, f.num + r.1⟩

/-- `vstr_base__pos`. -/
def basePos (b : Base) (pos : Nat) (cache : Bool) : Found × Base :=
  if pos + b.used ≤ (b.node 0).len then (⟨0, pos + b.used, 1⟩, b)
  else
    let idx := b.indexOf (b.endNode.getD 0)
    let before := b.len - (b.node idx).len
    if pos > before then (⟨idx, pos - before, b.num⟩, b)
    else
      let f := scanFrom b (scanStart b pos)
      (f, if cache then cachePos b (b.node f.idx).id (pos - f.pos + 1) f.num else b)

/-- `vstr__base_ptr_pos`: the same, always by a scan from the first node. -/
def basePtrPos (b : Base) (pos : Nat) : Found := scanFrom b ⟨0, pos + b.used, 1⟩

/-- `vstr_base__pos` on a base with its memory. -/
def St.pos (s : St) (pos : Nat) (cache : Bool) : Found × St :=
  let r := basePos s.base pos cache
  (r.1, { s with base := r.2 })

/-- The payload of the second half of a node split at `pos`, and the memory once
the half is made: the node `id` gets a copy of a `BUF` node's tail, a `REF` node
takes one more reference. -/
def splitPayload (h : Heap) (node : Node) (id pos : Nat) : Payload × Heap :=
  match node.data with
  | .buf => (.buf, h.setMem
      (copy h.mem ⟨.node id, 0⟩ ⟨.node node.id, pos⟩ (node.len - pos)))
  | .non => (.non, h)
  | .ptr p => (.ptr (p.add pos), h)
  | .ref r off => (.ref r (refOff (off + pos)), refAdd h r)

/-- `vstr__base_split_node`: the node at `idx` keeps its first `pos` bytes, and a
new node after it holds the rest. -/
def baseSplitNode (s : St) (idx pos : Nat) : Bool × St :=
  let node := s.base.node idx
  match rangeSpare s.heap s.base.conf node.type 1 with
  | (false, h) => (false, { s with heap := h })
  | (true, h) =>
    let id := h.headSpare s.base.conf node.type
    let r := splitPayload (h.dropSpare s.base.conf node.type 1) node id pos
    let beg : Node := ⟨id, node.len - pos, r.1⟩
    (true, ⟨r.2, { s.base with
      num := s.base.num + 1
      iovecUptoDate := false
      nodes := s.base.nodes.take idx ++ { node with len := pos } :: beg ::
        s.base.nodes.drop (idx + 1)
      endNode := if idx + 1 < s.base.nodes.length then s.base.endNode else some id }⟩)

/-- `vstr__base_zero_used`. -/
def baseZeroUsed (s : St) : St :=
  match s.base.nodes with
  | [] => s
  | n :: ns =>
    if s.base.used ≠ 0 then
      ⟨s.heap.setMem (copy s.heap.mem ⟨.node n.id, 0⟩ ⟨.node n.id, s.base.used⟩
          (n.len - s.base.used)),
        { s.base with
          nodes := { n with len := n.len - s.base.used } :: ns
          used := 0 }⟩
    else s

/-- `vstr__add_setup_pos`: after it `pos` is the last byte of the node found. -/
def addSetupPos (s : St) (pos : Nat) : Option Found × St :=
  let r := s.pos pos true
  if r.1.pos ≠ (r.2.base.node r.1.idx).len then
    match baseSplitNode r.2 r.1.idx r.1.pos with
    | (false, s) => (none, s)
    | (true, s) => (some r.1, s)
  else (some r.1, r.2)

/-- `Vstr_iter`. -/
structure Iter where
  /-- `iter->node`. -/
  node : Node
  /-- Its number. -/
  num : Nat
  /-- Offset of `iter->ptr` in the node. -/
  off : Nat
  /-- Bytes of the slice in this node. -/
  len : Nat
  /-- Bytes of the slice after this node. -/
  remaining : Nat
  deriving DecidableEq, Repr

/-- The range check of `vstr_iter_fwd_beg` and of the export functions. -/
def rangeOk (b : Base) (pos len : Nat) : Bool :=
  pos ≠ 0 ∧ ((pos ≤ b.len ∧ scPoslast pos len % 2 ^ 64 ≤ b.len) ∨ len = 0)

/-- `vstr_iter_fwd_beg`. -/
def iterFwdBeg (s : St) (pos len : Nat) : Option Iter × St :=
  if ¬ rangeOk s.base pos len ∨ len = 0 then (none, s)
  else
    let r := s.pos pos true
    let node := r.2.base.node r.1.idx
    let off := r.1.pos - 1
    let here := min (node.len - off) len
    (some ⟨node, r.1.num, off, here, len - here⟩, r.2)

/-- The node after the one with identity `id`. -/
def Base.nextOf (b : Base) (id : Nat) : Option Node := b.nodes[b.indexOf id + 1]?

/-- `vstr_iter_fwd_nxt`. -/
def iterFwdNxt (b : Base) (it : Iter) : Option Iter :=
  if it.remaining = 0 then none
  else
    match b.nextOf it.node.id with
    | none => none
    | some node =>
      let here := min node.len it.remaining
      some ⟨node, it.num + 1, 0, here, it.remaining - here⟩

/-- `iter->ptr`. -/
def Iter.ptr (h : Heap) (it : Iter) : Option Addr := (exportNodePtr h it.node).map (·.add it.off)

/-- All stretches of an iteration over an unchanging list; `fuel` bounds the
number of nodes. -/
def iterAll (b : Base) : Nat → Iter → List Iter
  | 0, it => [it]
  | fuel + 1, it =>
    match iterFwdNxt b it with
    | none => [it]
    | some it' => it :: iterAll b fuel it'

end Vstr
