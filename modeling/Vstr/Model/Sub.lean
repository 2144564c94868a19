import Vstr.Model.AddVstr

/-!
# Substitution

`vstr_sub_ptr` and `vstr_sub_ref` of `vstr_sub.c`: a slice that is one node is replaced where
it is, otherwise an insertion in front of the replaced slice and its deletion.
-/

namespace Vstr

open Memory

/-- The end of the substitutions that insert and delete. -/
def subFinish (r : Bool × St) (pos len : Nat) : Bool × St :=
  match r with
  | (false, s) => (false, s)
  | (true, s) => del s pos len

/-- `VSTR__ITER_EQ_ALL_NODE`: the iteration is exactly the live part of one node. -/
def iterEqAllNode (b : Base) (it : Iter) : Bool :=
  let used := if b.nodes.head?.map Node.id = some it.node.id then b.used else 0
  it.remaining = 0 ∧ it.len = it.node.len - used ∧ it.off = used

/-- `vstr__swap_node_X_X`: the node at `pos` is replaced by `node`. -/
def swapNode (s : St) (pos : Nat) (node : Node) : St :=
  let f := basePtrPos s.base pos
  let old := s.base.node f.idx
  let h := relinkNodes s.heap s.base.conf [old]
  let b := { s.base with
    nodes := s.base.nodes.set f.idx node
    endNode := if f.idx + 1 < s.base.nodes.length then s.base.endNode else some node.id
    used := if f.idx = 0 then 0 else s.base.used
    posData := if s.base.cacheAvailable ∧ s.base.posData.node = some old.id then
        { s.base.posData with node := if node.len ≥ old.len then some node.id else none }
      else s.base.posData
    nodeUsed := if node.type = .ptr ∨ node.type = .ref then
        Function.update s.base.nodeUsed node.type true else s.base.nodeUsed }
  ⟨h, cacheIovecResetNode h b node f.num⟩

/-- Set the length of the node with identity `id`. -/
def Base.setNode (b : Base) (id : Nat) (node : Node) : Base :=
  { b with nodes := b.nodes.set (b.indexOf id) node }

/-- The whole-node substitution of `vstr_sub_ptr` and `vstr_sub_ref`: `data` names the
new bytes, `type` is its node type. -/
def subWhole (s : St) (it : Iter) (pos len newLen : Nat) (data : Payload) (type : NodeType) :
    Bool × St :=
  let same := it.node.type = type
  match (if same then (true, s.heap) else rangeSpare s.heap s.base.conf type 1) with
  | (false, h) => (false, { s with heap := h })
  | (true, h) =>
    let id := if same then it.node.id else h.headSpare s.base.conf type
    let h := if same then h else h.dropSpare s.base.conf type 1
    let diff := len - newLen
    let short := { it.node with len := it.node.len - diff }
    let b := if diff ≠ 0 then
        cacheDel { s.base.setNode it.node.id short with len := s.base.len - diff } pos diff
      else s.base
    let h := match data with
      | .ref r _ => refAdd h r
      | _ => h
    let h := match it.node.data with
      | .ref r _ => refDel h r
      | _ => h
    let node : Node := ⟨id, min len newLen, data⟩
    let s : St :=
      if same then ⟨h, cacheIovecResetNode h (b.setNode id node) node it.num⟩
      else swapNode ⟨h, b⟩ pos node
    let b := cacheCbSub s.base pos newLen
    if newLen > len then
      let node := { node with len := newLen }
      let b := { b.setNode id node with len := b.len + (newLen - len) }
      (true, ⟨s.heap, cacheAdd (cacheIovecResetNode s.heap b node it.num) pos (newLen - len)⟩)
    else (true, ⟨s.heap, b⟩)

/-- `vstr_sub_ptr`. -/
def subPtr (s : St) (pos len : Nat) (ptr : Addr) (ptrLen : Nat) : Bool × St :=
  if len = 0 ∨ ptrLen = 0 then subFinish (addPtr s (pos - 1) ptr ptrLen) (pos + ptrLen) len
  else
    match iterFwdBeg s pos len with
    | (none, s) => (false, s)
    | (some it, s) =>
      if ptrLen ≤ maxNodeAll ∧ iterEqAllNode s.base it then
        subWhole s it pos len ptrLen (.ptr ptr) .ptr
      else subFinish (addPtr s (pos - 1) ptr ptrLen) (pos + ptrLen) len

/-- `vstr_sub_ref`. -/
def subRef (s : St) (pos len ref off refLen : Nat) : Bool × St :=
  if len = 0 ∨ refLen = 0 then subFinish (addRef s (pos - 1) ref off refLen) (pos + refLen) len
  else
    match iterFwdBeg s pos len with
    | (none, s) => (false, s)
    | (some it, s) =>
      if refLen ≤ maxNodeAll ∧ iterEqAllNode s.base it then
        subWhole s it pos len refLen (.ref ref (refOff off)) .ref
      else subFinish (addRef s (pos - 1) ref off refLen) (pos + refLen) len

end Vstr
