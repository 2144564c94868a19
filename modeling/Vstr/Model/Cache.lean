import Vstr.Model.Heap

/-!
# Position, iovec and C string caches

The callbacks of `vstr_cache.c` and the incremental patches of the vector cache
that the add and delete code makes by hand.
-/

namespace Vstr

open Memory

/-- `VSTR_TYPE_CACHE_ADD`, `_DEL` and `_SUB`. -/
inductive CacheType where
  | add
  | del
  | sub
  deriving DecidableEq, Repr

/-- `vstr_sc_poslast`; a range check takes it modulo the size of a `size_t`. -/
def scPoslast (begPos diffPos : Nat) : Nat := begPos + (diffPos - 1)

/-- `vstr_sc_posdiff`. -/
def scPosdiff (begPos endPos : Nat) : Nat := endPos - begPos + 1

/-- `vstr__cache_pos_cb`. -/
def cachePosCb (pos : Nat) (type : CacheType) (data : PosData) : PosData :=
  if data.node = none then data
  else if type = .add ∧ pos ≥ data.pos then data
  else if type = .del ∧ pos > data.pos then data
  else if type = .sub then data
  else { data with node := none }

/-- `vstr__cache_cstr_cb`. -/
def cacheCstrCb (pos len : Nat) (type : CacheType) (data : CstrData) : CstrData :=
  let endPos := scPoslast pos len
  let dataEndPos := scPoslast data.pos data.len
  if data.ref = none ∨ data.len = 0 then data
  else if dataEndPos < pos then data
  else if type = .add ∧ dataEndPos = pos then data
  else if type = .add ∧ data.pos > pos then { data with pos := data.pos + len }
  else if type ≠ .add ∧ data.pos > endPos then
    if type = .del then { data with pos := data.pos - len } else data
  else if type = .del ∧ dataEndPos > endPos then
    { data with
      len := data.len - scPosdiff data.pos endPos
      off := data.off + scPosdiff data.pos endPos
      pos := pos }
  else { data with len := 0 }

/-- `vstr__cache_cbs`: the internal callbacks, in slot order. -/
def cacheCbs (b : Base) (pos len : Nat) (type : CacheType) : Base :=
  { b with
    posData := cachePosCb pos type b.posData
    cstr := b.cstr.map (cacheCstrCb pos len type)
    cacheInternal := b.cacheInternal || (b.cstr.isNone && !b.userData) }

/-- `vstr__cache_add`. -/
def cacheAdd (b : Base) (pos len : Nat) : Base :=
  if b.cacheAvailable then cacheCbs b pos len .add else b

/-- `vstr__cache_del`. -/
def cacheDel (b : Base) (pos len : Nat) : Base :=
  if b.cacheAvailable then cacheCbs b pos len .del else b

/-- `vstr_cache_cb_sub`. -/
def cacheCbSub (b : Base) (pos len : Nat) : Base :=
  if b.cacheAvailable then cacheCbs b pos len .sub else b

/-- `vstr_cache__pos`: remember a node. -/
def cachePos (b : Base) (node pos num : Nat) : Base :=
  if b.cacheAvailable then { b with posData := ⟨some node, pos, num⟩ } else b

/-- Change the vector cache, if there is one. -/
def Base.mapVec (b : Base) (f : IovecData → IovecData) : Base := { b with vec := b.vec.map f }

/-- Store one vector and its type. -/
def IovecData.set (d : IovecData) (i : Nat) (iov : Iovec) (ty : NodeType) : IovecData :=
  { d with v := Function.update d.v i iov, t := Function.update d.t i ty }

/-- Store one vector and leave its type. -/
def IovecData.setIov (d : IovecData) (i : Nat) (iov : Iovec) : IovecData :=
  { d with v := Function.update d.v i iov }

/-- `vstr__cache_iovec_add_end`. -/
def cacheIovecAddEnd (h : Heap) (b : Base) (node : Node) (len : Nat) : Base :=
  b.mapVec fun vec => vec.set (vec.off + b.num - 1) ⟨exportNodePtr h node, len⟩ node.type

/-- `vstr__cache_iovec_add_beg`. -/
def cacheIovecAddBeg (h : Heap) (b : Base) (node : Node) (len : Nat) : Base :=
  b.mapVec fun vec =>
    { vec with off := vec.off - 1 }.set (vec.off - 1) ⟨exportNodePtr h node, len⟩ node.type

/-- `vstr__cache_iovec_add_node_end`. -/
def cacheIovecAddNodeEnd (b : Base) (num len : Nat) : Base :=
  if b.iovecUptoDate then
    b.mapVec fun vec =>
      let i := num + vec.off - 1
      vec.setIov i { vec.v i with len := (vec.v i).len + len }
  else b

/-- `vstr__cache_iovec_maybe_add`. -/
def cacheIovecMaybeAdd (h : Heap) (b : Base) (node : Node) (atEnd : Bool) (len : Nat) : Base :=
  match b.vec with
  | none => b
  | some vec =>
    if b.iovecUptoDate then
      if atEnd ∧ b.num ≤ vec.sz - vec.off then cacheIovecAddEnd h b node len
      else if ¬ atEnd ∧ vec.off ≠ 0 then cacheIovecAddBeg h b node len
      else { b with iovecUptoDate := false }
    else b

/-- `vstr__cache_iovec_reset_node`. -/
def cacheIovecResetNode (h : Heap) (b : Base) (node : Node) (num : Nat) : Base :=
  if b.iovecUptoDate then
    let used := if num = 1 then b.used else 0
    b.mapVec fun vec => vec.set (vec.off + (num - 1))
      ⟨(exportNodePtr h node).map (·.add used), node.len - used⟩ node.type
  else b

/-- `vstr__cache_iovec_reset`. -/
def cacheIovecReset (conf : Conf) (b : Base) : Base :=
  match b.vec with
  | none => b
  | some vec =>
    if b.cacheAvailable ∧ vec.sz ≠ 0 then
      { b with
        iovecUptoDate := true
        vec := some { vec with
          off := if vec.sz > conf.iovMinOffset then conf.iovMinOffset else 0 } }
    else b

/-- `vstr__cache_iovec_del_node_end`. -/
def cacheIovecDelNodeEnd (b : Base) (num len : Nat) : Base :=
  if b.iovecUptoDate then
    b.mapVec fun vec =>
      let i := num + vec.off - 1
      vec.setIov i { vec.v i with len := (vec.v i).len - len }
  else b

/-- `vstr__cache_iovec_del_node_beg`. -/
def cacheIovecDelNodeBeg (b : Base) (node : Node) (num len : Nat) : Base :=
  if b.iovecUptoDate then
    b.mapVec fun vec =>
      let i := num + vec.off - 1
      vec.setIov i ⟨if node.type = .non then (vec.v i).base else (vec.v i).base.map (·.add len),
        (vec.v i).len - len⟩
  else b

/-- `vstr__cache_iovec_del_beg`. -/
def cacheIovecDelBeg (b : Base) (num : Nat) : Base :=
  if b.iovecUptoDate then b.mapVec fun vec => { vec with off := vec.off + num } else b

/-- `vstr__cache_iovec_memmove`. -/
def cacheIovecMemmove (conf : Conf) (num : Nat) (vec : IovecData) : IovecData :=
  let off := conf.iovMinOffset
  { vec with
    v := fun i => if off ≤ i ∧ i < off + num then vec.v (vec.off + (i - off)) else vec.v i
    t := fun i => if off ≤ i ∧ i < off + num then vec.t (vec.off + (i - off)) else vec.t i
    off := off }

/-- The arrays of a vector cache as `malloc` returns them. -/
def IovecData.fresh (sz : Nat) : IovecData := ⟨fun _ => ⟨none, 0⟩, fun _ => .buf, 0, sz⟩

/-- Several allocations in a row; the first refusal stops. -/
def Heap.mallocs (h : Heap) : Nat → Bool × Heap
  | 0 => (true, h)
  | n + 1 =>
    match h.malloc with
    | (false, h) => (false, h)
    | (true, h) => h.mallocs n

/-- The first part of `vstr__cache_iovec_alloc`: the vector structure, its cache
slot and its two arrays. -/
def cacheIovecMake (s : St) (sz : Nat) : Bool × St :=
  match s.base.vec with
  | some _ => (true, s)
  | none =>
    match s.heap.mallocs 4 with
    | (false, h) => (false, { s with heap := h.mallocBad s.base.conf })
    | (true, h) =>
      (true, ⟨h, { s.base with
        vec := some (.fresh ((sz + s.conf.iovMinAlloc + s.conf.iovMinOffset) % 2 ^ 32)) }⟩)

/-- The offset `vstr__cache_iovec_alloc` leaves the vectors at. -/
def cacheIovecAlign (s : St) (sz : Nat) (vec : IovecData) : IovecData :=
  if ¬ s.base.iovecUptoDate then { vec with off := s.conf.iovMinOffset }
  else if vec.off > s.conf.iovMinOffset ∧ sz > uintSub vec.sz vec.off then
    cacheIovecMemmove s.conf s.base.num vec
  else vec

/-- `vstr__cache_iovec_alloc`. -/
def cacheIovecAlloc (s : St) (sz : Nat) : Bool × St :=
  if ¬ s.base.cacheAvailable then (false, s)
  else
    match cacheIovecMake s sz with
    | (false, s) => (false, s)
    | (true, s) =>
      match s.base.vec with
      | none => (false, s)
      | some vec =>
        let vec := cacheIovecAlign s sz vec
        let s := { s with base := { s.base with vec := some vec } }
        if sz > uintSub vec.sz vec.off then
          match s.heap.mallocs 2 with
          | (false, h) => (false, { s with heap := h.mallocBad s.base.conf })
          | (true, h) =>
            (true, ⟨h, { s.base with
              vec := some { vec with sz := (sz + s.conf.iovMinOffset) % 2 ^ 32 } }⟩)
        else (true, s)

/-- The vector of a node whose first `used` bytes are consumed. -/
def nodeIovec (h : Heap) (used : Nat) (n : Node) : Iovec :=
  ⟨(exportNodePtr h n).map (·.add used), n.len - used⟩

/-- Store the vectors of `nodes` from index `i` on. -/
def IovecData.setNodes (h : Heap) (d : IovecData) (i : Nat) : List Node → IovecData
  | [] => d
  | n :: ns => IovecData.setNodes h (d.set i (nodeIovec h 0 n) n.type) (i + 1) ns

/-- `vstr__cache_iovec_valid`. -/
def cacheIovecValid (s : St) : Bool × St :=
  if s.base.iovecUptoDate then (true, s)
  else
    match s.base.nodes with
    | [] =>
      match s.base.vec with
      | none => (true, s)
      | some vec =>
        (true, if s.base.cacheAvailable ∧ vec.sz ≠ 0 then
            { s with base := { s.base with iovecUptoDate := true } } else s)
    | n :: ns =>
      match cacheIovecAlloc s s.base.num with
      | (false, s) => (false, s)
      | (true, s) =>
        let count := s.conf.iovMinOffset
        (true, { s with base := { s.base.mapVec fun vec =>
            (vec.set count (nodeIovec s.heap s.base.used n) n.type).setNodes s.heap (count + 1) ns
          with iovecUptoDate := true } })

/-- `vstr__init_base`, once `vstr__init_base_cache` made the caches there are. -/
def initBase (h : Heap) (conf : Nat) (cacheAvailable : Bool) (vec : Option IovecData) : Base :=
  { len := 0
    nodes := []
    endNode := none
    num := 0
    conf
    used := 0
    iovecUptoDate := cacheAvailable && vec.isSome
    cacheAvailable
    cacheInternal := true
    nodeUsed := fun _ => false
    posData := ⟨none, 0, 0⟩
    vec := vec.map fun vec => { vec with off := (h.confs conf).iovMinOffset }
    cstr := none
    userData := false }

end Vstr
