import Vstr.Model.Add

/-!
# Adding through vectors

`vstr_add_iovec_buf_beg` hands out the tail of the node at the position and the
buffers of spare nodes, the caller writes into them, and `vstr_add_iovec_buf_end`
links what was filled.
-/

namespace Vstr

open Memory

/-- What `vstr_add_iovec_buf_beg` returns. -/
structure IovecBuf where
  /-- Bytes the vectors hold. -/
  bytes : Nat
  /-- Index of the first vector: `*ret_iovs`. -/
  start : Nat
  /-- Number of vectors. -/
  num : Nat
  deriving DecidableEq, Repr

/-- The loop of `vstr_add_iovec_buf_beg` over the spare list; behind its last node
there is no buffer to point to. -/
def iovecBufFill (bufSz : Nat) : Nat → List Nat → Nat → IovecData → IovecData
  | 0, _, _, vec => vec
  | num + 1, ids, i, vec =>
    iovecBufFill bufSz num ids.tail (i + 1)
      (vec.set i ⟨ids.head?.map fun id => ⟨.node id, 0⟩, bufSz⟩ .buf)

/-- The end of `vstr_add_iovec_buf_beg`: `num` vectors from `start` on are there,
`sz` are wanted. -/
def iovecBufSpare (s : St) (sz start num bytes : Nat) : Option IovecBuf × St :=
  let bufSz := s.conf.bufSz
  let ids := s.conf.spare .buf
  (some ⟨bytes + (sz - num) * bufSz, start, max num sz⟩,
    { s with base := s.base.mapVec (iovecBufFill bufSz (sz - num) ids (start + num)) })

/-- `vstr_add_iovec_buf_beg` once the vector cache is valid. -/
def iovecBufPos (s : St) (pos sz max off : Nat) : Option IovecBuf × St :=
  if pos ≠ 0 then
    if pos > s.base.len then (none, s)
    else
      match addSetupPos s pos with
      | (none, s) => (none, s)
      | (some f, s) =>
        let scan := s.base.node f.idx
        if scan.type = .buf ∧ s.conf.bufSz > scan.len then
          let start := off + (f.num - 1)
          let iov : Iovec := ⟨some ⟨.node scan.id, f.pos⟩, s.conf.bufSz - f.pos⟩
          let s := { s with base := { s.base.mapVec (·.setIov start iov) with
            iovecUptoDate := false } }
          iovecBufSpare s (if sz < max then sz + 1 else sz) start 1 iov.len
        else iovecBufSpare { s with base := addKillIovec s.base f.idx } sz (off + f.num) 0 0
  else if s.base.len ≠ 0 then
    iovecBufSpare { s with base := { s.base with iovecUptoDate := false } } sz off 0 0
  else iovecBufSpare s sz off 0 0

/-- `vstr_add_iovec_buf_beg`. -/
def addIovecBufBeg (s : St) (pos min max : Nat) : Option IovecBuf × St :=
  if max = 0 ∨ max < min then (none, s)
  else
    let min := if pos ≠ s.base.len then (min + 1) % 2 ^ 32 else min
    match rangeSpare s.heap s.base.conf .buf min with
    | (false, h) => (none, { s with heap := h })
    | (true, h) =>
      let s := { s with heap := h }
      let sz := Nat.min max (s.conf.spareNum .buf)
      match cacheIovecAlloc s ((s.base.num + sz) % 2 ^ 32) with
      | (false, s) => (none, s)
      | (true, s) =>
        let s := (cacheIovecValid s).2
        match s.base.vec with
        | none => (none, s)
        | some vec => iovecBufPos s pos sz max vec.off

/-- The vectors handed out. -/
def IovecBuf.iovs (r : IovecBuf) (b : Base) : List Iovec :=
  match b.vec with
  | none => []
  | some vec => (List.range r.num).map fun i => vec.v (r.start + i)

/-- The caller writes a byte string across vectors, in order. -/
def writeIovecs (m : Mem Blk UInt8) : List Iovec → List UInt8 → Mem Blk UInt8
  | [], _ => m
  | iov :: iovs, bs =>
    let m := match iov.base with
      | none => m
      | some p => write m p (bs.take iov.len)
    writeIovecs m iovs (bs.drop iov.len)

/-- The part of `vstr_add_iovec_buf_end` about the node at the position: how many
bytes are left for new nodes, where those go, the index of their vectors, the node
at the position, and the base. `base->end` is taken away when that node is the last. -/
def iovecBufFirst (s : St) (pos bytes off : Nat) : (Nat × Nat × Nat × Option Nat) × St :=
  if pos ≠ 0 then
    let r := s.pos pos true
    let f := r.1
    let s := r.2
    let scan := s.base.node f.idx
    let isEnd : Bool := some scan.id = s.base.endNode
    if scan.type = .buf ∧ s.conf.bufSz > scan.len then
      let first := match s.base.vec with
        | none => 0
        | some vec => min (vec.v (off + (f.num - 1))).len bytes
      let scan := { scan with len := scan.len + first }
      let b := { s.base with
        nodes := s.base.nodes.set f.idx scan
        endNode := if isEnd then none else s.base.endNode
        iovecUptoDate := isEnd || s.base.iovecUptoDate }
      ((bytes - first, f.idx + 1, off + f.num, some scan.id),
        { s with base := cacheIovecResetNode s.heap b scan f.num })
    else
      ((bytes, f.idx + 1, off + f.num, some scan.id),
        { s with base := { s.base with
          endNode := if isEnd then none else s.base.endNode } })
  else ((bytes, 0, off, none), s)

/-- `vstr_add_iovec_buf_end` when no spare node is needed. -/
def iovecBufNone (s : St) (idx start : Nat) (scan : Option Nat) : St :=
  let b := { s.base with endNode := if s.base.endNode = none then scan else s.base.endNode }
  let tail (vec : IovecData) : IovecData :=
    match b.nodes.drop idx with
    | [] => vec
    | n :: ns =>
      let used := if idx = 0 then b.used else 0
      let iov : Iovec := ⟨(exportNodePtr s.heap n).map (·.add used), n.len⟩
      (vec.set start iov n.type).setNodes s.heap (start + 1) ns
  { s with base := if ¬ b.iovecUptoDate ∧ b.len ≠ 0 then b.mapVec tail else b }

/-- The loop of `vstr_add_iovec_buf_end` over the spare list. -/
def iovecBufNodes (vec : IovecData) : List Nat → Nat → Nat → List Node
  | [], _, _ => []
  | id :: ids, i, bytes =>
    let tmp := min (vec.v i).len bytes
    if bytes - tmp = 0 then [⟨id, tmp, .buf⟩]
    else ⟨id, tmp, .buf⟩ :: iovecBufNodes vec ids (i + 1) (bytes - tmp)

/-- `vstr_add_iovec_buf_end` when `bytes` go into spare nodes. -/
def iovecBufLink (s : St) (idx start bytes : Nat) : St :=
  match s.base.vec with
  | none => s
  | some vec =>
    let new := iovecBufNodes vec (s.conf.spare .buf) start bytes
    let count := new.length
    let last := start + (count - 1)
    let vec := vec.setIov last { vec.v last with len := (new.getLast?.map Node.len).getD 0 }
    let rest := s.base.nodes.drop idx
    ⟨s.heap.dropSpare s.base.conf .buf count, { s.base with
      nodes := s.base.nodes.take idx ++ new ++ rest
      endNode := if rest = [] then new.getLast?.map Node.id else s.base.endNode
      num := s.base.num + count
      vec := some (if s.base.iovecUptoDate then vec
        else vec.setNodes s.heap (start + count) rest)
      iovecUptoDate := true }⟩

/-- `vstr_add_iovec_buf_end`. -/
def addIovecBufEnd (s : St) (pos bytes : Nat) : St :=
  match s.base.vec with
  | none => s
  | some vec =>
    let b := if bytes ≠ 0 then
        { s.base with nodeUsed := Function.update s.base.nodeUsed .buf true } else s.base
    let r := iovecBufFirst { s with base := b } pos bytes vec.off
    let s := { r.2 with base := { r.2.base with len := r.2.base.len + bytes } }
    let s := if r.1.1 = 0 then iovecBufNone s r.1.2.1 r.1.2.2.1 r.1.2.2.2
      else iovecBufLink s r.1.2.1 r.1.2.2.1 r.1.1
    if bytes ≠ 0 then { s with base := cacheAdd s.base pos bytes } else s

end Vstr
