import Mathlib.Algebra.Order.Ring.Int
import Vstr.Lib.Memory
import Mathlib.Logic.Function.Basic

/-!
# Nodes, configurations and bases

The data model of `vstr-def.h`. A node keeps its identity (the address of the
`Vstr_node` structure) because the position cache stores raw node pointers, and
memory is explicit because `PTR` and `REF` nodes only name bytes. The buffer of a
`BUF` node is the block of its own node; memory owned by the caller, or obtained
for a `Vstr_ref`, is an external block. Counters are natural numbers; the places
where the width of a field decides what happens (the `off` of a `REF` node, the
range checks and the differences of unsigned values) are written out.
-/

namespace Vstr

open Memory

/-- `VSTR_TYPE_NODE_*`. -/
inductive NodeType where
  | buf
  | non
  | ptr
  | ref
  deriving DecidableEq, Repr

/-- What a block is: the buffer inside a `Vstr_node_buf`, or any other memory. -/
inductive Blk where
  | node (id : Nat)
  | ext (n : Nat)
  deriving DecidableEq, Repr

/-- A `char *`. -/
abbrev Addr := Ptr Blk

/-- The type specific part of a node. -/
inductive Payload where
  /-- `Vstr_node_buf`: the bytes are in the node itself. -/
  | buf
  /-- `Vstr_node_non`: no bytes at all. -/
  | non
  /-- `Vstr_node_ptr`. -/
  | ptr (ptr : Addr)
  /-- `Vstr_node_ref`: a reference and a 32 bit offset from its pointer. -/
  | ref (ref off : Nat)
  deriving DecidableEq, Repr

/-- `Vstr_node`; `next` is the order of the list the node is on. -/
structure Node where
  /-- The address of the node. -/
  id : Nat
  /-- Bytes in the node, 28 bits. -/
  len : Nat
  /-- Type and type specific fields. -/
  data : Payload
  deriving DecidableEq, Repr

/-- `node->type`. -/
def Node.type (n : Node) : NodeType :=
  match n.data with
  | .buf => .buf
  | .non => .non
  | .ptr _ => .ptr
  | .ref _ _ => .ref

/-- `VSTR_MAX_NODE_ALL`: `node->len` is 28 bits. -/
def maxNodeAll : Nat := 0xFFFFFFF

/-- `VSTR_MAX_NODE_BUF`: `base->used` is 16 bits. -/
def maxNodeBuf : Nat := 0xFFFF

/-- A store to the `unsigned int off` of a `Vstr_node_ref`. -/
def refOff (off : Nat) : Nat := off % 2 ^ 32

/-- A `size_t` difference, wrapping below zero. -/
def sizeSub (a b : Nat) : Nat := if b ≤ a then a - b else a + 2 ^ 64 - b

/-- An `unsigned int` difference, wrapping below zero. -/
def uintSub (a b : Nat) : Nat := if b ≤ a then a - b else a + 2 ^ 32 - b

/-- The `func` of a `Vstr_ref`, run when the last reference goes. -/
inductive RefFunc where
  /-- Frees memory that no list node owns, or nothing. -/
  | free
  /-- `vstr__ref_cb_relink_bufnode_ref`: the buffer goes back to this conf. -/
  | relink (conf : Nat)
  deriving DecidableEq, Repr

/-- `Vstr_ref`. -/
structure Ref where
  /-- `ref->ptr`. -/
  ptr : Addr
  /-- `ref->ref`, the reference count. -/
  ref : Nat
  /-- `ref->func`. -/
  func : RefFunc
  deriving DecidableEq, Repr

/-- `Vstr_conf`, as far as strings use it. -/
structure Conf where
  /-- Capacity of a `BUF` node. -/
  bufSz : Nat
  /-- `split_buf_del`: split a `BUF` node rather than move its tail down. -/
  splitBufDel : Bool
  /-- `iov_min_alloc`. -/
  iovMinAlloc : Nat
  /-- `iov_min_offset`. -/
  iovMinOffset : Nat
  /-- The `spare_*_beg` lists. -/
  spare : NodeType → List Nat
  /-- The `spare_*_num` counters. -/
  spareNum : NodeType → Nat
  /-- `malloc_bad`. -/
  mallocBad : Bool

/-- Everything that is not a base. -/
structure Heap where
  /-- The bytes of all blocks. -/
  mem : Mem Blk UInt8
  /-- Allocated size of each block. -/
  size : Blk → Nat
  /-- The `Vstr_ref` objects. -/
  refs : Nat → Ref
  /-- The configurations. -/
  confs : Nat → Conf
  /-- No node, block or reference from here on has been handed out. -/
  next : Nat
  /-- Whether the `n`th allocation succeeds. -/
  grant : Nat → Bool
  /-- Allocations asked for so far. -/
  tick : Nat

/-- `Vstr__cache_data_pos`. -/
structure PosData where
  /-- The cached node, or `NULL`. -/
  node : Option Nat
  /-- Position of its first live byte. -/
  pos : Nat
  /-- Its number on the list, from one. -/
  num : Nat
  deriving DecidableEq, Repr

/-- `struct iovec`. -/
structure Iovec where
  /-- `iov_base`. -/
  base : Option Addr
  /-- `iov_len`. -/
  len : Nat
  deriving DecidableEq, Repr

/-- `Vstr__cache_data_iovec`. -/
structure IovecData where
  /-- The vectors. -/
  v : Nat → Iovec
  /-- The node type of each vector. -/
  t : Nat → NodeType
  /-- Index of the vector of the first node. -/
  off : Nat
  /-- Allocated length of both arrays. -/
  sz : Nat

/-- `Vstr__cache_data_cstr`. -/
structure CstrData where
  /-- Position of the cached slice. -/
  pos : Nat
  /-- Length of the cached slice; zero when there is none. -/
  len : Nat
  /-- The reference that holds the bytes. -/
  ref : Option Nat
  /-- Bytes the reference was allocated with. -/
  sz : Nat
  /-- Where the slice starts in the reference. -/
  off : Nat
  deriving DecidableEq, Repr

/-- `Vstr_base` and its internal caches. -/
structure Base where
  /-- Bytes in the string. -/
  len : Nat
  /-- The nodes reached from `beg`. -/
  nodes : List Node
  /-- `base->end`. -/
  endNode : Option Nat
  /-- Number of nodes. -/
  num : Nat
  /-- `base->conf`. -/
  conf : Nat
  /-- Bytes already consumed at the beginning of the first node, 16 bits. -/
  used : Nat
  /-- `iovec_upto_date`. -/
  iovecUptoDate : Bool
  /-- `cache_available`. -/
  cacheAvailable : Bool
  /-- `cache_internal`: no user cache holds data. -/
  cacheInternal : Bool
  /-- `node_buf_used`, `node_non_used`, `node_ptr_used` and `node_ref_used`. -/
  nodeUsed : NodeType → Bool
  /-- Cache slot 1, always there when a cache is. -/
  posData : PosData
  /-- `VSTR__CACHE(base)->vec`. -/
  vec : Option IovecData
  /-- Cache slot 3. -/
  cstr : Option CstrData
  /-- Some user cache slot holds data. -/
  userData : Bool

/-- One base and the memory it lives in: what a single string operation sees. -/
structure St where
  /-- Memory, references and configurations. -/
  heap : Heap
  /-- The string. -/
  base : Base

/-- `base->conf`. -/
def St.conf (s : St) : Conf := s.heap.confs s.base.conf

/-- `vstr_export__node_ptr`. -/
def exportNodePtr (h : Heap) (n : Node) : Option Addr :=
  match n.data with
  | .buf => some ⟨.node n.id, 0⟩
  | .non => none
  | .ptr p => some p
  | .ref r off => some ((h.refs r).ptr.add off)

end Vstr
