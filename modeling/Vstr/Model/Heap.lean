import Vstr.Model.State

/-!
# Allocation, spare nodes and references

Every allocation asks the heap whether it is granted, so a run is quantified over
all patterns of failure by quantifying over the heap it starts from. The group
allocator behind `vstr__ref_grp_add` is reduced to the one allocation it may need
when its current group is full.
-/

namespace Vstr

open Memory

/-- `VSTR__MK`: one allocation, granted or refused. -/
def Heap.malloc (h : Heap) : Bool × Heap :=
  (h.grant h.tick, { h with tick := h.tick + 1 })

/-- Replace one configuration. -/
def Heap.setConf (h : Heap) (c : Nat) (k : Conf) : Heap :=
  { h with confs := Function.update h.confs c k }

/-- Replace one reference. -/
def Heap.setRef (h : Heap) (r : Nat) (ref : Ref) : Heap :=
  { h with refs := Function.update h.refs r ref }

/-- Replace the bytes. -/
def Heap.setMem (h : Heap) (m : Mem Blk UInt8) : Heap := { h with mem := m }

/-- `conf->malloc_bad = TRUE`. -/
def Heap.mallocBad (h : Heap) (c : Nat) : Heap :=
  h.setConf c { h.confs c with mallocBad := true }

/-- Put nodes in front of a spare list. -/
def Heap.pushSpare (h : Heap) (c : Nat) (ty : NodeType) (ids : List Nat) : Heap :=
  let k := h.confs c
  h.setConf c { k with
    spare := Function.update k.spare ty (ids ++ k.spare ty)
    spareNum := Function.update k.spareNum ty (k.spareNum ty + ids.length) }

/-- Take the first `n` nodes of a spare list off it. -/
def Heap.dropSpare (h : Heap) (c : Nat) (ty : NodeType) (n : Nat) : Heap :=
  let k := h.confs c
  h.setConf c { k with
    spare := Function.update k.spare ty ((k.spare ty).drop n)
    spareNum := Function.update k.spareNum ty (k.spareNum ty - n) }

/-- The node at the head of a spare list. -/
def Heap.headSpare (h : Heap) (c : Nat) (ty : NodeType) : Nat :=
  ((h.confs c).spare ty).headD 0

/-- `vstr__make_spare_node`. -/
def makeSpareNode (h : Heap) (c : Nat) (ty : NodeType) : Bool × Heap :=
  match h.malloc with
  | (false, h) => (false, h.mallocBad c)
  | (true, h) =>
    (true, { h with
      next := h.next + 1
      size := Function.update h.size (.node h.next) (h.confs c).bufSz }.pushSpare c ty [h.next])

/-- `vstr_make_spare_nodes`; false when fewer than asked for could be made. -/
def makeSpareNodes (h : Heap) (c : Nat) (ty : NodeType) : Nat → Bool × Heap
  | 0 => (true, h)
  | num + 1 =>
    match makeSpareNode h c ty with
    | (false, h) => (false, h)
    | (true, h) => makeSpareNodes h c ty num

/-- `vstr_cntl_conf(conf, VSTR_CNTL_CONF_SET_NUM_RANGE_SPARE_*, min, UINT_MAX)`. -/
def rangeSpare (h : Heap) (c : Nat) (ty : NodeType) (min : Nat) : Bool × Heap :=
  let spareNum := (h.confs c).spareNum ty
  if min > spareNum then makeSpareNodes h c ty (min - spareNum) else (true, h)

/-- `vstr__relink_nodes`: a run of nodes of one type goes to its spare list. -/
def relinkNodes (h : Heap) (c : Nat) (run : List Node) : Heap :=
  match run with
  | [] => h
  | beg :: _ => h.pushSpare c beg.type (run.map Node.id)

/-- `vstr_ref_add`. -/
def refAdd (h : Heap) (r : Nat) : Heap :=
  h.setRef r { h.refs r with ref := (h.refs r).ref + 1 }

/-- The call of `ref->func` once the count is zero. -/
def refFunc (h : Heap) (ref : Ref) : Heap :=
  match ref.func, ref.ptr.blk with
  | .relink c, .node id => h.pushSpare c .buf [id]
  | _, _ => h

/-- `vstr_ref_del`. -/
def refDel (h : Heap) (r : Nat) : Heap :=
  let ref := { h.refs r with ref := (h.refs r).ref - 1 }
  let h := h.setRef r ref
  if ref.ref = 0 then refFunc h ref else h

/-- `vstr_ref_make_malloc`: a reference with `len` fresh bytes. -/
def refMakeMalloc (h : Heap) (len : Nat) : Option Nat × Heap :=
  match h.malloc with
  | (false, h) => (none, h)
  | (true, h) =>
    (some h.next, { h with
      next := h.next + 1
      size := Function.update h.size (.ext h.next) len
      refs := Function.update h.refs h.next ⟨⟨.ext h.next, 0⟩, 1, .free⟩ })

/-- `vstr__ref_grp_add`: a reference to memory that is already there. -/
def refGrpAdd (h : Heap) (ptr : Addr) (func : RefFunc) : Option Nat × Heap :=
  match h.malloc with
  | (false, h) => (none, h)
  | (true, h) =>
    (some h.next, { h with
      next := h.next + 1
      refs := Function.update h.refs h.next ⟨ptr, 1, func⟩ })

/-- `vstr__del_node`: free the resources of a node. -/
def delNode (h : Heap) (n : Node) : Heap :=
  match n.data with
  | .ref r _ => refDel h r
  | _ => h

end Vstr
