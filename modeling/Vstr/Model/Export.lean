import Vstr.Model.Pos

/-!
# Exporting data, and turning buffers into references

`vstr_export.c` and `vstr_cstr.c`, with the conversion of a `BUF` node into a
`REF` node to its own buffer that `vstr_export_ref` and `vstr_add_vstr` use.
-/

namespace Vstr

open Memory

/-- `vstr_export_iovec_ptr_all`: the length returned, and the vectors. -/
def exportIovecPtrAll (s : St) : Nat × List Iovec × St :=
  if s.base.num = 0 then (0, [], s)
  else
    match cacheIovecValid s with
    | (false, s) => (0, [], s)
    | (true, s) =>
      match s.base.vec with
      | none => (s.base.len, [], s)
      | some vec => (s.base.len, (List.range s.base.num).map fun i => vec.v (vec.off + i), s)

/-- The copying loop of `vstr_export_buf`; `NON` stretches leave the destination as
it was. -/
def exportLoop (h : Heap) (buf : Addr) : List Iter → Heap
  | [] => h
  | it :: its =>
    let h' := match it.ptr h with
      | none => h
      | some p => h.setMem (copy h.mem buf p it.len)
    exportLoop h' (buf.add it.len) its

/-- `vstr_export_buf`. -/
def exportBuf (s : St) (pos len : Nat) (buf : Addr) (bufLen : Nat) : Nat × St :=
  if ¬ rangeOk s.base pos len ∨ bufLen = 0 then (0, s)
  else
    match iterFwdBeg s pos (min len bufLen) with
    | (none, s) => (0, s)
    | (some it, s) =>
      (min len bufLen,
        { s with heap := exportLoop s.heap buf (iterAll s.base s.base.nodes.length it) })

/-- `vstr_export_cstr_buf`. -/
def exportCstrBuf (s : St) (pos len : Nat) (buf : Addr) (bufLen : Nat) : Nat × St :=
  if ¬ rangeOk s.base pos len ∨ bufLen = 0 then (0, s)
  else
    let cpyLen := if len ≥ bufLen then bufLen - 1 else len
    let s := (exportBuf s pos len buf cpyLen).2
    (cpyLen + 1, { s with heap := s.heap.setMem (write s.heap.mem (buf.add cpyLen) [0]) })

/-- `vstr__export_cstr_ref`. -/
def exportCstrMake (s : St) (pos len : Nat) : Option Nat × St :=
  match refMakeMalloc s.heap (len + 1) with
  | (none, h) => (none, { s with heap := h.mallocBad s.base.conf })
  | (some r, h) => (some r, (exportCstrBuf { s with heap := h } pos len (h.refs r).ptr (len + 1)).2)

/-- The cache slot of `vstr__export_cstr_cache`, made when it is missing. -/
def cstrSlot (s : St) : Option CstrData × St :=
  if ¬ s.base.cacheAvailable then (none, s)
  else
    match s.base.cstr with
    | some data => (some data, s)
    | none =>
      match s.heap.mallocs 2 with
      | (false, h) => (none, { s with heap := h.mallocBad s.base.conf })
      | (true, h) =>
        let data : CstrData := ⟨0, 0, none, 0, 0⟩
        (some data, ⟨h, { s.base with cstr := some data }⟩)

/-- Set the C string cache slot. -/
def St.setCstr (s : St) (data : CstrData) : St :=
  { s with base := { s.base with cstr := some data } }

/-- The end of `vstr__export_cstr_cache`: a fresh copy goes into the cache. -/
def exportCstrFresh (s : St) (pos len : Nat) : Option (Nat × Nat) × St :=
  match exportCstrMake s pos len with
  | (none, s) => (none, s)
  | (some r, s) => (some (r, 0), s.setCstr ⟨pos, len, some r, len + 1, 0⟩)

/-- `vstr__export_cstr_cache`: the reference that holds the slice and its offset. -/
def exportCstrCache (s : St) (pos len : Nat) : Option (Nat × Nat) × St :=
  if ¬ rangeOk s.base pos len then (none, s)
  else
    match cstrSlot s with
    | (none, s) => (none, s)
    | (some data, s) =>
      match data.ref with
      | none => exportCstrFresh s pos len
      | some r =>
        if data.len ≠ 0 ∧ pos ≥ data.pos ∧ sizeSub data.len (pos - data.pos) = len then
          (some (r, data.off + (pos - data.pos)), s)
        else if data.sz ≤ len ∨ (s.heap.refs r).ref ≠ 1 then
          let s := { s with heap := refDel s.heap r }.setCstr { data with ref := none }
          exportCstrFresh s pos len
        else
          let s := (exportCstrBuf s pos len (s.heap.refs r).ptr (len + 1)).2
          (some (r, 0), s.setCstr ⟨pos, len, some r, data.sz, 0⟩)

/-- `vstr_export_cstr_ptr`. -/
def exportCstrPtr (s : St) (pos len : Nat) : Option Addr × St :=
  let r := exportCstrCache s pos len
  (r.1.map fun ro => (r.2.heap.refs ro.1).ptr.add ro.2, r.2)

/-- `vstr_export_cstr_ref`. -/
def exportCstrRef (s : St) (pos len : Nat) : Option (Nat × Nat) × St :=
  if ¬ s.base.cacheAvailable then
    let r := exportCstrMake s pos len
    (r.1.map fun r => (r, 0), r.2)
  else
    match exportCstrCache s pos len with
    | (none, s) => (none, s)
    | (some ro, s) => (some ro, { s with heap := refAdd s.heap ro.1 })

/-- `vstr__chg_node_buf_ref`: the `BUF` node at `idx` becomes a `REF` node to its
own buffer. -/
def chgNodeBufRef (s : St) (idx num : Nat) : Bool × St :=
  let scan := s.base.node idx
  let c := s.base.conf
  match rangeSpare s.heap c .ref 1 with
  | (false, h) => (false, { s with heap := h })
  | (true, h) =>
    match refGrpAdd h ⟨.node scan.id, 0⟩ (.relink c) with
    | (none, h) => (false, { s with heap := h.mallocBad c })
    | (some r, h) =>
      match h.malloc with
      | (false, h) =>
        (false, { s with
          heap := (refDel (h.setRef r { h.refs r with func := .free }) r).mallocBad c })
      | (true, h) =>
        let id := h.headSpare c .ref
        let h := h.dropSpare c .ref 1
        let used := if idx = 0 then s.base.used else 0
        let node : Node := ⟨id, scan.len - used, .ref r used⟩
        (true, ⟨h, { s.base with
          nodeUsed := Function.update s.base.nodeUsed .ref true
          used := if idx = 0 then 0 else s.base.used
          nodes := s.base.nodes.set idx node
          endNode := if idx + 1 < s.base.nodes.length then s.base.endNode else some id
          posData := if s.base.cacheAvailable ∧ s.base.posData.node = some scan.id then
              { s.base.posData with node := some id } else s.base.posData
          vec := if s.base.iovecUptoDate then
              s.base.vec.map fun vec =>
                { vec with t := Function.update vec.t (num + vec.off - 1) .ref }
            else s.base.vec }⟩)

/-- The loop of `vstr__convert_buf_ref`; `fuel` bounds the number of nodes. -/
def convertLoop : Nat → Nat → Nat → Nat → St → Bool × St
  | 0, _, _, _, s => (true, s)
  | fuel + 1, idx, num, len, s =>
    if idx < s.base.nodes.length then
      match (if (s.base.node idx).type = .buf then chgNodeBufRef s idx num else (true, s)) with
      | (false, s) => (false, s)
      | (true, s) =>
        if len ≤ (s.base.node idx).len then (true, s)
        else convertLoop fuel (idx + 1) (num + 1) (len - (s.base.node idx).len) s
    else (true, s)

/-- `vstr__convert_buf_ref`. -/
def convertBufRef (s : St) (pos len : Nat) : Bool × St :=
  let f := basePtrPos s.base pos
  let len := len + (f.pos - 1) - if f.idx = 0 then s.base.used else 0
  convertLoop s.base.nodes.length f.idx f.num len s

/-- The part of `vstr_export_ref` that looks at the nodes. -/
def exportRefNodes (s : St) (pos len : Nat) : Option (Nat × Nat) × St :=
  let f := basePtrPos s.base pos
  let scan := s.base.node f.idx
  let off := f.pos - 1
  let copied : Option (Nat × Nat) × St :=
    match refMakeMalloc s.heap len with
    | (none, h) => (none, { s with heap := h.mallocBad s.base.conf })
    | (some r, h) =>
      (some (r, 0), (exportBuf { s with heap := h } pos len (h.refs r).ptr len).2)
  if scan.len - off ≥ len then
    match scan.data with
    | .ref r roff => (some (r, off + roff), { s with heap := refAdd s.heap r })
    | .ptr p =>
      match refGrpAdd s.heap (p.add off) .free with
      | (none, h) => (none, { s with heap := h.mallocBad s.base.conf })
      | (some r, h) => (some (r, 0), { s with heap := h })
    | .buf =>
      match chgNodeBufRef s f.idx f.num with
      | (false, s) => (none, s)
      | (true, s) =>
        match (s.base.node f.idx).data with
        | .ref r _ => (some (r, off), { s with heap := refAdd s.heap r })
        | _ => (none, s)
    | .non => copied
  else copied

/-- The part of `vstr_export_ref` that looks at the C string cache. -/
def exportRefCached (b : Base) (pos len : Nat) : Option (Nat × Nat) := do
  if ¬ b.cacheAvailable then none
  else
    let data ← b.cstr
    let r ← data.ref
    if data.len ≠ 0 ∧ pos ≥ data.pos ∧ data.len ≤ sizeSub len (pos - data.pos) then
      some (r, pos - data.pos)
    else none

/-- `vstr_export_ref`: the reference and the offset of the slice in it. -/
def exportRef (s : St) (pos len : Nat) : Option (Nat × Nat) × St :=
  match exportRefCached s.base pos len with
  | some ro => (some ro, { s with heap := refAdd s.heap ro.1 })
  | none => exportRefNodes s pos len

end Vstr
