import Vstr.Model.Pos

/-!
# The add functions

`VSTR__ADD_BEG`, `VSTR__ADD_MID` and `VSTR__ADD_END` build the five functions that
insert data after a position; what differs between them is the kind of data. Each
kind says when the node at the position can take more of it (`absorbs`), how the
bytes get into a node (`fill`), and how the remaining data is named afterwards
(`absorbed`, `advance`).
-/

namespace Vstr

open Memory

/-- What is being added, and where its bytes come from. -/
inductive AddKind where
  /-- `vstr_add_buf`: copy from memory. -/
  | buf (buffer : Addr)
  /-- `vstr_add_rep_chr`: one byte repeated. -/
  | repChr (chr : UInt8)
  /-- `vstr_add_non`: no data. -/
  | non
  /-- `vstr_add_ptr`: name memory. -/
  | ptr (ptr : Addr)
  /-- `vstr_add_ref`: name memory through a reference. -/
  | ref (ref off : Nat)
  deriving DecidableEq, Repr

namespace AddKind

/-- The type of the nodes made. -/
def type : AddKind → NodeType
  | buf _ => .buf
  | repChr _ => .buf
  | non => .non
  | ptr _ => .ptr
  | ref _ _ => .ref

/-- The most a node of this kind holds: `max` of the macros. -/
def max (conf : Conf) (k : AddKind) : Nat :=
  match k.type with
  | .buf => conf.bufSz
  | _ => maxNodeAll

/-- Can the node that ends at the position take more of the data? -/
def absorbs (conf : Conf) (k : AddKind) (scan : Node) : Bool :=
  match k, scan.data with
  | buf _, .buf => scan.len < conf.bufSz
  | repChr _, .buf => scan.len < conf.bufSz
  | non, .non => scan.len < maxNodeAll
  | ptr p, .ptr q => q.add scan.len = p ∧ scan.len < maxNodeAll
  | ref r off, .ref r' off' =>
    r' = r ∧ (off' + scan.len) % 2 ^ 32 = off ∧ scan.len < maxNodeAll
  | _, _ => false

/-- Put `n` bytes of the data at `dst`, the inside of a `BUF` node. -/
def fill (h : Heap) (k : AddKind) (dst : Addr) (n : Nat) : Heap :=
  match k with
  | buf buffer => h.setMem (copy h.mem dst buffer n)
  | repChr chr => h.setMem (Memory.fill h.mem dst chr n)
  | _ => h

/-- What is left after the node at the position took `n` bytes. Only the copying
kind moves on. -/
def absorbed (k : AddKind) (n : Nat) : AddKind :=
  match k with
  | buf buffer => buf (buffer.add n)
  | k => k

/-- The type specific part of a new node. -/
def payload : AddKind → Payload
  | buf _ => .buf
  | repChr _ => .buf
  | non => .non
  | ptr p => .ptr p
  | ref r off => .ref r (refOff off)

/-- Make a new node hold `n` bytes of the data. -/
def fillNew (h : Heap) (k : AddKind) (id n : Nat) : Heap :=
  match k with
  | ref r _ => refAdd h r
  | k => k.fill h ⟨.node id, 0⟩ n

/-- What is left after a new node took `n` of the `len` bytes. -/
def advance (k : AddKind) (n len : Nat) : AddKind :=
  match k with
  | buf buffer => buf (buffer.add n)
  | ptr p => ptr (p.add n)
  | ref r off => ref r (off + len)
  | k => k

end AddKind

/-- The loop of `VSTR__ADD_MID` and `VSTR__ADD_END` over the spare list: the new
nodes, in order, and the state after the bookkeeping for each of them. -/
def addLoop (max : Nat) (atEnd : Bool) : List Nat → AddKind → Nat → St → List Node × St
  | [], _, _, s => ([], s)
  | id :: ids, k, len, s =>
    let tmp := min max len
    let node : Node := ⟨id, tmp, k.payload⟩
    let h := k.fillNew s.heap id tmp
    let b := { s.base with
      nodeUsed := Function.update s.base.nodeUsed k.type true
      num := s.base.num + 1 }
    let s : St := ⟨h, cacheIovecMaybeAdd h b node atEnd tmp⟩
    if len - tmp = 0 then ([node], s)
    else
      let r := addLoop max atEnd ids (k.advance tmp len) (len - tmp) s
      (node :: r.1, r.2)

/-- `VSTR__ADD_MID` from the spare list on, and `VSTR__ADD_END`: make the new nodes
and link them after the first `idx` nodes of the list. -/
def addLink (k : AddKind) (s : St) (idx : Nat) (atEnd : Bool) (len origPos origLen : Nat) : St :=
  let s := { s with base := { s.base with len := s.base.len + len } }
  let c := s.base.conf
  let r := addLoop (k.max s.conf) atEnd (s.conf.spare k.type) k len s
  let h := r.2.heap.dropSpare c k.type r.1.length
  let b := { r.2.base with
    nodes := s.base.nodes.take idx ++ r.1 ++ s.base.nodes.drop idx
    endNode := if idx < s.base.nodes.length then r.2.base.endNode
      else r.1.getLast?.map Node.id }
  ⟨h, cacheAdd b origPos origLen⟩

/-- `alloc_num` of `VSTR__ADD_BEG`. -/
def allocNum (len max : Nat) : Nat := len / max + if len % max = 0 then 0 else 1

/-- The code of the add functions between `VSTR__ADD_BEG` and `VSTR__ADD_MID`: let
the node at the position, the one at `idx`, take what it can. The flag says whether
that was everything. -/
def addAbsorb (k : AddKind) (s : St) (f : Found) (len : Nat) : Nat × St :=
  let scan := s.base.node f.idx
  let tmp := min (k.max s.conf - scan.len) len
  (tmp, ⟨k.fill s.heap ⟨.node scan.id, scan.len⟩ tmp,
    cacheIovecAddNodeEnd { s.base with
      nodes := s.base.nodes.set f.idx { scan with len := scan.len + tmp }
      len := s.base.len + tmp } f.num tmp⟩)

/-- `if (scan != base->end) base->iovec_upto_date = FALSE`. -/
def addKillIovec (b : Base) (idx : Nat) : Base :=
  if some (b.node idx).id ≠ b.endNode then { b with iovecUptoDate := false } else b

/-- The add functions once the position is the end of the node at `f.idx`. -/
def addAt (k : AddKind) (s : St) (f : Found) (pos len : Nat) : Bool × St :=
  let scan := s.base.node f.idx
  let fits := k.type = .buf ∧ scan.type = .buf ∧ len ≤ uintSub s.conf.bufSz scan.len
  match (if fits then (true, s.heap)
    else rangeSpare s.heap s.base.conf k.type (allocNum len (k.max s.conf))) with
  | (false, h) => (false, { s with heap := h })
  | (true, h) =>
    let s := { s with heap := h }
    if k.absorbs s.conf scan then
      let r := addAbsorb k s f len
      if len - r.1 = 0 then
        (true, { r.2 with base := cacheAdd r.2.base pos len })
      else
        let s := { r.2 with base := addKillIovec r.2.base f.idx }
        (true, addLink (k.absorbed r.1) s (f.idx + 1) true (len - r.1) pos len)
    else
      let s := { s with base := addKillIovec s.base f.idx }
      (true, addLink k s (f.idx + 1) true len pos len)

/-- The add functions without their argument checks, `pos && base->len`. -/
def addAfter (k : AddKind) (s : St) (pos len : Nat) : Bool × St :=
  match addSetupPos s pos with
  | (none, s) => (false, s)
  | (some f, s) => addAt k s f pos len

/-- The add functions without their argument checks, at the beginning. -/
def addFront (k : AddKind) (s : St) (len : Nat) : Bool × St :=
  match rangeSpare s.heap s.base.conf k.type (allocNum len (k.max s.conf)) with
  | (false, h) => (false, { s with heap := h })
  | (true, h) =>
    let s := { s with heap := h }
    if s.base.len ≠ 0 then (true, addLink k (baseZeroUsed s) 0 false len 0 len)
    else (true, addLink k s 0 true len 0 len)

/-- The five add functions after their argument checks. -/
def addData (k : AddKind) (s : St) (pos len : Nat) : Bool × St :=
  if pos ≠ 0 ∧ s.base.len ≠ 0 then addAfter k s pos len else addFront k s len

/-- `vstr_extern_inline_add_buf`. -/
def externAddBuf (s : St) (pos : Nat) (buffer : Addr) (len : Nat) : Bool × St :=
  if len = 0 ∨ pos > s.base.len then (false, s) else addData (.buf buffer) s pos len

/-- `vstr_extern_inline_add_rep_chr`. -/
def externAddRepChr (s : St) (pos : Nat) (chr : UInt8) (len : Nat) : Bool × St :=
  if len = 0 ∨ pos > s.base.len then (false, s) else addData (.repChr chr) s pos len

/-- `vstr_add_ptr`. -/
def addPtr (s : St) (pos : Nat) (ptr : Addr) (len : Nat) : Bool × St :=
  if pos > s.base.len then (false, s)
  else if len = 0 then (true, s)
  else addData (.ptr ptr) s pos len

/-- `vstr_add_non`. -/
def addNon (s : St) (pos len : Nat) : Bool × St :=
  if pos > s.base.len then (false, s)
  else if len = 0 then (true, s)
  else addData .non s pos len

/-- `vstr_add_ref`. -/
def addRef (s : St) (pos ref off len : Nat) : Bool × St :=
  if pos > s.base.len then (false, s)
  else if len = 0 then (true, s)
  else addData (.ref ref off) s pos len

/-- The guard of the inline `vstr_add_buf` and `vstr_add_rep_chr`: append into the
last `BUF` node. -/
def addFastOk (s : St) (pos len : Nat) : Bool :=
  let scan := s.base.node (s.base.indexOf (s.base.endNode.getD 0))
  s.base.len ≠ 0 ∧ pos = s.base.len ∧ scan.type = .buf ∧
    len ≤ uintSub s.conf.bufSz scan.len ∧ (¬ s.base.cacheAvailable ∨ s.base.cacheInternal)

/-- The inline append. -/
def addFast (k : AddKind) (s : St) (len : Nat) : St :=
  let i := s.base.indexOf (s.base.endNode.getD 0)
  let scan := s.base.node i
  ⟨k.fill s.heap ⟨.node scan.id, scan.len⟩ len,
    cacheIovecAddNodeEnd { s.base with
      nodes := s.base.nodes.set i { scan with len := scan.len + len }
      len := s.base.len + len } s.base.num len⟩

/-- `vstr_add_buf`. -/
def addBuf (s : St) (pos : Nat) (buffer : Addr) (len : Nat) : Bool × St :=
  if pos > s.base.len then (false, s)
  else if len = 0 then (true, s)
  else if addFastOk s pos len then (true, addFast (.buf buffer) s len)
  else externAddBuf s pos buffer len

/-- `vstr_add_rep_chr`. -/
def addRepChr (s : St) (pos : Nat) (chr : UInt8) (len : Nat) : Bool × St :=
  if pos > s.base.len then (false, s)
  else if len = 0 then (true, s)
  else if addFastOk s pos len then (true, addFast (.repChr chr) s len)
  else externAddRepChr s pos chr len

/-- The add function for a kind of data. -/
def AddKind.add (s : St) (pos len : Nat) : AddKind → Bool × St
  | .buf buffer => addBuf s pos buffer len
  | .repChr chr => addRepChr s pos chr len
  | .non => addNon s pos len
  | .ptr p => addPtr s pos p len
  | .ref r off => addRef s pos r off len

end Vstr
