import Vstr.Model.Pos

/-!
# The delete functions

Whole nodes go back to the spare lists in runs of one type, as the source relinks
them; a partly deleted node is cut at its end, moved on at its beginning, or, when
the deletion is inside it, split or shifted.
-/

namespace Vstr

open Memory

/-- Does a node of this type end the current run? -/
def endsRun (run : List Node) (n : Node) : Bool :=
  match run with
  | [] => false
  | beg :: _ => n.type ≠ beg.type

/-- The loop of `vstr__del_all`; `run` is the chain from `base->beg` to `*scan`. -/
def delAllLoop (c : Nat) : List Node → List Node → Heap → Heap
  | run, [], h => relinkNodes h c run
  | run, n :: ns, h =>
    if endsRun run n then delAllLoop c [n] ns (delNode (relinkNodes h c run) n)
    else delAllLoop c (run ++ [n]) ns (delNode h n)

/-- `vstr__del_all`. -/
def delAll (s : St) : St :=
  let h := delAllLoop s.base.conf [] s.base.nodes s.heap
  let b := { s.base with
    len := 0
    used := 0
    num := 0
    nodes := []
    endNode := none
    nodeUsed := fun _ => false }
  ⟨h, cacheDel (cacheIovecReset (h.confs b.conf) b) 1 s.base.len⟩

/-- `vstr__del_beg_cleanup`, updating the base: relink `run`, the list now starts
at `rest`. -/
def delBegCleanup (s : St) (run rest : List Node) : St :=
  match run with
  | [] => { s with base := { s.base with nodes := rest } }
  | _ :: _ =>
    ⟨relinkNodes s.heap s.base.conf run,
      cacheIovecDelBeg { s.base with nodes := rest, num := s.base.num - run.length } run.length⟩

/-- A `NON`, `PTR` or `REF` node without its first `len` bytes; a `BUF` node is left
to the caller, who moves `used` or the bytes. -/
def shiftPayload (data : Payload) (len : Nat) : Payload :=
  match data with
  | .ptr p => .ptr (p.add len)
  | .ref r off => .ref r (refOff (off + len))
  | data => data

/-- The last, partly deleted node of `vstr__del_beg`. -/
def delBegNode (b : Base) (n : Node) (len : Nat) : Node × Base :=
  match n.data with
  | .buf => (n, { b with used := len % 2 ^ 16 })
  | data => ({ n with data := shiftPayload data len, len := n.len - len }, b)

/-- The loop of `vstr__del_beg` and the cleanup after it: what is left of `len` in
the node the list now starts at, and the state. -/
def delBegLoop : List Node → List Node → Nat → St → Nat × St
  | run, [], len, s => (len, delBegCleanup s run [])
  | run, n :: ns, len, s =>
    if len = 0 then (0, delBegCleanup s run (n :: ns))
    else
      let r := if endsRun run n then ([], delBegCleanup s run (n :: ns)) else (run, s)
      if len < n.len then
        let p := delBegNode r.2.base n len
        (len, delBegCleanup { r.2 with base := p.2 } r.1 (p.1 :: ns))
      else delBegLoop (r.1 ++ [n]) ns (len - n.len) { r.2 with heap := delNode r.2.heap n }

/-- `vstr__del_beg`. -/
def delBeg (s : St) (len : Nat) : St :=
  let s := { s with base := { s.base with len := s.base.len - len } }
  match s.base.nodes with
  | [] => s
  | n :: ns =>
    if s.base.used ≠ 0 ∧ len < n.len - s.base.used then
      let b := cacheIovecDelNodeBeg { s.base with used := (s.base.used + len) % 2 ^ 16 } n 1 len
      { s with base := cacheDel b 1 len }
    else
      let r :=
        if s.base.used ≠ 0 then
          delBegLoop [n] ns (len - (n.len - s.base.used))
            { s with base := { s.base with used := 0 } }
        else delBegLoop [] (n :: ns) len s
      let b := if r.1 ≠ 0 then cacheIovecDelNodeBeg r.2.base (r.2.base.node 0) 1 r.1
        else r.2.base
      { r.2 with base := cacheDel b 1 len }

/-- The loop of `vstr_extern_inline_del` over whole nodes: the nodes left, what is
left of `len` in the first of them, and how many went. -/
def delEndLoop (c : Nat) : List Node → List Node → Nat → Heap → (List Node × Nat × Nat) × Heap
  | run, [], len, h => (([], len, run.length), relinkNodes h c run)
  | run, n :: ns, len, h =>
    if len < n.len then ((n :: ns, len, run.length), relinkNodes h c run)
    else
      let h := delNode h n
      if endsRun run n then
        let r := delEndLoop c [n] ns (len - n.len) (relinkNodes h c run)
        ((r.1.1, r.1.2.1, r.1.2.2 + run.length), r.2)
      else delEndLoop c (run ++ [n]) ns (len - n.len) h

/-- The vectors after `del_nodes` nodes behind the first `saved_num` went. -/
def cacheIovecDelNodes (b : Base) (savedNum delNodes : Nat) : Base :=
  if b.iovecUptoDate then
    b.mapVec fun vec =>
      let lo := vec.off + savedNum
      let hi := lo + (b.num - (savedNum + delNodes))
      { vec with
        v := fun i => if lo ≤ i ∧ i < hi then vec.v (i + delNodes) else vec.v i
        t := fun i => if lo ≤ i ∧ i < hi then vec.t (i + delNodes) else vec.t i }
  else b

/-- `fix_last_node`: the node at `idx` loses its first `len` bytes. -/
def delFixLast (s : St) (idx num len : Nat) : St :=
  let scan := s.base.node idx
  let h := match scan.data with
    | .buf => s.heap.setMem (copy s.heap.mem ⟨.node scan.id, 0⟩ ⟨.node scan.id, len⟩
        (scan.len - len))
    | _ => s.heap
  let scan := { scan with data := shiftPayload scan.data len, len := scan.len - len }
  ⟨h, cacheIovecResetNode h { s.base with nodes := s.base.nodes.set idx scan } scan num⟩

/-- `vstr_extern_inline_del` once the tail of the node at `f.idx` is gone: delete
`len` more bytes behind it. -/
def delNodes (s : St) (f : Found) (len : Nat) : St :=
  if len < (s.base.node (f.idx + 1)).len then delFixLast s (f.idx + 1) (f.num + 1) len
  else
    let r := delEndLoop s.base.conf [] (s.base.nodes.drop (f.idx + 1)) len s.heap
    let del := r.1.2.2
    let b := cacheIovecDelNodes s.base f.num del
    let b := { b with
      num := b.num - del
      nodes := b.nodes.take (f.idx + 1) ++ r.1.1
      endNode := if r.1.1 = [] then some (b.node f.idx).id else b.endNode }
    let s : St := ⟨r.2, b⟩
    if r.1.1 ≠ [] ∧ r.1.2.1 ≠ 0 then delFixLast s (f.idx + 1) (f.num + 1) r.1.2.1 else s

/-- Delete `len` bytes from the middle of the node at `f.idx`, keeping its first
`f.pos` bytes and its end. -/
def delMiddle (s : St) (f : Found) (len : Nat) : Bool × St :=
  let scan := s.base.node f.idx
  let shrink (s : St) : St :=
    let scan := s.base.node f.idx
    { s with base := cacheIovecDelNodeEnd { s.base with
        nodes := s.base.nodes.set f.idx { scan with len := scan.len - len } } f.num len }
  match scan.type with
  | .non => (true, shrink s)
  | .buf =>
    if ¬ s.conf.splitBufDel then
      (true, shrink { s with heap := s.heap.setMem (copy s.heap.mem
        ⟨.node scan.id, f.pos⟩ ⟨.node scan.id, f.pos + len⟩ (scan.len - (f.pos + len))) })
    else
      match baseSplitNode s f.idx (f.pos + len) with
      | (false, s) => (false, s)
      | (true, s) => (true, shrink s)
  | _ =>
    match baseSplitNode s f.idx (f.pos + len) with
    | (false, s) => (false, s)
    | (true, s) => (true, shrink s)

/-- `vstr_extern_inline_del` for a deletion that leaves the first byte: `pos` bytes
stay in front of the `len` that go. -/
def delAfter (s : St) (pos len origLen : Nat) : Bool × St :=
  let f := (basePos s.base pos false).1
  let scan := s.base.node f.idx
  let s' := { s with base := { s.base with len := sizeSub s.base.len len } }
  let tmp := scan.len - f.pos
  if f.pos ≠ scan.len ∧ len < tmp then
    match delMiddle s' f len with
    | (false, s) => (false, { s with base := { s.base with len := s.base.len + len } })
    | (true, s) => (true, { s with base := cacheDel s.base (pos + 1) origLen })
  else
    let s := if f.pos ≠ scan.len then
        { s' with base := { cacheIovecDelNodeEnd s'.base f.num tmp with
            nodes := s'.base.nodes.set f.idx { scan with len := f.pos } } }
      else s'
    let s := if len - tmp = 0 then s else delNodes s f (len - tmp)
    (true, { s with base := cacheDel s.base (pos + 1) origLen })

/-- `vstr_extern_inline_del`. -/
def externDel (s : St) (pos len : Nat) : Bool × St :=
  if len = 0 ∨ pos = 0 ∨ pos > s.base.len ∨ scPoslast pos len % 2 ^ 64 > s.base.len then
    (false, s)
  else if pos ≤ 1 then
    if len ≥ s.base.len then (true, delAll s) else (true, delBeg s len)
  else
    let keep := pos - 1
    delAfter s keep (if (keep + len) % 2 ^ 64 ≥ s.base.len then s.base.len - keep else len) len

/-- The C string cache after the inline deletion of the first `len` bytes. -/
def delFastBegCstr (len : Nat) (cdata : CstrData) : CstrData :=
  let endPos := scPoslast 1 len
  if cdata.ref = none ∨ cdata.len = 0 then cdata
  else if cdata.pos > endPos then { cdata with pos := cdata.pos - len }
  else if scPoslast cdata.pos cdata.len ≤ endPos then { cdata with len := 0 }
  else
    { cdata with
      len := cdata.len - scPosdiff cdata.pos endPos
      off := cdata.off + scPosdiff cdata.pos endPos
      pos := 1 }

/-- The C string cache after the inline deletion of everything from `pos` on. -/
def delFastEndCstr (pos : Nat) (cdata : CstrData) : CstrData :=
  if cdata.ref = none ∨ cdata.len = 0 then cdata
  else if scPoslast cdata.pos cdata.len ≥ pos then { cdata with len := 0 }
  else cdata

/-- What the inline deletions do to the caches that are there. -/
def delFastCaches (b : Base) (f : CstrData → CstrData) : Base :=
  if b.cacheAvailable then
    { b with cstr := b.cstr.map f, posData := { b.posData with node := none } }
  else b

/-- The inline deletion inside the first node, from its beginning. -/
def delFastBeg (s : St) (len : Nat) : St :=
  match s.base.nodes with
  | [] => s
  | scan :: ns =>
    let b := { s.base with len := sizeSub s.base.len len }
    let b := match scan.data with
      | .buf => { b with used := (b.used + len) % 2 ^ 16 }
      | data => { b with nodes :=
          { scan with data := shiftPayload data len, len := scan.len - len } :: ns }
    { s with base := cacheIovecDelNodeBeg (delFastCaches b (delFastBegCstr len)) scan 1 len }

/-- The inline deletion inside the last node, up to its end. -/
def delFastEnd (s : St) (pos len : Nat) : St :=
  let i := s.base.indexOf (s.base.endNode.getD 0)
  let scan := s.base.node i
  let b := { s.base with
    len := s.base.len - len
    nodes := s.base.nodes.set i { scan with len := scan.len - len } }
  { s with base := cacheIovecDelNodeEnd (delFastCaches b (delFastEndCstr pos)) b.num len }

/-- `vstr_del` reads `base->end->len`, and an empty string has no `base->end`. -/
def delFaults (b : Base) (pos len : Nat) : Bool :=
  b.nodes = [] ∧ pos ≤ b.len ∧ len ≠ 0 ∧ (¬ b.cacheAvailable ∨ b.cacheInternal)

/-- `vstr_del`, given the value of `len + base->used`. -/
def delSum (sum : Nat) (s : St) (pos len : Nat) : Bool × St :=
  if pos > s.base.len ∧ len ≠ 0 then (false, s)
  else if len = 0 then (true, s)
  else if ¬ s.base.cacheAvailable ∨ s.base.cacheInternal then
    if pos = 1 ∧ sum < (s.base.node 0).len then (true, delFastBeg s len)
    else
      let endLen := (s.base.node (s.base.indexOf (s.base.endNode.getD 0))).len +
        if (s.base.nodes.head?.map Node.id) = s.base.endNode then s.base.used else 0
      if pos > sizeSub s.base.len (endLen - 1) ∧ len = scPosdiff pos s.base.len then
        (true, delFastEnd s pos len)
      else externDel s pos len
  else externDel s pos len

/-- `vstr_del`, for lengths such that `len + base->used` fits a `size_t`. -/
def del (s : St) (pos len : Nat) : Bool × St := delSum (len + s.base.used) s pos len

/-- `vstr_del`, where `len + base->used` wraps. -/
def delSize (s : St) (pos len : Nat) : Bool × St :=
  delSum ((len + s.base.used) % 2 ^ 64) s pos len

end Vstr
