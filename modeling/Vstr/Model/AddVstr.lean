import Vstr.Model.Add
import Vstr.Model.Del
import Vstr.Model.Export

/-!
# Several strings, and adding one to another

A world is memory and some bases in it. `vstr_add_vstr` may copy a base into
itself, so the node it reads next is found through its identity after each
insertion.
-/

namespace Vstr

open Memory

/-- Memory and `n` bases. -/
structure World (n : Nat) where
  /-- Memory, references and configurations. -/
  heap : Heap
  /-- The strings. -/
  bases : Fin n → Base

variable {n : Nat}

/-- What an operation on base `i` sees. -/
def World.st (w : World n) (i : Fin n) : St := ⟨w.heap, w.bases i⟩

/-- Store back what an operation on base `i` left. -/
def World.put (w : World n) (i : Fin n) (s : St) : World n :=
  ⟨s.heap, Function.update w.bases i s.base⟩

/-- Run an operation on base `i`. -/
def World.on {α : Type} (w : World n) (i : Fin n) (f : St → α × St) : α × World n :=
  let r := f (w.st i)
  (r.1, w.put i r.2)

/-- `VSTR_TYPE_ADD_*`. -/
inductive AddType where
  | addDef
  | addBufPtr
  | addBufRef
  | addAllRef
  | addAllBuf
  deriving DecidableEq, Repr

/-- `vstr__add_vstr_node`. -/
def addVstrNode (s : St) (pos : Nat) (scan : Node) (off len : Nat) (type : AddType) : Bool × St :=
  match scan.data with
  | .buf =>
    if type = .addBufPtr then addPtr s pos ⟨.node scan.id, off⟩ len
    else addBuf s pos ⟨.node scan.id, off⟩ len
  | .non => addNon s pos len
  | .ptr p =>
    if type = .addAllBuf then addBuf s pos (p.add off) len else addPtr s pos (p.add off) len
  | .ref r roff =>
    if type = .addAllBuf then addBuf s pos ((s.heap.refs r).ptr.add (off + roff)) len
    else addRef s pos r (off + roff) len

/-- `vstr__add_vstr_nodes`: the node with identity `scan` is read from byte `off`
on. The position returned is zero on failure. -/
def addVstrNodes (b fb : Fin n) (type : AddType) :
    Nat → World n → Nat → Nat → Nat → Nat → Nat × World n
  | 0, w, pos, _, _, _ => (pos, w)
  | fuel + 1, w, pos, scan, off, len =>
    if len = 0 then (pos, w)
    else
      let from_ := w.bases fb
      let node := from_.node (from_.indexOf scan)
      let tmp := min (node.len - off) len
      match w.on b (addVstrNode · pos node off tmp type) with
      | (false, w) => (0, w)
      | (true, w) =>
        match (w.bases fb).nextOf scan with
        | none => (pos + tmp, w)
        | some nxt => addVstrNodes b fb type fuel w (pos + tmp) nxt.id 0 (len - tmp)

/-- `vstr__cache_cstr_cpy` on two cached slices: the slice the destination gets. -/
def cstrCpyData (pos len fromPos : Nat) (data fromData : CstrData) : Option CstrData :=
  match fromData.ref with
  | none => none
  | some r =>
    let fromEnd := scPoslast fromData.pos fromData.len
    if (data.ref.isSome ∧ data.len ≠ 0) ∨ fromData.len = 0 then none
    else if fromPos ≤ fromEnd ∧ scPoslast fromPos len ≥ fromEnd then
      if fromPos < fromData.pos then
        some ⟨pos + 1 + (fromData.pos - fromPos), fromData.len, some r, fromData.sz, fromData.off⟩
      else
        some ⟨pos + 1, fromData.len - (fromPos - fromData.pos), some r, fromData.sz,
          fromData.off + (fromPos - fromData.pos)⟩
    else none

/-- `vstr__cache_cstr_cpy`. -/
def cacheCstrCpy (s : St) (pos len : Nat) (fromBase : Base) (fromPos : Nat) : St :=
  if ¬ s.base.cacheAvailable ∨ ¬ fromBase.cacheAvailable then s
  else
    match s.base.cstr, fromBase.cstr with
    | some data, some fromData =>
      match cstrCpyData pos len fromPos data fromData with
      | none => s
      | some new =>
        let h := match data.ref with
          | none => s.heap
          | some r => refDel s.heap r
        let h := match new.ref with
          | none => h
          | some r => refAdd h r
        ⟨h, { s.base with cstr := some new }⟩
    | _, _ => s

/-- `vstr__add_all_ref`. -/
def addAllRef (w : World n) (b : Fin n) (pos : Nat) (fb : Fin n) (fromPos len : Nat) :
    Bool × World n :=
  match w.on fb (exportRef · fromPos len) with
  | (none, w) => (false, w)
  | (some ro, w) =>
    match w.on b (addRef · pos ro.1 ro.2 len) with
    | (ok, w) => (ok, { w with heap := refDel w.heap ro.1 })

/-- Set `malloc_bad` of both configurations. -/
def World.mallocBad (w : World n) (b fb : Fin n) : World n :=
  { w with heap := (w.heap.mallocBad (w.bases fb).conf).mallocBad (w.bases b).conf }

/-- `fail_end` of `vstr_add_vstr`: take out what went in. -/
def addVstrUndo (w : World n) (b fb : Fin n) (pos origLen : Nat) : Bool × World n :=
  let w := (w.on b (del · (pos + 1) ((w.bases b).len - origLen))).2
  (false, w.mallocBad b fb)

/-- The initial split of `vstr_add_vstr` when a base is added to itself: the node
to read from, the byte in it counted from one, and the state. -/
def addVstrSplit (s : St) (f : Found) (same : Bool) : Option (Nat × Nat) × St :=
  let scan := s.base.node f.idx
  if same ∧ scan.type = .buf ∧ f.pos ≠ (if f.idx = 0 then s.base.used else 0) + 1 then
    match baseSplitNode s f.idx (f.pos - 1) with
    | (false, s) => (none, s)
    | (true, s) => (some ((s.base.node (f.idx + 1)).id, 1), s)
  else (some (scan.id, f.pos), s)

/-- `vstr_add_vstr` from the copying of nodes on. -/
def addVstrCopy (w : World n) (b : Fin n) (pos : Nat) (fb : Fin n) (fromPos len : Nat)
    (type : AddType) (scan from1 : Nat) : Bool × World n :=
  let origLen := (w.bases b).len
  let finish (w : World n) : Bool × World n :=
    (true, w.put b (cacheCstrCpy (w.st b) pos len (w.bases fb) fromPos))
  if fb = b ∧ fromPos ≤ pos ∧ fromPos + len - 1 > pos then
    let before := scPosdiff fromPos pos
    match addVstrNodes b fb type before w pos scan (from1 - 1) before with
    | (0, w) => addVstrUndo w b fb pos origLen
    | (pos' + 1, w) =>
      let r := w.on fb (·.pos (fromPos + before * 2) true)
      let w := r.2
      let scan := ((w.bases fb).node r.1.idx).id
      match addVstrNodes b fb type (len - before) w (pos' + 1) scan (r.1.pos - 1)
        (len - before) with
      | (0, w) => addVstrUndo w b fb pos origLen
      | (_ + 1, w) => finish w
  else
    match addVstrNodes b fb type len w pos scan (from1 - 1) len with
    | (0, w) => addVstrUndo w b fb pos origLen
    | (_ + 1, w) => finish w

/-- `vstr_add_vstr`. -/
def addVstr (w : World n) (b : Fin n) (pos : Nat) (fb : Fin n) (fromPos len : Nat)
    (type : AddType) : Bool × World n :=
  if pos > (w.bases b).len ∨ (fromPos > (w.bases fb).len ∧ len ≠ 0) then (false, w)
  else if len = 0 then (true, w)
  else if type = .addAllRef then
    match addAllRef w b pos fb fromPos len with
    | (false, w) => (false, w.mallocBad b fb)
    | (true, w) => (true, w)
  else
    match (if type = .addBufRef then w.on fb (convertBufRef · fromPos len) else (true, w)) with
    | (false, w) => (false, w.mallocBad b fb)
    | (true, w) =>
      let r := w.on fb (·.pos fromPos true)
      match r.2.on fb (addVstrSplit · r.1 (fb = b)) with
      | (none, w) => (false, w.mallocBad b fb)
      | (some (scan, from1), w) => addVstrCopy w b pos fb fromPos len type scan from1

end Vstr
