import Vstr.Model.Wrap

/-!
# Scanning a slice backwards

`vstr__base_scan_rev_beg` and `_nxt` of `vstr-nx-inline.h`, which walk the vectors from the
last node of a slice to the first, and `vstr_srch_chr_rev` of `vstr_srch.c`. Without vectors
that are up to date a search from the end searches forward again and again.
-/

namespace Vstr

open Memory

/-- What `vstr__base_scan_rev_beg` and `_nxt` answer. -/
structure Scan where
  /-- `*len`: bytes of the slice in front of the stretch. -/
  len : Nat
  /-- `*num`: number of the node. -/
  num : Nat
  /-- `*scan_str`: where the stretch is; nowhere when `*type` is that of a `NON` node. -/
  str : Option Addr
  /-- `*scan_len`: bytes of the stretch. -/
  scanLen : Nat
  deriving DecidableEq, Repr

/-- `vstr__base_scan_rev_beg`. -/
def baseScanRevBeg (s : St) (pos len : Nat) : Option Scan × St :=
  if len = 0 ∨ ¬ (pos + len - 1) % 2 ^ 64 ≤ s.base.len then (none, s)
  else
    let beg := s.pos pos true
    let fin := beg.2.pos (pos + (len - 1)) false
    let str := exportNodePtr s.heap (fin.2.base.node fin.1.idx)
    if beg.1.idx ≠ fin.1.idx then
      (some ⟨len - fin.1.pos, fin.1.num, str.map (·.add 0), fin.1.pos⟩, fin.2)
    else (some ⟨0, fin.1.num, str.map (·.add (beg.1.pos - 1)), len⟩, fin.2)

/-- `vstr__base_scan_rev_nxt`; the vectors are there when they are up to date. -/
def baseScanRevNxt (b : Base) (sc : Scan) : Option Scan :=
  if sc.len = 0 ∨ sc.num - 1 = 0 then none
  else
    b.vec.map fun vec =>
      let num := sc.num - 1
      let iov := vec.v (vec.off + (num - 1))
      let pos := if iov.len > sc.len then iov.len - sc.len else 0
      let scanLen := if iov.len > sc.len then sc.len else iov.len
      ⟨sc.len - scanLen, num,
        if vec.t (vec.off + (num - 1)) = .non then none else iov.base.map (·.add pos), scanLen⟩

/-- All stretches of a scan; `fuel` bounds the number of nodes. -/
def scanRevAll (b : Base) : Nat → Scan → List Scan
  | 0, sc => [sc]
  | fuel + 1, sc =>
    match baseScanRevNxt b sc with
    | none => [sc]
    | some sc' => sc :: scanRevAll b fuel sc'

/-! ## The last byte -/

/-- The loop of the searches from the end that search forward with `fwd`: each time from
behind the last place found, as long as `more` says. -/
def srchRevLoop {σ : Type} (fwd : Nat → Nat → StateM σ Nat) (more : Nat → Nat → Bool)
    (pos len : Nat) : Nat → Nat → Nat → Nat → StateM σ Nat
  | 0, ret, _, _ => return ret
  | fuel + 1, ret, scanPos, scanLen => do
    if more scanPos scanLen then
      let tmp ← fwd scanPos scanLen
      if tmp = 0 then return ret
      else srchRevLoop fwd more pos len fuel tmp (tmp + 1) (len - scPosdiff pos tmp)
    else return ret

/-- `vstr__srch_chr_rev_slow`. -/
def srchChrRevSlow (pos len : Nat) (c : UInt8) : StateM St Nat :=
  srchRevLoop (srchChrFwd · · c) (fun _ scanLen => scanLen ≠ 0) pos len (len + 1) 0 pos len

/-- The loop of `vstr__srch_chr_rev_fast`. -/
def srchChrRevFastLoop (h : Heap) (pos : Nat) (c : UInt8) : List Scan → Nat
  | [] => 0
  | sc :: scs =>
    match sc.str with
    | none => srchChrRevFastLoop h pos c scs
    | some p =>
      match memrchr (read h.mem p sc.scanLen) c with
      | some i => pos + sc.len + i
      | none => srchChrRevFastLoop h pos c scs

/-- `vstr__srch_chr_rev_fast`. -/
def srchChrRevFast (pos len : Nat) (c : UInt8) : StateM St Nat := fun s =>
  match baseScanRevBeg s pos len with
  | (none, s) => (0, s)
  | (some sc, s) => (srchChrRevFastLoop s.heap pos c (scanRevAll s.base sc.num sc), s)

/-- `vstr_srch_chr_rev`. -/
def srchChrRev (pos len : Nat) (c : UInt8) : StateM St Nat := fun s =>
  if s.base.iovecUptoDate then srchChrRevFast pos len c s else srchChrRevSlow pos len c s

end Vstr
