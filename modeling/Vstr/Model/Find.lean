import Vstr.Model.Scan
import Vstr.Model.Cmp

/-!
# Searching for a buffer

`vstr_srch_buf_fwd` for a `NULL` buffer, which stands for unknown bytes, and
`vstr_srch_buf_rev` of `vstr_srch.c`, whose fast way compares from the last byte of the buffer
to the first along the vectors.
-/

namespace Vstr

open Memory

/-- The loop of `vstr_srch_buf_fwd` for `NULL`. -/
def srchNonLoop (pos len strLen : Nat) : List Iter → StateM St Nat
  | [] => return 0
  | it :: its => fun s =>
    if it.len + it.remaining < strLen then (0, s)
    else
      match it.ptr s.heap with
      | some _ => srchNonLoop pos len strLen its s
      | none =>
        match cmpAnyBuf (it.pos pos len) strLen (.null strLen) s with
        | (.eq, s) => (it.pos pos len, s)
        | (_, s) => srchNonLoop pos len strLen its s

/-- `vstr_srch_buf_fwd` for `NULL`. -/
def srchNonFwd (pos len strLen : Nat) : StateM St Nat := fun s =>
  if len = 0 ∨ strLen > len then (0, s)
  else if strLen = 0 then (pos, s)
  else if ¬ s.base.nodeUsed .non then (0, s)
  else
    match iterFwdBeg s pos len with
    | (none, s) => (0, s)
    | (some it, s) => srchNonLoop pos len strLen (iterAll s.base s.base.nodes.length it) s

/-- `vstr_srch_buf_fwd`. -/
def srchAnyBufFwd (pos len : Nat) : Buf → StateM St Nat
  | .bytes str => srchBufFwd pos len str
  | .null strLen => srchNonFwd pos len strLen

/-- `vstr__srch_buf_rev_slow`. -/
def srchBufRevSlow (pos len : Nat) (buf : Buf) : StateM St Nat :=
  srchRevLoop (srchAnyBufFwd · · buf) (fun _ scanLen => scanLen ≥ buf.len) pos len (len + 1) 0
    pos len

/-- The loop of `vstr__cmp_eq_rev_buf`: the stretches before the end of the buffer. -/
def cmpEqRevBufLoop (h : Heap) : List UInt8 → List Scan → Bool
  | [], _ => true
  | _ :: _, [] => false
  | c :: cs, sc :: scs =>
    match sc.str with
    | none => false
    | some p =>
      let str := c :: cs
      let tmp := min sc.scanLen str.length
      if memcmp (str.drop (str.length - tmp)) (read h.mem (p.add (sc.scanLen - tmp)) tmp) ≠ .eq
      then false
      else cmpEqRevBufLoop h (str.take (str.length - tmp)) scs

/-- `vstr__cmp_eq_rev_buf`. -/
def cmpEqRevBuf (h : Heap) (str : List UInt8) (sc : Scan) (scs : List Scan) : Bool :=
  if str.length > sc.len + sc.scanLen then false else cmpEqRevBufLoop h str (sc :: scs)

/-- The loop of `vstr__cmp_eq_rev_non`. -/
def cmpEqRevNonLoop : Nat → List Scan → Bool
  | _, [] => false
  | strLen, sc :: scs =>
    match sc.str with
    | some _ => false
    | none =>
      if strLen ≤ sc.scanLen then true else cmpEqRevNonLoop (strLen - sc.scanLen) scs

/-- `vstr__cmp_eq_rev_non`. -/
def cmpEqRevNon (strLen : Nat) (sc : Scan) (scs : List Scan) : Bool :=
  if strLen > sc.len + sc.scanLen then false else cmpEqRevNonLoop strLen (sc :: scs)

/-- The search of `vstr__srch_buf_rev_fast` in one node, whose last `count` bytes are done. -/
def srchBufRevNode (h : Heap) (pos : Nat) (str : List UInt8) (sc : Scan) (scs : List Scan)
    (p : Addr) : Nat → Nat → Option Nat
  | 0, _ => none
  | fuel + 1, count =>
    if count < sc.scanLen then
      let count := count + 1
      let rest := sc.scanLen - count
      let endStr := str.getLastD 0
      let start := if h.byte (p.add rest) ≠ endStr then
          (memrchr (read h.mem p rest) endStr).map fun som => count + (rest - som)
        else some count
      match start with
      | none => srchBufRevNode h pos str sc scs p fuel count
      | some count =>
        let lenEnd := scPosdiff count sc.scanLen
        if cmpEqRevBuf h str { sc with scanLen := lenEnd } scs then
          some (pos + sc.len + lenEnd - str.length)
        else srchBufRevNode h pos str sc scs p fuel count
    else none

/-- The loop of `vstr__srch_buf_rev_fast`. -/
def srchBufRevFastLoop (h : Heap) (pos : Nat) (buf : Buf) : List Scan → Nat
  | [] => 0
  | sc :: scs =>
    match sc.str, buf with
    | none, .null strLen =>
      if cmpEqRevNon strLen sc scs then pos + sc.len + sc.scanLen - strLen
      else srchBufRevFastLoop h pos buf scs
    | some _, .null _ => srchBufRevFastLoop h pos buf scs
    | none, .bytes _ => srchBufRevFastLoop h pos buf scs
    | some p, .bytes str =>
      match srchBufRevNode h pos str sc scs p sc.scanLen 0 with
      | some found => found
      | none => srchBufRevFastLoop h pos buf scs

/-- `vstr__srch_buf_rev_fast`. -/
def srchBufRevFast (pos len : Nat) (buf : Buf) : StateM St Nat := fun s =>
  match baseScanRevBeg s pos len with
  | (none, s) => (0, s)
  | (some sc, s) => (srchBufRevFastLoop s.heap pos buf (scanRevAll s.base sc.num sc), s)

/-- `vstr_srch_buf_rev`. -/
def srchBufRev (pos len : Nat) (buf : Buf) : StateM St Nat := fun s =>
  if len = 0 ∨ buf.len > len then (0, s)
  else if buf.len = 0 then (pos + len - 1, s)
  else
    match buf with
    | .bytes [c] => srchChrRev pos len c s
    | buf =>
      if s.base.iovecUptoDate then srchBufRevFast pos len buf s else srchBufRevSlow pos len buf s

end Vstr
