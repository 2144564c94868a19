import Vstr.Model.Find
import Vstr.Model.Spn

/-!
# Searching for a string, and without case

`vstr_srch_vstr_fwd` and `_rev` of `vstr_srch.c`, whose needle is a slice of a string, and the
functions of `vstr_srch_case.c`, which take no notice of the case of ASCII letters.
-/

namespace Vstr

open Memory

variable {n : Nat}

/-- `VSTR__TO_ASCII_UPPER` on what is `VSTR__IS_ASCII_LOWER`. -/
def toAsciiUpper (c : UInt8) : UInt8 := if 0x61 ≤ c ∧ c ≤ 0x7A then c - 0x20 else c

/-- `VSTR__IS_ASCII_ALPHA`. -/
def isAsciiAlpha (c : UInt8) : Bool := 0x61 ≤ c ∧ c ≤ 0x7A ∨ 0x41 ≤ c ∧ c ≤ 0x5A

/-- The loop of `vstr_srch_case_chr_fwd`. -/
def srchCaseChrLoop (h : Heap) (pos len : Nat) (srch : UInt8) : List Iter → Nat
  | [] => 0
  | it :: its =>
    match it.ptr h with
    | none => srchCaseChrLoop h pos len srch its
    | some p =>
      match (read h.mem p it.len).findIdx? fun c => toAsciiUpper c = srch with
      | some count => it.pos pos len + count
      | none => srchCaseChrLoop h pos len srch its

/-- `vstr_srch_case_chr_fwd`. -/
def srchCaseChrFwd (pos len : Nat) (srch : UInt8) : StateM St Nat := fun s =>
  if ¬ isAsciiAlpha srch then srchChrFwd pos len srch s
  else
    match iterFwdBeg s pos len with
    | (none, s) => (0, s)
    | (some it, s) => (srchCaseChrLoop s.heap pos len (toAsciiUpper srch)
      (iterAll s.base s.base.nodes.length it), s)

/-- `vstr_srch_chrs_rev`. -/
def srchChrsRev (pos len : Nat) (chrs : Option (List UInt8)) : StateM St Nat := do
  let num ← Cspn.chrsRev pos len chrs
  if num = len then return 0 else return pos + (len - num - 1)

/-- `vstr_srch_case_chr_rev`. -/
def srchCaseChrRev (pos len : Nat) (srch : UInt8) : StateM St Nat :=
  if ¬ isAsciiAlpha srch then srchChrRev pos len srch
  else srchChrsRev pos len (some [srch,
    if 0x61 ≤ srch ∧ srch ≤ 0x7A then toAsciiUpper srch else toAsciiLower srch])

/-- The search of `vstr_srch_case_buf_fwd` in one node, which is left from `it` on; `tmp` is the
first byte in upper case. -/
def srchCaseBufNode (pos len : Nat) (str : List UInt8) (tmp : UInt8) :
    Nat → Iter → StateM St (Option Nat)
  | 0, _ => return none
  | fuel + 1, it => fun s =>
    if it.len = 0 ∨ it.len + it.remaining < str.length then (none, s)
    else
      match it.ptr s.heap with
      | none => (none, s)
      | some p =>
        let next := { it with off := it.off + 1, len := it.len - 1 }
        if toAsciiUpper (s.heap.byte p) ≠ tmp then srchCaseBufNode pos len str tmp fuel next s
        else
          let begPos := it.pos pos len
          match cmpCaseBuf begPos str.length (.bytes str) s with
          | (.eq, s) => (some begPos, s)
          | (_, s) => srchCaseBufNode pos len str tmp fuel next s

/-- A loop over the nodes that searches one after the other with `node`, as long as `strLen`
bytes are left. -/
def srchNodeLoop (node : Iter → StateM St (Option Nat)) (strLen : Nat) : List Iter → StateM St Nat
  | [] => return 0
  | it :: its => do
    if it.len + it.remaining < strLen then return 0
    else
      match ← node it with
      | some found => return found
      | none => srchNodeLoop node strLen its

/-- `vstr_srch_case_buf_fwd`. -/
def srchCaseBufFwd (pos len : Nat) (buf : Buf) : StateM St Nat := fun s =>
  if len = 0 ∨ buf.len > len then (0, s)
  else if buf.len = 0 then (pos, s)
  else
    match buf with
    | .null strLen => srchAnyBufFwd pos len (.null strLen) s
    | .bytes [c] => srchCaseChrFwd pos len c s
    | .bytes str =>
      match iterFwdBeg s pos len with
      | (none, s) => (0, s)
      | (some it, s) =>
        srchNodeLoop
          (fun it => srchCaseBufNode pos len str (toAsciiUpper (str.headD 0)) (it.len + 1) it)
          str.length (iterAll s.base s.base.nodes.length it) s

/-- `vstr__srch_case_buf_rev_slow`. -/
def srchCaseBufRevSlow (pos len : Nat) (buf : Buf) : StateM St Nat :=
  srchRevLoop (srchCaseBufFwd · · buf)
    (fun scanPos scanLen => scanPos < pos + len - 1 ∧ scanLen ≥ buf.len) pos len (len + 1) 0 pos len

/-- `vstr_srch_case_buf_rev`. -/
def srchCaseBufRev (pos len : Nat) (buf : Buf) : StateM St Nat := fun s =>
  if len = 0 ∨ buf.len > len then (0, s)
  else if buf.len = 0 then (pos + len - 1, s)
  else
    match buf with
    | .bytes [c] => srchCaseChrRev pos len c s
    | buf => srchCaseBufRevSlow pos len buf s

/-! ## Strings in strings -/

/-- What one string answers, among several. -/
def World.ask {α : Type} (i : Fin n) (m : StateM St α) : StateM (World n) α := fun w => w.on i m

/-- The loop of `vstr_srch_vstr_fwd` and `vstr_srch_case_vstr_fwd`: `cmp` compares the needle,
`find` searches for the bytes of its first node. -/
def srchVstrLoop (cmp : Nat → StateM (World n) Ordering)
    (find : Option (Nat → Nat → StateM (World n) Nat)) (last ndlLen : Nat) :
    Nat → Nat → Nat → StateM (World n) Nat
  | 0, _, _ => return 0
  | fuel + 1, scanPos, scanLen => do
    if scanPos < last ∧ scanLen ≥ ndlLen then
      let ret ← cmp scanPos
      if ret = .eq then return scanPos
      else
        match find with
        | none => srchVstrLoop cmp find last ndlLen fuel (scanPos + 1) (scanLen - 1)
        | some search =>
          let tmp ← search (scanPos + 1) (scanLen - 1)
          if tmp = 0 then return 0
          else
            srchVstrLoop cmp find last ndlLen fuel tmp (scanLen - 1 - (tmp - (scanPos + 1)))
    else return 0

/-- `vstr_srch_vstr_fwd` and `vstr_srch_case_vstr_fwd`, with their comparison and their search
for a buffer. -/
def srchVstrWith (cmp : Fin n → Nat → Nat → Fin n → Nat → Nat → StateM (World n) Ordering)
    (find : Nat → Nat → Buf → StateM St Nat) (i : Fin n) (pos len : Nat) (j : Fin n)
    (ndlPos ndlLen : Nat) : StateM (World n) Nat := fun w =>
  if ndlLen > len then (0, w)
  else
    match w.on j (iterFwdBeg · ndlPos ndlLen) with
    | (none, w) => (0, w)
    | (some it, w) =>
      srchVstrLoop (fun scanPos => cmp i scanPos ndlLen j ndlPos ndlLen)
        ((it.ptr w.heap).map fun p scanPos scanLen =>
          World.ask i (find scanPos scanLen (.bytes (read w.heap.mem p it.len))))
        (pos + len - 1) ndlLen (len + 1) pos len w

/-- `vstr_srch_vstr_fwd`. -/
def srchVstrFwd (i : Fin n) (pos len : Nat) (j : Fin n) (ndlPos ndlLen : Nat) :
    StateM (World n) Nat :=
  srchVstrWith cmp srchAnyBufFwd i pos len j ndlPos ndlLen

/-- `vstr_srch_vstr_rev`. -/
def srchVstrRev (i : Fin n) (pos len : Nat) (j : Fin n) (ndlPos ndlLen : Nat) :
    StateM (World n) Nat :=
  srchRevLoop (srchVstrFwd i · · j ndlPos ndlLen) (fun _ scanLen => scanLen ≥ ndlLen) pos len
    (len + 1) 0 pos len

/-- `vstr_srch_case_vstr_fwd`. -/
def srchCaseVstrFwd (i : Fin n) (pos len : Nat) (j : Fin n) (ndlPos ndlLen : Nat) :
    StateM (World n) Nat :=
  srchVstrWith cmpCase srchCaseBufFwd i pos len j ndlPos ndlLen

/-- `vstr_srch_case_vstr_rev`. -/
def srchCaseVstrRev (i : Fin n) (pos len : Nat) (j : Fin n) (ndlPos ndlLen : Nat) :
    StateM (World n) Nat :=
  srchRevLoop (srchCaseVstrFwd i · · j ndlPos ndlLen)
    (fun scanPos scanLen => scanPos < pos + len - 1 ∧ scanLen ≥ ndlLen) pos len (len + 1) 0 pos len

end Vstr
