import Vstr.Model.Parse

/-!
# Searching and comparing

`vstr_srch_chr_fwd` and `vstr_srch_buf_fwd` of `vstr_srch.c`, and `vstr_cmp_buf` of
`vstr_cmp.c`, for a buffer that is not `NULL`. Nothing but the position cache changes.
-/

namespace Vstr

open Memory

/-- `memchr`: the offset of the first byte that is `c`. -/
def memchr (bs : List UInt8) (c : UInt8) : Option Nat := bs.findIdx? (· = c)

/-- The sign of `memcmp` on buffers of one length. -/
def memcmp : List UInt8 → List UInt8 → Ordering
  | a :: as, b :: bs => (compare a.toNat b.toNat).then (memcmp as bs)
  | _, _ => .eq

/-- `vstr_iter_pos`. -/
def Iter.pos (it : Iter) (pos len : Nat) : Nat := pos + (len - (it.len + it.remaining))

/-- The loop of `vstr_srch_chr_fwd`. -/
def srchChrLoop (h : Heap) (pos len : Nat) (c : UInt8) : List Iter → Nat
  | [] => 0
  | it :: its =>
    match it.ptr h with
    | none => srchChrLoop h pos len c its
    | some p =>
      match memchr (read h.mem p it.len) c with
      | some i => it.pos pos len + i
      | none => srchChrLoop h pos len c its

/-- `vstr_srch_chr_fwd`. -/
def srchChrFwd (pos len : Nat) (c : UInt8) : StateM St Nat := fun s =>
  match iterFwdBeg s pos len with
  | (none, s) => (0, s)
  | (some it, s) => (srchChrLoop s.heap pos len c (iterAll s.base s.base.nodes.length it), s)

/-- The loop of `vstr_cmp_buf`, for what is left of the buffer. -/
def cmpBufLoop (h : Heap) : List UInt8 → List Iter → Ordering
  | _, [] => .lt
  | buf, it :: its =>
    let here := min it.len buf.length
    match it.ptr h with
    | none => .lt
    | some p =>
      match memcmp (read h.mem p here) (buf.take here) with
      | .eq =>
        if buf.length ≤ here then
          if it.len > buf.length ∨ it.remaining ≠ 0 then .gt else .eq
        else cmpBufLoop h (buf.drop here) its
      | ret => ret

/-- `vstr_cmp_buf`. -/
def cmpBuf (pos len : Nat) (buf : List UInt8) : StateM St Ordering := fun s =>
  match iterFwdBeg s pos len with
  | (none, s) => (if buf.length = 0 then .eq else .lt, s)
  | (some it, s) =>
    (if buf.length = 0 then .gt
      else cmpBufLoop s.heap buf (iterAll s.base s.base.nodes.length it), s)

/-- `vstr_cmp_buf_eq`. -/
def cmpBufEq (pos len : Nat) (buf : List UInt8) : StateM St Bool := do
  if len = buf.length then return (← cmpBuf pos len buf) == .eq else return false

/-- The search of `vstr_srch_buf_fwd` in one node, which is left from `it` on. -/
def srchBufNode (pos len : Nat) (str : List UInt8) : Nat → Iter → StateM St (Option Nat)
  | 0, _ => return none
  | fuel + 1, it => fun s =>
    if it.len + it.remaining < str.length ∨ it.len = 0 then (none, s)
    else
      match it.ptr s.heap with
      | none => (none, s)
      | some p =>
        match memchr (read s.heap.mem p it.len) (str.headD 0) with
        | none => (none, s)
        | some (i + 1) =>
          srchBufNode pos len str fuel
            { it with off := it.off + (i + 1), len := it.len - (i + 1) } s
        | some 0 =>
          let tmp := min it.len str.length
          let begPos := it.pos pos len
          let next := { it with off := it.off + 1, len := it.len - 1 }
          if memcmp (read s.heap.mem p tmp) (str.take tmp) ≠ .eq then
            srchBufNode pos len str fuel next s
          else if tmp = str.length then (some begPos, s)
          else
            match cmpBuf (begPos + tmp) (str.length - tmp) (str.drop tmp) s with
            | (.eq, s) => (some begPos, s)
            | (_, s) => srchBufNode pos len str fuel next s

/-- The loop of `vstr_srch_buf_fwd` over the nodes. -/
def srchBufLoop (pos len : Nat) (str : List UInt8) : List Iter → StateM St Nat
  | [] => return 0
  | it :: its => do
    if it.len + it.remaining < str.length then return 0
    else
      match ← srchBufNode pos len str (it.len + 1) it with
      | some found => return found
      | none => srchBufLoop pos len str its

/-- `vstr_srch_buf_fwd`. -/
def srchBufFwd (pos len : Nat) (str : List UInt8) : StateM St Nat := do
  if len = 0 ∨ str.length > len then return 0
  else
    match str with
    | [] => return pos
    | [c] => srchChrFwd pos len c
    | str => fun s =>
      match iterFwdBeg s pos len with
      | (none, s) => (0, s)
      | (some it, s) => srchBufLoop pos len str (iterAll s.base s.base.nodes.length it) s

end Vstr
