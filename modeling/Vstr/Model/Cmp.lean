import Vstr.Model.AddVstr
import Vstr.Model.Srch

/-!
# Comparing

`vstr_cmp`, `vstr_cmp_buf`, `vstr_cmp_case` and `vstr_cmp_case_buf` of `vstr_cmp.c`, and
`vstr_cmp_fast` and `vstr_cmp_fast_buf` of `vstr-inline.h`. What is compared may be one string
with itself. Of what `memcmp` returns only the sign is known.
-/

namespace Vstr

open Memory

variable {n : Nat}

/-- `VSTR__TO_ASCII_LOWER` on what is `VSTR__IS_ASCII_UPPER`. -/
def toAsciiLower (c : UInt8) : UInt8 := if 0x41 ≤ c ∧ c ≤ 0x5A then c + 0x20 else c

/-- `vstr__cmp_memcasecmp`. -/
def cmpMemcasecmp : List UInt8 → List UInt8 → Ordering
  | a :: as, b :: bs =>
    match compare (toAsciiLower a).toNat (toAsciiLower b).toNat with
    | .eq => cmpMemcasecmp as bs
    | ret => ret
  | _, _ => .eq

/-- The iteration once `tmp` bytes of its first stretch are done. -/
def iterDrop (tmp : Nat) (it : Iter) (its : List Iter) : List Iter :=
  if it.len - tmp ≠ 0 then { it with off := it.off + tmp, len := it.len - tmp } :: its else its

/-- The loop of `vstr_cmp` and `vstr_cmp_case`, that compare bytes with `cmp`; `fuel` bounds
the number of stretches. -/
def cmpLoop (cmp : List UInt8 → List UInt8 → Ordering) (h : Heap) :
    Nat → List Iter → List Iter → Ordering
  | fuel + 1, it₁ :: its₁, it₂ :: its₂ =>
    let tmp := min it₁.len it₂.len
    let next :=
      match iterDrop tmp it₁ its₁, iterDrop tmp it₂ its₂ with
      | [], _ => if it₂.len - tmp + it₂.remaining ≠ 0 then .lt else .eq
      | _ :: _, [] => .gt
      | its₁, its₂ => cmpLoop cmp h fuel its₁ its₂
    match it₁.ptr h, it₂.ptr h with
    | some p₁, some p₂ =>
      match cmp (read h.mem p₁ tmp) (read h.mem p₂ tmp) with
      | .eq => next
      | ret => ret
    | some _, none => .gt
    | none, some _ => .lt
    | none, none => next
  | _, _, _ => .eq

/-- `VSTR__CMP_DOUBLE_ITER_BEG`, and `loop` from there on. -/
def cmpDoubleIter {α : Type} (eq lt gt : α) (loop : Heap → List Iter → List Iter → α) (i : Fin n)
    (pos₁ len₁ : Nat) (j : Fin n) (pos₂ len₂ : Nat) : StateM (World n) α := fun w =>
  let r₁ := w.on i (iterFwdBeg · pos₁ len₁)
  let r₂ := r₁.2.on j (iterFwdBeg · pos₂ len₂)
  let w := r₂.2
  match r₁.1, r₂.1 with
  | none, none => (eq, w)
  | none, some _ => (lt, w)
  | some _, none => (gt, w)
  | some it₁, some it₂ =>
    (loop w.heap (iterAll (w.bases i) (w.bases i).nodes.length it₁)
      (iterAll (w.bases j) (w.bases j).nodes.length it₂), w)

/-- `vstr_cmp` on the strings `i` and `j`. -/
def cmp (i : Fin n) (pos₁ len₁ : Nat) (j : Fin n) (pos₂ len₂ : Nat) : StateM (World n) Ordering :=
  cmpDoubleIter .eq .lt .gt (fun h its₁ its₂ =>
    cmpLoop memcmp h (its₁.length + its₂.length) its₁ its₂) i pos₁ len₁ j pos₂ len₂

/-- `vstr_cmp_case` on the strings `i` and `j`. -/
def cmpCase (i : Fin n) (pos₁ len₁ : Nat) (j : Fin n) (pos₂ len₂ : Nat) :
    StateM (World n) Ordering :=
  cmpDoubleIter .eq .lt .gt (fun h its₁ its₂ =>
    cmpLoop cmpMemcasecmp h (its₁.length + its₂.length) its₁ its₂) i pos₁ len₁ j pos₂ len₂

/-! ## Buffers -/

/-- A buffer with its length, or `NULL` with a length. -/
inductive Buf where
  /-- The bytes at the pointer. -/
  | bytes (bs : List UInt8)
  /-- `NULL`. -/
  | null (len : Nat)
  deriving DecidableEq, Repr

/-- `buf_len`. -/
def Buf.len : Buf → Nat
  | bytes bs => bs.length
  | null len => len

/-- `buf += here` and `buf_len -= here`. -/
def Buf.drop (here : Nat) : Buf → Buf
  | bytes bs => bytes (bs.drop here)
  | null len => null (len - here)

/-- The loop of `vstr_cmp_buf` and `vstr_cmp_case_buf`, that compare bytes with `cmp`. -/
def bufLoop (cmp : List UInt8 → List UInt8 → Ordering) (h : Heap) : Buf → List Iter → Ordering
  | _, [] => .lt
  | buf, it :: its =>
    let here := min it.len buf.len
    let next :=
      if buf.len ≤ here then (if it.len > buf.len ∨ it.remaining ≠ 0 then .gt else .eq)
      else bufLoop cmp h (buf.drop here) its
    match it.ptr h, buf with
    | none, .bytes _ => .lt
    | some _, .null _ => .gt
    | none, .null _ => next
    | some p, .bytes bs =>
      match cmp (read h.mem p here) (bs.take here) with
      | .eq => next
      | ret => ret

/-- The beginning of `vstr_cmp_buf`, and `loop` from there on. -/
def cmpIter {α : Type} (eq lt gt : α) (loop : Heap → Buf → List Iter → α) (pos len : Nat)
    (buf : Buf) : StateM St α := fun s =>
  match iterFwdBeg s pos len with
  | (none, s) => (if buf.len = 0 then eq else lt, s)
  | (some it, s) =>
    (if buf.len = 0 then gt
      else loop s.heap buf (iterAll s.base s.base.nodes.length it), s)

/-- `vstr_cmp_buf`, for a buffer that may be `NULL`. -/
def cmpAnyBuf (pos len : Nat) (buf : Buf) : StateM St Ordering :=
  cmpIter .eq .lt .gt (bufLoop memcmp) pos len buf

/-- `vstr_cmp_case_buf`. -/
def cmpCaseBuf (pos len : Nat) (buf : Buf) : StateM St Ordering :=
  cmpIter .eq .lt .gt (bufLoop cmpMemcasecmp) pos len buf

/-! ## Lengths first -/

/-- A `size_t` returned as an `int`. -/
def sizeToInt (n : Int) : Int := n.bmod (2 ^ 32)

/-- An `int` with the sign. -/
def orderingInt : Ordering → Int
  | .lt => -1
  | .eq => 0
  | .gt => 1

/-- `vstr_cmp_fast` on the strings `i` and `j`. -/
def cmpFast (i : Fin n) (pos₁ len₁ : Nat) (j : Fin n) (pos₂ len₂ : Nat) : StateM (World n) Int := do
  if len₁ ≠ len₂ then return sizeToInt (len₂ - len₁)
  else return -orderingInt (← cmp i pos₁ len₁ j pos₂ len₁)

/-- `vstr_cmp_fast_buf`. -/
def cmpFastBuf (pos len : Nat) (buf : Buf) : StateM St Int := do
  if len ≠ buf.len then return sizeToInt (buf.len - len)
  else return -orderingInt (← cmpAnyBuf pos len buf)

end Vstr
