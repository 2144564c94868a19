import Vstr.Model.Parse

/-!
# An iterator that is read from

`vstr_iter_fwd_nxt`, `vstr_iter_fwd_chr`, `vstr_iter_fwd_buf` and `vstr_iter_fwd_cstr` on an
iterator that keeps its place from one call to the next, and the two exports into vectors. The
iterator is `none` when it is done: `node` is `NULL`, and `len` and `remaining` are zero.
-/

namespace Vstr.Fwd

open Memory

/-- `VSTR_TYPE_ITER_*`. -/
inductive Ern where
  /-- `VSTR_TYPE_ITER_DEF`. -/
  | iterDef
  /-- `VSTR_TYPE_ITER_NON`. -/
  | iterNon
  /-- `VSTR_TYPE_ITER_END`. -/
  | iterEnd
  deriving DecidableEq, Repr

/-- Some bytes of the stretch are done. -/
def advance (it : Iter) (n : Nat) : Iter := { it with off := it.off + n, len := it.len - n }

/-- `vstr_iter_len`. -/
def iterLen : Option Iter → Nat
  | none => 0
  | some it => it.len + it.remaining

variable (b : Base)

/-- `iter->len || vstr_iter_fwd_nxt(iter)`. -/
def iterMore : Option Iter → Option Iter
  | none => none
  | some it => if it.len = 0 then iterFwdNxt b it else some it

/-- `vstr_iter_fwd_chr`: the byte, `*ern`, and the iterator. -/
def iterFwdChr (h : Heap) (o : Option Iter) : (UInt8 × Ern) × Option Iter :=
  match iterMore b o with
  | none => ((0, .iterEnd), none)
  | some it =>
    match it.ptr h with
    | none => ((0, .iterNon), some (advance it 1))
    | some p => ((h.byte p, .iterDef), some (advance it 1))

/-- `vstr_wrap_memcpy` from the iterator, unless it is in a `NON` node. -/
def copyOut (h : Heap) (it : Iter) (buf : Addr) (n : Nat) : Heap :=
  match it.ptr h with
  | none => h
  | some p => h.setMem (copy h.mem buf p n)

/-- The loop of `vstr_iter_fwd_buf`: what is left of `len`; each turn takes a byte at least. -/
def iterFwdBufLoop : Nat → Heap → Option Iter → Nat → Addr → Nat → Nat × Heap × Option Iter
  | 0, h, o, len, _, _ => (len, h, o)
  | fuel + 1, h, o, len, buf, bufLen =>
    match iterMore b o with
    | none => (len, h, none)
    | some it =>
      if len = 0 then (0, h, some it)
      else
        let tmp := min len it.len
        let tmpBufLen := min tmp bufLen
        iterFwdBufLoop fuel (copyOut h it buf tmpBufLen) (some (advance it tmp)) (len - tmp)
          (buf.add tmpBufLen) (bufLen - tmpBufLen)

/-- `vstr_iter_fwd_buf`: the length, `*ern`, the memory and the iterator. -/
def iterFwdBuf (h : Heap) (o : Option Iter) (len : Nat) (buf : Addr) (bufLen : Nat) :
    (Nat × Ern) × Heap × Option Iter :=
  match iterMore b o with
  | none => ((0, .iterEnd), h, none)
  | some it =>
    let r := iterFwdBufLoop b (len + 1) h (some it) len buf bufLen
    ((len - r.1, .iterDef), r.2)

/-- `vstr_iter_fwd_cstr`; `*ern` is not set where there is no buffer. -/
def iterFwdCstr (h : Heap) (o : Option Iter) (len : Nat) (buf : Addr) (bufLen : Nat) :
    (Nat × Option Ern) × Heap × Option Iter :=
  if bufLen = 0 then ((0, none), h, o)
  else
    let h' := h.setMem (write h.mem (buf.add (bufLen - 1)) [0])
    let r := iterFwdBuf b h' o len buf (bufLen - 1)
    let h'' := if r.1.1 < bufLen - 1 then r.2.1.setMem (write r.2.1.mem (buf.add r.1.1) [0])
      else r.2.1
    ((r.1.1, some r.1.2), h'', r.2.2)

/-- One call that reads from an iterator. -/
inductive Call where
  /-- `vstr_iter_fwd_chr`. -/
  | chr
  /-- `vstr_iter_fwd_buf`. -/
  | buf (len : Nat) (buf : Addr) (bufLen : Nat)
  /-- `vstr_iter_fwd_cstr`. -/
  | cstr (len : Nat) (buf : Addr) (bufLen : Nat)

/-- What a call gives back. -/
inductive Reply where
  /-- A byte and `*ern`. -/
  | chr (c : UInt8) (ern : Ern)
  /-- A length and `*ern`, if it was set. -/
  | len (n : Nat) (ern : Option Ern)
  deriving DecidableEq, Repr

/-- One call. -/
def iterCall (h : Heap) (o : Option Iter) : Call → Reply × Heap × Option Iter
  | .chr =>
    let r := iterFwdChr b h o
    (.chr r.1.1 r.1.2, h, r.2)
  | .buf len buf bufLen =>
    let r := iterFwdBuf b h o len buf bufLen
    (.len r.1.1 (some r.1.2), r.2)
  | .cstr len buf bufLen =>
    let r := iterFwdCstr b h o len buf bufLen
    (.len r.1.1 r.1.2, r.2)

/-- Calls one after the other. -/
def iterCalls : List Call → Heap → Option Iter → List Reply × Heap × Option Iter
  | [], h, o => ([], h, o)
  | c :: cs, h, o =>
    let r := iterCall b h o c
    let rs := iterCalls cs r.2.1 r.2.2
    (r.1 :: rs.1, rs.2)

/-! ## Exports into vectors -/

/-- Where the copying loop of `vstr_export_iovec_cpy_buf` ends. -/
structure Filled where
  /-- The memory. -/
  heap : Heap
  /-- `ret_num`. -/
  retNum : Nat
  /-- `used`. -/
  used : Nat
  /-- `ret_len`. -/
  retLen : Nat

/-- The copying loop of `vstr_export_iovec_cpy_buf`; the vectors are those from `ret_num` on, and
each turn takes a byte at least. -/
def iovecCpyBufLoop : Nat → Iter → List (Addr × Nat) → Filled → Filled
  | 0, _, _, f => f
  | _, _, [], f => f
  | fuel + 1, it, (base, iovLen) :: iovs, f =>
    let tmp := min it.len (iovLen - f.used)
    let full := iovLen = f.used + tmp
    let f : Filled := ⟨copyOut f.heap it (base.add f.used) tmp,
      if full then f.retNum + 1 else f.retNum,
      if full then 0 else f.used + tmp, f.retLen + tmp⟩
    if full ∧ iovs = [] then f
    else
      match iterMore b (some (advance it tmp)) with
      | none => f
      | some it => iovecCpyBufLoop fuel it (if full then iovs else (base, iovLen) :: iovs) f

/-- `vstr_export_iovec_cpy_buf`: the length, the vectors and `*real_ret_num`, if it was set. -/
def exportIovecCpyBuf (s : St) (pos len : Nat) (iovs : List (Addr × Nat)) :
    (Nat × List (Addr × Nat) × Option Nat) × St :=
  if iovs = [] then ((0, iovs, none), s)
  else
    match iterFwdBeg s pos len with
    | (none, s) => ((0, iovs, none), s)
    | (some it, s) =>
      let f := iovecCpyBufLoop s.base len it iovs ⟨s.heap, 0, 0, 0⟩
      let s' : St := { s with heap := f.heap }
      if f.used = 0 then ((f.retLen, iovs, some f.retNum), s')
      else
        ((f.retLen, iovs.modify f.retNum fun v => (v.1, f.used), some (f.retNum + 1)), s')

/-- The vectors of `vstr_export_iovec_cpy_ptr`, for at most so many. -/
def iovecCpyPtrLoop (h : Heap) : Nat → Iter → List Iovec
  | 0, _ => []
  | num + 1, it =>
    ⟨it.ptr h, it.len⟩ ::
      match iterFwdNxt b it with
      | none => []
      | some it => iovecCpyPtrLoop h num it

/-- `vstr_export_iovec_cpy_ptr`: the length, and the vectors that were set. -/
def exportIovecCpyPtr (s : St) (pos len numMax : Nat) : (Nat × List Iovec) × St :=
  if numMax = 0 then ((0, []), s)
  else
    match iterFwdBeg s pos len with
    | (none, s) => ((0, []), s)
    | (some it, s) =>
      let vs := iovecCpyPtrLoop s.base s.heap numMax it
      (((vs.map Iovec.len).sum, vs), s)

/-- The bytes of a vector. -/
def iovecBytes (h : Heap) (v : Iovec) : List (Option UInt8) :=
  match v.base with
  | none => List.replicate v.len none
  | some p => (read h.mem p v.len).map some

end Vstr.Fwd
