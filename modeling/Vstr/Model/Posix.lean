import Vstr.Model.Del
import Vstr.Model.Export
import Vstr.Model.Forward

/-!
# Writing to a file

`vstr_sc_write_fd` hands vectors of a slice to `writev` and deletes the bytes it took, until
all are written or `writev` took less than it was handed. The answers of `writev` are a list;
a call that needs more of them has not come back yet.
-/

namespace Vstr

/-- An answer of `writev`. -/
inductive Writev where
  /-- `EINTR`. -/
  | eintr
  /-- Any other error. -/
  | error
  /-- So many bytes were taken, or all there are. -/
  | took (bytes : Nat)
  deriving DecidableEq, Repr

/-- What `vstr_sc_write_fd` stores in `*err`. -/
inductive WriteErr where
  /-- No error. -/
  | zero
  /-- `VSTR_TYPE_SC_WRITE_FD_ERR_MEM`. -/
  | mem
  /-- `VSTR_TYPE_SC_WRITE_FD_ERR_WRITE_ERRNO`. -/
  | writeErrno
  deriving DecidableEq, Repr

/-- What `vstr_sc_write_fd` leaves. -/
structure Wrote where
  /-- What it returns, once it does. -/
  ret : Option Bool
  /-- `*err`. -/
  err : WriteErr
  /-- The state. -/
  st : St
  /-- The bytes the file got. -/
  out : List (Option UInt8)

/-- `VSTR__SC_VEC_SZ`. -/
def scVecSz : Nat := 32

/-- `VSTR__UIO_MAXDATA`. -/
def uioMaxdata : Nat := 2 ^ 31 - 1

/-- `while (clen > VSTR__UIO_MAXDATA)`; the last vector is the first of the list. -/
def capData (clen : Nat) : List Iovec → Nat × List Iovec
  | [] => (clen, [])
  | v :: vs => if clen > uioMaxdata then capData (clen - v.len) vs else (clen, (v :: vs).reverse)

/-- The vectors that one `writev` may take: at most `UIO_MAXIOV`, and no more bytes than
`VSTR__UIO_MAXDATA`. -/
def capVecs (maxIov : Nat) (r : Nat × List Iovec) : Nat × List Iovec :=
  capData (r.1 - ((r.2.drop maxIov).map Iovec.len).sum) (r.2.take maxIov).reverse

/-- The vectors of what is to be written, and their length; none, when memory ran out. -/
def writeVecs (s : St) (pos len : Nat) : Option (Nat × List Iovec) × St :=
  if pos = 1 ∧ len = s.base.len ∧ s.base.cacheAvailable then
    let r := exportIovecPtrAll s
    if r.1 = 0 then (none, r.2.2) else (some (r.1, r.2.1), r.2.2)
  else
    let r := Fwd.exportIovecCpyPtr s pos len scVecSz
    (some r.1, r.2)

/-- The loop of `vstr_sc_write_fd`, once the vectors of a round are there. -/
def scWriteLoop (maxIov pos : Nat) : List Writev → St → Nat → Nat × List Iovec → Wrote
  | [], s, _, _ => ⟨none, .zero, s, []⟩
  | .eintr :: as, s, len, v => scWriteLoop maxIov pos as s len v
  | .error :: _, s, _, _ => ⟨some false, .writeErrno, s, []⟩
  | .took n :: as, s, len, v =>
    let bytes := min n v.1
    let out := (v.2.flatMap (Fwd.iovecBytes s.heap)).take bytes
    let s := (del s pos bytes).2
    if v.1 ≠ bytes then ⟨some true, .zero, s, out⟩
    else if len - bytes = 0 then ⟨some true, .zero, s, out⟩
    else
      match writeVecs s pos (len - bytes) with
      | (none, s) => ⟨some false, .mem, s, out⟩
      | (some v, s) =>
        let r := scWriteLoop maxIov pos as s (len - bytes) (capVecs maxIov v)
        { r with out := out ++ r.out }

/-- `vstr_sc_write_fd`. -/
def scWriteFd (maxIov : Nat) (as : List Writev) (s : St) (pos len : Nat) : Wrote :=
  if ¬ (pos ≠ 0 ∧ (pos ≤ s.base.len ∧ scPoslast pos len % 2 ^ 64 ≤ s.base.len ∨ len = 0)) then
    ⟨some false, .writeErrno, s, []⟩
  else if len = 0 then ⟨some true, .zero, s, []⟩
  else
    match writeVecs s pos len with
    | (none, s) => ⟨some false, .mem, s, []⟩
    | (some v, s) => scWriteLoop maxIov pos as s len (capVecs maxIov v)

end Vstr
