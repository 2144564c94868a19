import Vstr.Model.Srch

/-!
# The memory wrappers

`vstr_wrap_memcpy`, `_memcmp`, `_memchr`, `_memset` and `_memmove` of `vstr-inline.h` and
`vstr_wrap_memrchr` of `vstr-nx-inline.h`, as they are when they are compiled in. The cases
of a switch fall through from the last byte to the first. A length that the compiler knows
takes the way of the long ones; `constP` says that it does.
-/

namespace Vstr

open Memory

variable {B : Type} [DecidableEq B]

/-- A plain `char` passed as an `int`: bytes from 128 on are negative. -/
def plainChar (b : UInt8) : Int := if b.toNat < 128 then b.toNat else b.toNat - 256

/-- An `int` converted to `unsigned char`. -/
def toUchar (c : Int) : UInt8 := UInt8.ofNat (c % 256).toNat

/-- `memrchr`: the offset of the last byte that is `c`. -/
def memrchr (bs : List UInt8) (c : UInt8) : Option Nat :=
  (bs.reverse.findIdx? (· = c)).map fun i => bs.length - 1 - i

/-- The cases of `vstr_wrap_memcpy`. -/
def wrapMemcpyCases (dst src : Ptr B) : Nat → Mem B UInt8 → Mem B UInt8
  | 0, m => m
  | n + 1, m => wrapMemcpyCases dst src n (write m (dst.add n) [m src.blk (src.off + n)])

/-- `vstr_wrap_memcpy`. -/
def wrapMemcpy (constP : Bool) (m : Mem B UInt8) (dst src : Ptr B) (n : Nat) : Mem B UInt8 :=
  if n > 16 ∨ constP then copy m dst src n else wrapMemcpyCases dst src n m

/-- The cases of `vstr_wrap_memcmp`: a difference is stored over that of a later byte. -/
def wrapMemcmpCases (s1 s2 : List UInt8) : Nat → Int → Int
  | 0, ret => ret
  | n + 1, ret =>
    let tmp := ((s1.getD n 0).toNat : Int) - (s2.getD n 0).toNat
    wrapMemcmpCases s1 s2 n (if tmp ≠ 0 then tmp else ret)

/-- What `memcmp` returns, of which only the sign is known. -/
def memcmpRet (s1 s2 : List UInt8) : Int :=
  match memcmp s1 s2 with
  | .lt => -1
  | .eq => 0
  | .gt => 1

/-- `vstr_wrap_memcmp`. -/
def wrapMemcmp (constP : Bool) (s1 s2 : List UInt8) : Int :=
  if s1.length > 16 ∨ constP then memcmpRet s1 s2 else wrapMemcmpCases s1 s2 s1.length 0

/-- The cases of `vstr_wrap_memchr`: a match is stored over that of a later byte. -/
def wrapMemchrCases (s1 : List UInt8) (c : Int) : Nat → Option Nat → Option Nat
  | 0, ret => ret
  | n + 1, ret => wrapMemchrCases s1 c n (if (s1.getD n 0).toNat = c then some n else ret)

/-- `vstr_wrap_memchr`. -/
def wrapMemchr (s1 : List UInt8) (c : Int) : Option Nat :=
  if s1.length ≤ 16 then wrapMemchrCases s1 c s1.length none else memchr s1 (toUchar c)

/-- The cases of `vstr_wrap_memrchr`, which stop at a match. -/
def wrapMemrchrCases (s1 : List UInt8) (c : Int) : Nat → Option Nat
  | 0 => none
  | n + 1 => if (s1.getD n 0).toNat = c then some n else wrapMemrchrCases s1 c n

/-- `vstr_wrap_memrchr`. -/
def wrapMemrchr (s1 : List UInt8) (c : Int) : Option Nat :=
  if s1.length ≤ 7 then wrapMemrchrCases s1 c s1.length else memrchr s1 (toUchar c)

/-- The cases of `vstr_wrap_memset`. -/
def wrapMemsetCases (dst : Ptr B) (c : Int) : Nat → Mem B UInt8 → Mem B UInt8
  | 0, m => m
  | n + 1, m => wrapMemsetCases dst c n (write m (dst.add n) [toUchar c])

/-- `vstr_wrap_memset`. -/
def wrapMemset (constP : Bool) (m : Mem B UInt8) (dst : Ptr B) (c : Int) (n : Nat) :
    Mem B UInt8 :=
  if n > 16 ∨ constP then fill m dst (toUchar c) n else wrapMemsetCases dst c n m

/-- `vstr_wrap_memmove`, with its local array at `tmp`. -/
def wrapMemmove (constP : Bool) (m : Mem B UInt8) (tmp dst src : Ptr B) (n : Nat) :
    Mem B UInt8 :=
  if n < 16 then wrapMemcpy constP (wrapMemcpy constP m tmp src n) dst tmp n
  else copy m dst src n

end Vstr
