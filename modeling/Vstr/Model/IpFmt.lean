import Mathlib.Data.Nat.Digits.Defs

/-!
# Formatting addresses

The vector formatters of `vstr_sc.c`: the text that they put into a string, for IPv6 piece
after piece, without a field width. An IPv4 address is four numbers, an IPv6 address eight
groups of 16 bits.
-/

namespace Vstr

/-- `VSTR_TYPE_SC_FMT_CB_IPV6_*`. -/
inductive Ipv6Type where
  | aligned
  | std
  | compact
  | ipv4Aligned
  | ipv4Std
  | ipv4Compact
  deriving DecidableEq, Repr

/-- The character of a digit, in upper case. -/
def digitChr (d : Nat) : UInt8 := if d < 10 then (0x30 + d).toUInt8 else (0x41 + (d - 10)).toUInt8

/-- A number without leading zeros in base `b`: the conversions `%u` and `%X`. -/
def numText (b n : Nat) : List UInt8 :=
  if n = 0 then [0x30] else (Nat.digits b n).reverse.map digitChr

/-- The conversion `%04X`. -/
def hexText4 (n : Nat) : List UInt8 :=
  List.replicate (4 - (numText 16 n).length) 0x30 ++ numText 16 n

/-- The variables of `vstr__sc_fmt_num_ipv6_compact`. -/
structure Ipv6Compact where
  /-- `ret_max`. -/
  retMax : Nat
  /-- `ret_cur`. -/
  retCur : Nat
  /-- `atend`. -/
  atend : Nat
  /-- `*pos`. -/
  pos : Nat
  deriving DecidableEq, Repr

/-- The loop of `vstr__sc_fmt_num_ipv6_compact`. -/
def numIpv6CompactLoop : Nat → List Nat → Ipv6Compact → Ipv6Compact
  | _, [], r => r
  | scan, x :: xs, r =>
    if x = 0 then numIpv6CompactLoop (scan + 1) xs { r with retCur := r.retCur + 1 }
    else if r.retCur > r.retMax ∨ (r.retCur = r.retMax ∧ r.retCur ≠ scan ∧ r.atend ≠ 0) then
      numIpv6CompactLoop (scan + 1) xs
        ⟨r.retCur, 0, if r.retCur = scan then 1 else 0, scan - r.retCur⟩
    else numIpv6CompactLoop (scan + 1) xs { r with retCur := 0 }

/-- `vstr__sc_fmt_num_ipv6_compact`: the characters that are saved, and where the null field
is; the position is 9 when there is none. -/
def numIpv6Compact (ips : List Nat) : Nat × Nat :=
  let r := numIpv6CompactLoop 0 ips ⟨0, 0, 0, 9⟩
  let atend := if r.retCur = ips.length then 1 else r.atend
  let r := if r.retCur > r.retMax then
      { r with atend := atend + 1, retMax := r.retCur, pos := ips.length - r.retCur }
    else { r with atend := atend }
  (if r.retMax = 0 then 0 else 1 + (r.retMax - 1) * 2 - r.atend, r.pos)

/-- The zeros at the beginning. -/
def zeroRun (ips : List Nat) : Nat := (ips.takeWhile (· = 0)).length

/-- The loop of `vstr__sc_fmt_prnt_ipv6_compact`: the text, and whether a group was last. -/
def prntIpv6CompactLoop (posCompact : Nat) : Nat → Nat → Bool → List Nat → List UInt8 × Bool
  | 0, _, done, _ => ([], done)
  | _ + 1, _, done, [] => ([], done)
  | fuel + 1, scan, done, x :: xs =>
    if scan = posCompact then
      let zeros := zeroRun (x :: xs)
      let r := prntIpv6CompactLoop posCompact fuel (scan + zeros) false ((x :: xs).drop zeros)
      ([0x3A, 0x3A] ++ r.1, r.2)
    else
      let r := prntIpv6CompactLoop posCompact fuel (scan + 1) true xs
      ((if done then [0x3A] else []) ++ numText 16 x ++ r.1, r.2)

/-- `vstr__sc_fmt_prnt_ipv6_compact` for the groups given. -/
def prntIpv6Compact (ips : List Nat) (posCompact : Nat) : List UInt8 :=
  let r := prntIpv6CompactLoop posCompact (ips.length + 1) 0 false ips
  if ips.length ≠ 8 ∧ r.2 then r.1 ++ [0x3A] else r.1

/-- Groups with a separator between them. -/
def joinGroups (sep : UInt8) (gs : List (List UInt8)) : List UInt8 := List.intercalate [sep] gs

/-- The IPv4 part of an address. -/
def prntIpv4End (ips : List Nat) : List UInt8 :=
  joinGroups 0x2E ([ips.getD 6 0 / 256, ips.getD 6 0 % 256, ips.getD 7 0 / 256,
    ips.getD 7 0 % 256].map (numText 10))

/-- The text of `vstr_sc_fmt_add_ipv4_vec` and, with a suffix, of
`vstr_sc_fmt_add_ipv4_vec_cidr`. -/
def fmtIpv4 (ips : List Nat) (cidr : Option Nat) : List UInt8 :=
  joinGroups 0x2E ([ips.getD 0 0, ips.getD 1 0, ips.getD 2 0, ips.getD 3 0].map (numText 10)) ++
    cidr.elim [] fun c => 0x2F :: numText 10 c

/-- `vstr__sc_fmt_prnt_ipv6`, with the position that the computation of the length gave. -/
def prntIpv6 (type : Ipv6Type) (ips : List Nat) : List UInt8 :=
  match type with
  | .ipv4Aligned => joinGroups 0x3A ((ips.take 6).map hexText4) ++ [0x3A] ++ prntIpv4End ips
  | .std => joinGroups 0x3A (ips.map (numText 16))
  | .ipv4Std => joinGroups 0x3A ((ips.take 6).map (numText 16)) ++ [0x3A] ++ prntIpv4End ips
  | .compact => prntIpv6Compact ips (numIpv6Compact ips).2
  | .ipv4Compact =>
    prntIpv6Compact (ips.take 6) (numIpv6Compact (ips.take 6)).2 ++ prntIpv4End ips
  | .aligned => joinGroups 0x3A (ips.map hexText4)

/-- The text of `vstr_sc_fmt_add_ipv6_vec` and, with a suffix, of
`vstr_sc_fmt_add_ipv6_vec_cidr`. -/
def fmtIpv6 (type : Ipv6Type) (ips : List Nat) (cidr : Option Nat) : List UInt8 :=
  prntIpv6 type ips ++ cidr.elim [] fun c => 0x2F :: numText 10 c

end Vstr
