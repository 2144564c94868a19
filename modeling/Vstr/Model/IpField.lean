import Vstr.Lib.Splice
import Vstr.Model.IpFmt

/-!
# The field of an address

The length that `vstr__sc_fmt_num_ipv6` computes for an IPv6 address and the field around it:
`vstr_sc_fmt_cb_beg` and `vstr_sc_fmt_cb_end` of `vstr_sc.c` for an object that is neither a
number nor a string. The string is its text, and additions succeed where there is such a
position; the fields of the specification that such an object does not look at are left out.
-/

namespace Vstr

open Splice

/-- The loop of `vstr__sc_fmt_num10_len`. -/
def fmtNum10LenLoop : Nat → Nat → Nat → Nat
  | 0, _, ret => ret
  | fuel + 1, num, ret => if num > 0 then fmtNum10LenLoop fuel (num / 10) (ret + 1) else ret

/-- `vstr__sc_fmt_num10_len`. -/
def fmtNum10Len (num : Nat) : Nat :=
  let ret := fmtNum10LenLoop num num 0
  if ret = 0 then 1 else ret

/-- `vstr__sc_fmt_num16_len`. -/
def fmtNum16Len (num : Nat) : Nat :=
  if num &&& 0xF000 ≠ 0 then 4
  else if num &&& 0x0F00 ≠ 0 then 3
  else if num &&& 0x00F0 ≠ 0 then 2
  else if num &&& 0x000F ≠ 0 then 1
  else 1

/-- `vstr__sc_fmt_num_ipv6_std` for the groups given. -/
def fmtNumIpv6Std (ips : List Nat) : Nat := (ips.map fmtNum16Len).sum

/-- The length of the IPv4 address at the end, from the last two groups. -/
def fmtNumIpv4End (ips : List Nat) : Nat :=
  fmtNum10Len (ips.getD 6 0 / 256) + fmtNum10Len (ips.getD 6 0 % 256) +
    fmtNum10Len (ips.getD 7 0 / 256) + fmtNum10Len (ips.getD 7 0 % 256) + 3

/-- `vstr__sc_fmt_num_ipv6`. -/
def fmtNumIpv6 (type : Ipv6Type) (ips : List Nat) : Nat :=
  match type with
  | .aligned => 7 + 4 * 8
  | .std => fmtNumIpv6Std ips + 7
  | .compact => fmtNumIpv6Std ips + 7 - (numIpv6Compact ips).1
  | .ipv4Aligned => 6 + 4 * 6 + fmtNumIpv4End ips
  | .ipv4Std => fmtNumIpv6Std (ips.take 6) + 6 + fmtNumIpv4End ips
  | .ipv4Compact =>
    fmtNumIpv6Std (ips.take 6) + 6 - (numIpv6Compact (ips.take 6)).1 + fmtNumIpv4End ips

/-- The fields of `Vstr_fmt_spec` that say how wide a field is. -/
structure FmtSpec where
  /-- `fmt_minus`. -/
  fmtMinus : Bool
  /-- `fmt_field_width`. -/
  fmtFieldWidth : Bool
  /-- `obj_field_width`. -/
  objFieldWidth : Nat
  deriving DecidableEq, Repr

/-- `vstr_add_rep_chr` on a text. -/
def textAddRepChr (text : List UInt8) (pos : Nat) (chr : UInt8) (len : Nat) :
    Option (List UInt8) :=
  if pos > text.length then none
  else if len = 0 then some text
  else some (insertAfter text pos (List.replicate len chr))

/-- `vstr_add_fmt` on a text, with what the format stands for. -/
def textAddFmt (text : List UInt8) (pos : Nat) (out : List UInt8) : Option (List UInt8) :=
  if out = [] then some text
  else if pos > text.length then none
  else some (insertAfter text pos out)

/-- `vstr_sc_fmt_cb_beg` with `OBJ_ATOM`: the text, the position and the specification. -/
def scFmtCbBeg (text : List UInt8) (pos : Nat) (spec : FmtSpec) (objLen : Nat) :
    Option (List UInt8 × Nat × FmtSpec) := do
  let wide := spec.fmtFieldWidth ∧ objLen < spec.objFieldWidth
  let spaceLen := if wide then spec.objFieldWidth - objLen else 0
  let spec := { spec with fmtFieldWidth := wide }
  if ¬ spec.fmtMinus ∧ spaceLen ≠ 0 then
    let text ← textAddRepChr text pos 0x20 spaceLen
    return (text, pos + spaceLen, { spec with objFieldWidth := 0 })
  else return (text, pos, { spec with objFieldWidth := spaceLen })

/-- `vstr_sc_fmt_cb_end`. -/
def scFmtCbEnd (text : List UInt8) (pos : Nat) (spec : FmtSpec) (objLen : Nat) :
    Option (List UInt8) :=
  let spaceLen := if spec.fmtFieldWidth then spec.objFieldWidth else 0
  if spec.fmtMinus then textAddRepChr text (pos + objLen) 0x20 spaceLen else some text

/-- `vstr__sc_fmt_add_cb_ipv6_vec` and, with a suffix, `vstr__sc_fmt_add_cb_ipv6_vec_cidr`. -/
def scFmtAddCbIpv6Vec (type : Ipv6Type) (ips : List Nat) (cidr : Option Nat)
    (text : List UInt8) (pos : Nat) (spec : FmtSpec) : Option (List UInt8) := do
  let len := fmtNumIpv6 type ips + cidr.elim 0 fun c => 1 + fmtNum10Len c
  let (text, pos, spec) ← scFmtCbBeg text pos spec len
  let origLen := text.length
  let text ← textAddFmt text pos (prntIpv6 type ips)
  let text ← match cidr with
    | none => some text
    | some c => textAddFmt text (pos + (text.length - origLen)) (0x2F :: numText 10 c)
  scFmtCbEnd text pos spec len

end Vstr
