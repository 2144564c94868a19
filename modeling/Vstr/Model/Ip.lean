import Vstr.Model.Split

/-!
# Parsing addresses

`vstr_parse_ipv4` and `vstr_parse_ipv6` of `vstr_parse.c`. The address they fill in is a
list; what they return through pointers is part of the answer, and a call that fails
answers with its error alone. Characters are ASCII, with or without the `LOCAL` flags.
-/

namespace Vstr

/-- `VSTR_TYPE_PARSE_IPV4_ERR_*` of the calls that fail. -/
inductive ParseIpv4Err where
  | ipv4Oob
  | ipv4Full
  | cidrOob
  | cidrFull
  | netmaskOob
  | netmaskFull
  deriving DecidableEq, Repr

/-- `VSTR_FLAG_PARSE_IPV4_*`. -/
structure ParseIpv4Flags where
  /-- `LOCAL`. -/
  loc : Bool
  /-- `ZEROS`. -/
  zeros : Bool
  /-- `FULL`. -/
  full : Bool
  /-- `CIDR`. -/
  cidr : Bool
  /-- `CIDR_FULL`. -/
  cidrFull : Bool
  /-- `NETMASK`. -/
  netmask : Bool
  /-- `NETMASK_FULL`. -/
  netmaskFull : Bool
  /-- `ONLY`. -/
  only : Bool
  deriving DecidableEq, Repr

/-- The flags of a number in an address. -/
def ipNumFlags (base : Nat) (loc noBegZero : Bool) : ParseNumFlags where
  base := base
  loc := loc
  sep := false
  overflow := false
  space := false
  noBegZero := noBegZero
  noBegPm := true

/-- What `vstr_parse_ipv4` returns. -/
structure ParsedIpv4 where
  /-- `ips`. -/
  ips : List Nat
  /-- `*cidr`. -/
  cidr : Nat
  /-- `*ret_len`. -/
  len : Nat
  /-- `*err` is `ONLY`: there is something behind the address. -/
  only : Bool
  deriving DecidableEq, Repr

/-- The loop of `vstr_parse_ipv4` over at most `fuel` numbers: position and length left, and
the address so far; `none` when a number is too large. -/
def parseIpv4Loop (nf : ParseNumFlags) :
    Nat → Nat → Nat → List Nat → StateM St (Option (Nat × Nat × List Nat))
  | 0, pos, len, ips => return some (pos, len, ips)
  | fuel + 1, pos, len, ips => do
    if len = 0 then return some (pos, len, ips)
    else
      let num ← parseUint nf pos (min 3 len)
      if num.len = 0 then return some (pos, len, ips)
      else if num.num > 255 then return none
      else
        let pos := pos + num.len
        let len := len - num.len
        let ips := ips ++ [num.num]
        if ips.length = 4 ∨ len = 0 then return some (pos, len, ips)
        else if (← exportChr pos) = 0x2F then return some (pos, len, ips)
        else if (← exportChr pos) ≠ 0x2E then return some (pos, len, ips)
        else if len - 1 = 0 then return some (pos + 1, len - 1, ips)
        else if (← exportChr (pos + 1)) = 0x2F then return some (pos + 1, len - 1, ips)
        else parseIpv4Loop nf fuel (pos + 1) (len - 1) ips

/-- The bits a byte of a netmask that is not 255 stands for. -/
def netmaskBits : Nat → Option Nat
  | 254 => some 7
  | 252 => some 6
  | 248 => some 5
  | 240 => some 4
  | 224 => some 3
  | 192 => some 2
  | 128 => some 1
  | 0 => some 0
  | _ => none

/-- The loop of `vstr__parse_ipv4_netmask`: length left, numbers read and, once a byte is
not 255, the number of bits; `none` when it is no netmask. -/
def parseIpv4NetmaskLoop (nf : ParseNumFlags) :
    Nat → Nat → Nat → Nat → Option Nat → StateM St (Option (Nat × Nat × Option Nat))
  | 0, _, len, scan, cidr => return some (len, scan, cidr)
  | fuel + 1, pos, len, scan, cidr => do
    if len = 0 then return some (len, scan, cidr)
    else
      let num ← parseUint nf pos (min 3 len)
      if num.len = 0 then return some (len, scan, cidr)
      else
        let pos := pos + num.len
        let len := len - num.len
        let step := match cidr with
          | some bits => if num.num ≠ 0 then none else some (some bits)
          | none =>
            if num.num > 255 then none
            else if num.num ≠ 255 then (netmaskBits num.num).map fun bits => some (scan * 8 + bits)
            else some none
        match step with
        | none => return none
        | some cidr =>
          if scan + 1 = 4 ∨ len = 0 then return some (len, scan + 1, cidr)
          else if (← exportChr pos) ≠ 0x2E then return some (len, scan + 1, cidr)
          else parseIpv4NetmaskLoop nf fuel (pos + 1) (len - 1) (scan + 1) cidr

/-- `vstr__parse_ipv4_netmask`: the number of bits and the length left, or an error. -/
def parseIpv4Netmask (fl : ParseIpv4Flags) (nf : ParseNumFlags) (pos len : Nat) :
    StateM St (Except ParseIpv4Err (Nat × Nat)) := do
  match ← parseIpv4NetmaskLoop nf 4 pos len 0 none with
  | none => return .error .netmaskOob
  | some (len, scan, cidr) =>
    if fl.netmaskFull ∧ scan ≠ 4 then return .error .netmaskFull
    else return .ok (cidr.getD (scan * 8), len)

/-- `vstr__parse_ipv4_cidr`. -/
def parseIpv4Cidr (fl : ParseIpv4Flags) (nf : ParseNumFlags) (pos len : Nat) :
    StateM St (Except ParseIpv4Err (Nat × Nat)) := do
  let num ← if len ≠ 0 then parseUint nf pos len else pure ⟨32, 0, .none⟩
  if num.len ≠ 0 then
    let dot ← if fl.netmask ∧ num.num > 32 ∧ len > num.len then
        pure (decide ((← exportChr (pos + num.len)) = 0x2E))
      else pure false
    if dot then parseIpv4Netmask fl nf pos len
    else if num.num ≤ 32 then return .ok (num.num, len - num.len)
    else return .error .cidrOob
  else if fl.cidrFull then return .error .cidrFull
  else return .ok (32, len)

/-- `vstr_parse_ipv4`. -/
def parseIpv4 (fl : ParseIpv4Flags) (pos len : Nat) :
    StateM St (Except ParseIpv4Err ParsedIpv4) := do
  let nf := ipNumFlags 10 fl.loc (!fl.zeros)
  match ← parseIpv4Loop nf 4 pos len [] with
  | none => return .error .ipv4Oob
  | some (pos, left, ips) =>
    if ips.length ≠ 4 ∧ fl.full then return .error .ipv4Full
    else
      let ips := ips ++ List.replicate (4 - ips.length) 0
      let slash ← if left ≠ 0 then pure (decide ((← exportChr pos) = 0x2F)) else pure false
      let rest ← if slash ∧ fl.cidr then parseIpv4Cidr fl nf (pos + 1) (left - 1)
        else if slash ∧ fl.netmask then parseIpv4Netmask fl nf (pos + 1) (left - 1)
        else pure (.ok (32, left))
      match rest with
      | .error err => return .error err
      | .ok (cidr, left) => return .ok ⟨ips, cidr, len - left, left ≠ 0 ∧ fl.only⟩

/-- `VSTR_TYPE_PARSE_IPV6_ERR_*` of the calls that fail. -/
inductive ParseIpv6Err where
  | ipv6Null
  | ipv6Oob
  | ipv6Full
  | cidrOob
  | cidrFull
  deriving DecidableEq, Repr

/-- `VSTR_FLAG_PARSE_IPV6_*`. -/
structure ParseIpv6Flags where
  /-- `LOCAL`. -/
  loc : Bool
  /-- `CIDR`. -/
  cidr : Bool
  /-- `CIDR_FULL`. -/
  cidrFull : Bool
  /-- `ONLY`. -/
  only : Bool
  deriving DecidableEq, Repr

/-- What `vstr_parse_ipv6` returns. -/
structure ParsedIpv6 where
  /-- `ips`. -/
  ips : List Nat
  /-- `*cidr`. -/
  cidr : Nat
  /-- `*ret_len`. -/
  len : Nat
  /-- `*err` is `ONLY`: there is something behind the address. -/
  only : Bool
  deriving DecidableEq, Repr

/-- The variables of the loop of `vstr_parse_ipv6`. -/
structure Ipv6Loop where
  /-- `scan`. -/
  scan : Nat
  /-- `off_null`. -/
  offNull : Nat
  /-- `num_len`. -/
  numLen : Nat
  /-- `ips`. -/
  ips : List Nat
  deriving DecidableEq, Repr

/-- The loop of `vstr_parse_ipv6` over the sections, of which there are `num`. -/
def parseIpv6Loop (nf : ParseNumFlags) (num : Nat) :
    List Sect → Ipv6Loop → StateM St (Except ParseIpv6Err Ipv6Loop)
  | [], r => return .ok r
  | x :: xs, r => do
    let scan := r.scan + 1
    if x.len = 0 then
      if r.offNull ≠ 0 then return .error .ipv6Null
      else parseIpv6Loop nf num xs ⟨scan, scan, r.numLen, r.ips.set (scan - 1) 0⟩
    else
      let n ← parseUint nf x.pos x.len
      if n.len = 0 ∧ r.offNull ≠ 0 ∧ r.offNull = scan - 1 ∧ scan = num then
        return .ok { r with scan := scan, numLen := n.len }
      else if n.len > 4 ∨ n.len = 0 ∨ n.num > 0xFFFF then return .error .ipv6Oob
      else parseIpv6Loop nf num xs ⟨scan, r.offNull, n.len, r.ips.set (scan - 1) n.num⟩

/-- The flags of the address at the end of an IPv6 one. -/
def ipv4EndFlags (loc : Bool) : ParseIpv4Flags where
  loc := loc
  zeros := false
  full := true
  cidr := false
  cidrFull := false
  netmask := false
  netmaskFull := false
  only := false

/-- An IPv4 address at the end takes the place of the last two groups. -/
def parseIpv6End (loc : Bool) (last : Sect) (r : Ipv6Loop) : StateM St Ipv6Loop := do
  if last.len > 4 ∧ (r.offNull ≠ 0 ∨ r.scan = 7) then
    let v4 ← parseIpv4 (ipv4EndFlags loc) last.pos last.len
    match v4 with
    | .error _ => return r
    | .ok v4 =>
      let ips := r.ips.set (r.scan - 1) (v4.ips.getD 1 0 + v4.ips.getD 0 0 * 256)
      return { r with
        numLen := v4.len, scan := r.scan + 1,
        ips := ips.set r.scan (v4.ips.getD 3 0 + v4.ips.getD 2 0 * 256) }
  else return r

/-- The groups behind the null field go to the end. -/
def ipv6Spread (r : Ipv6Loop) : List Nat :=
  if r.offNull ≠ r.scan then
    r.ips.take r.offNull ++ List.replicate (8 - r.scan) 0 ++
      (r.ips.drop r.offNull).take (r.scan - r.offNull)
  else r.ips

/-- `vstr__parse_ipv6_cidr`. -/
def parseIpv6Cidr (fl : ParseIpv6Flags) (pos len : Nat) :
    StateM St (Except ParseIpv6Err (Nat × Nat)) := do
  let num ← if len ≠ 0 then parseUint (ipNumFlags 10 fl.loc false) pos len
    else pure ⟨128, 0, .none⟩
  if num.len ≠ 0 then
    if num.num ≤ 128 then return .ok (num.num, sizeSub len num.len) else return .error .cidrOob
  else if fl.cidrFull then return .error .cidrFull
  else return .ok (128, len)

/-- The end of `vstr_parse_ipv6`, behind the address. -/
def parseIpv6Rest (fl : ParseIpv6Flags) (origLen pos len : Nat) (ips : List Nat) :
    StateM St (Except ParseIpv6Err ParsedIpv6) := do
  let slash ← if len ≠ 0 then pure (decide ((← exportChr pos) = 0x2F)) else pure false
  let rest ← if slash ∧ fl.cidr then parseIpv6Cidr fl (pos + 1) (len - 1) else pure (.ok (128, len))
  match rest with
  | .error err => return .error err
  | .ok (cidr, len) => return .ok ⟨ips, cidr, sizeSub origLen len, len ≠ 0 ∧ fl.only⟩

/-- The flags of the split in `vstr_parse_ipv6`. -/
def ipv6SplitFlags : SplitFlags := ⟨false, false, true, false, false, true⟩

/-- The sections of an IPv6 address: a null one for a null field at the beginning, then what
the split gives. -/
def parseIpv6Sects (pos len : Nat) : StateM St (List Sect) := do
  let sects := Sects.decl 8
  let sects ← if ← cmpBufEq pos 2 [0x3A, 0x3A] then pure (← sectsAdd pos 0 sects).2 else pure sects
  match ← splitBuf pos len [0x3A] sects sects.sz ipv6SplitFlags with
  | none => return []
  | some (_, sects) => return sects.ptr

/-- `vstr_parse_ipv6`. -/
def parseIpv6 (fl : ParseIpv6Flags) (pos len : Nat) :
    StateM St (Except ParseIpv6Err ParsedIpv6) := do
  let zero := List.replicate 8 0
  if len < 2 then return .error .ipv6Full
  else
    let sects ← parseIpv6Sects pos len
    match ← parseIpv6Loop (ipNumFlags 16 fl.loc false) sects.length sects ⟨0, 0, 0, zero⟩ with
    | .error err => return .error err
    | .ok r =>
      let last := sects.getD (r.scan - 1) ⟨0, 0⟩
      let left := len - (last.pos - pos)
      if r.scan ≠ 8 then
        let r ← parseIpv6End fl.loc last r
        if r.scan ≠ 8 ∧ r.offNull = 0 then return .error .ipv6Full
        else
          parseIpv6Rest fl len (last.pos + r.numLen) (sizeSub left r.numLen) (ipv6Spread r)
      else parseIpv6Rest fl len (last.pos + r.numLen) (sizeSub left r.numLen) r.ips

end Vstr
