import Vstr.Model.Pos

/-!
# Parsing numbers and netstrings

`vstr_parse.c` and `vstr_parse_netstr.c`, over the reading functions of `vstr_spn.c` and
`vstr-inline.h`. Parsing changes nothing but the position cache. Characters are ASCII,
with or without the `LOCAL` flag.
-/

namespace Vstr

open Memory

/-- The byte at an address. -/
def Heap.byte (h : Heap) (p : Addr) : UInt8 := h.mem p.blk p.off

/-- `vstr_export_chr`; unknown bytes are zero. -/
def exportChr (pos : Nat) : StateM St UInt8 := fun s =>
  let r := s.pos pos true
  match exportNodePtr s.heap (r.2.base.node r.1.idx) with
  | none => (0, r.2)
  | some p => (s.heap.byte (p.add (r.1.pos - 1)), r.2)

/-- The loop of `vstr_spn_chrs_fwd`. -/
def spnLoop (h : Heap) (chrs : List UInt8) : List Iter → Nat
  | [] => 0
  | it :: its =>
    match it.ptr h with
    | none => 0
    | some p =>
      let count := ((read h.mem p it.len).takeWhile (· ∈ chrs)).length
      if count < it.len then count else it.len + spnLoop h chrs its

/-- `vstr_spn_chrs_fwd`: how many bytes from `pos` on are among `chrs`. -/
def spnChrsFwd (pos len : Nat) (chrs : List UInt8) : StateM St Nat := fun s =>
  match iterFwdBeg s pos len with
  | (none, s) => (0, s)
  | (some it, s) => (spnLoop s.heap chrs (iterAll s.base s.base.nodes.length it), s)

/-- `vstr_iter_fwd_chr`. -/
def iterFwdChr (s : St) (it : Iter) : UInt8 × Iter :=
  match (if it.len = 0 then iterFwdNxt s.base it else some it) with
  | none => (0, it)
  | some it =>
    let next := { it with off := it.off + 1, len := it.len - 1 }
    match it.ptr s.heap with
    | none => (0, next)
    | some p => (s.heap.byte p, next)

/-- `VSTR_TYPE_PARSE_NUM_ERR_*`. -/
inductive ParseNumErr where
  | none
  | onlyS
  | onlySpm
  | onlySpmx
  | oob
  | overflow
  | negative
  | begZero
  deriving DecidableEq, Repr

/-- The base and the `VSTR_FLAG_PARSE_NUM_*` of a call. -/
structure ParseNumFlags where
  /-- `flags & VSTR__MASK_PARSE_NUM_BASE`; zero asks for the base of the prefix. -/
  base : Nat
  /-- `LOCAL`. -/
  loc : Bool
  /-- `SEP`: an underscore may stand between digits. -/
  sep : Bool
  /-- `OVERFLOW`. -/
  overflow : Bool
  /-- `SPACE`: leading spaces are skipped. -/
  space : Bool
  /-- `NO_BEG_ZERO`. -/
  noBegZero : Bool
  /-- `NO_BEG_PM`. -/
  noBegPm : Bool
  /-- `NO_NEGATIVE`, which only the signed types look at. -/
  noNegative : Bool := false
  deriving DecidableEq, Repr

/-- What `vstr__parse_num_beg` leaves: an error, a number that is zero with the length
behind it, or the base and the rest of the slice. -/
inductive NumBeg where
  | bad (err : ParseNumErr)
  | zero (len : Nat) (err : ParseNumErr)
  | digits (numBase pos len : Nat) (isNeg isZeroed : Bool)
  deriving DecidableEq, Repr

/-- The sign: its length, and whether it is a minus; more than one is an error. -/
def parseNumSign (pos len : Nat) : StateM St (Option (Nat × Bool)) := do
  let tmp ← spnChrsFwd pos len [0x2D]
  if tmp > 1 then return none
  else if tmp = 0 then
    let tmp ← spnChrsFwd pos len [0x2B]
    if tmp > 1 then return none else return some (tmp, false)
  else return some (tmp, true)

/-- The end of `vstr__parse_num_beg`, after `tmp` zeros. -/
def parseNumZeros (fl : ParseNumFlags) (numBase pos len tmp : Nat) (isNeg isZeroed : Bool) :
    NumBeg :=
  if tmp ≠ 0 ∧ fl.noBegZero then
    .zero (len - 1) (if tmp ≠ 1 ∨ len ≠ 1 then .begZero else .none)
  else if tmp = len then .zero 0 .none
  else .digits numBase (pos + tmp) (len - tmp) isNeg isZeroed

/-- A letter of a prefix was found: the base it stands for when none was given. -/
def parseNumLetter (fl : ParseNumFlags) (base numBase pos len : Nat) (isNeg : Bool) :
    StateM St NumBeg := do
  let numBase := if fl.base = 0 then base else numBase
  if len - 1 = 0 then return .bad .onlySpmx
  else
    let tmp ← spnChrsFwd (pos + 1) (len - 1) [0x30]
    return parseNumZeros fl numBase (pos + 1) (len - 1) tmp isNeg true

/-- The part of `vstr__parse_num_beg` behind a single zero that may begin a prefix. -/
def parseNumPrefix (fl : ParseNumFlags) (numBase pos len : Nat) (isNeg : Bool) :
    StateM St NumBeg := do
  if len = 0 then return .zero 0 .none
  else
    let tmp ← spnChrsFwd pos len [0x78, 0x58]
    if tmp > 1 then return .zero len .oob
    else if tmp = 1 then parseNumLetter fl 16 numBase pos len isNeg
    else
      let tmp ← spnChrsFwd pos len [0x62, 0x42]
      if tmp > 1 then return .zero len .oob
      else if tmp = 1 then parseNumLetter fl 2 numBase pos len isNeg
      else return parseNumZeros fl (if fl.base = 0 then 8 else numBase) pos len 0 isNeg true

/-- The base that a call asks for; zero for the base of the prefix. -/
def ParseNumFlags.numBase (fl : ParseNumFlags) : Nat :=
  if fl.base = 0 then 0 else if fl.base > 36 then 36 else if fl.base = 1 then 2 else fl.base

/-- `vstr__parse_num_beg` behind the sign. -/
def parseNumDigits (fl : ParseNumFlags) (pos len : Nat) (isNeg : Bool) : StateM St NumBeg := do
  if len = 0 then return .bad .onlySpm
  else
    let tmp ← spnChrsFwd pos len [0x30]
    if tmp = 1 ∧ (fl.numBase = 0 ∨ fl.numBase = 16 ∨ fl.numBase = 2) then
      parseNumPrefix fl fl.numBase (pos + 1) (len - 1) isNeg
    else if tmp ≠ 0 ∧ fl.numBase = 0 then
      return parseNumZeros fl 8 pos len (tmp - 1) isNeg true
    else
      return parseNumZeros fl (if fl.numBase = 0 then 10 else fl.numBase) pos len tmp isNeg
        (tmp ≠ 0)

/-- `vstr__parse_num_beg` behind the spaces. -/
def parseNumSigned (fl : ParseNumFlags) (pos len : Nat) : StateM St NumBeg := do
  if fl.noBegPm then parseNumDigits fl pos len false
  else
    match ← parseNumSign pos len with
    | none => return .bad .oob
    | some (tmp, isNeg) => parseNumDigits fl (pos + tmp) (len - tmp) isNeg

/-- `vstr__parse_num_beg`. -/
def parseNumBeg (fl : ParseNumFlags) (pos len : Nat) : StateM St NumBeg := do
  if fl.space then
    let tmp ← spnChrsFwd pos len [0x20]
    if tmp ≥ len then return .bad .onlyS
    else parseNumSigned fl (pos + tmp) (len - tmp)
  else parseNumSigned fl pos len

/-- `local_let_low`. -/
def localLetLow : List UInt8 := (List.range' 0x61 26).map UInt8.ofNat

/-- `local_let_high`. -/
def localLetHigh : List UInt8 := (List.range' 0x41 26).map UInt8.ofNat

/-- The digit that a character is in a base, with `LOCAL`: letters are looked up among the
first ones. -/
def localDigit (numBase : Nat) (scan : UInt8) : Option Nat :=
  let c := scan.toNat
  let numEnd := if numBase ≤ 10 then 0x30 + numBase - 1 else 0x39
  if c ≥ 0x30 ∧ c ≤ numEnd then some (c - 0x30)
  else if numBase ≤ 10 then none
  else
    match (localLetLow.take (numBase - 10)).idxOf? scan with
    | some i => some (10 + i)
    | none =>
      match (localLetHigh.take (numBase - 10)).idxOf? scan with
      | some i => some (10 + i)
      | none => none

/-- The digit that a character is in a base, with the bounds of `VSTR__PARSE_NUM_ASCII`. -/
def asciiDigit (loc : Bool) (numBase : Nat) (scan : UInt8) : Option Nat :=
  if loc then localDigit numBase scan
  else
    let c := scan.toNat
    let numEnd := if numBase ≤ 10 then 0x30 + numBase - 1 else 0x39
    let lowEnd := if numBase > 10 then 0x61 + (numBase - 11) else 0x7A
    let highEnd := if numBase > 10 then 0x41 + (numBase - 11) else 0x5A
    if c < 0x30 ∨ c ≥ 0x80 then none
    else if c ≤ numEnd then some (c - 0x30)
    else if numBase ≤ 10 then none
    else if c ≥ 0x41 ∧ c ≤ highEnd then some (10 + (c - 0x41))
    else if c ≥ 0x61 ∧ c ≤ lowEnd then some (10 + (c - 0x61))
    else none

/-- A number parsed so far: its value, the length left, and the error. -/
structure NumLoop where
  /-- `ret`. -/
  ret : Nat
  /-- `len`. -/
  len : Nat
  /-- `*err`. -/
  err : ParseNumErr
  deriving DecidableEq, Repr

/-- `VSTR__PARSE_NUM_BIN_CALC_NUM` for a type of `w` bits: an overflow is noted, and the
value wraps. -/
def parseNumCalc (fl : ParseNumFlags) (w numBase add : Nat) (r : NumLoop) : NumLoop :=
  let ret := (r.ret * numBase + add) % 2 ^ w
  let old := (ret + 2 ^ max w 32 - add) % 2 ^ max w 32 / numBase
  ⟨ret, r.len - 1, if fl.overflow ∧ old ≠ r.ret then .overflow else r.err⟩

/-- The loop over the digits. -/
def parseNumLoop (fl : ParseNumFlags) (s : St) (w numBase : Nat) :
    Nat → Iter → Bool → NumLoop → NumLoop
  | 0, _, _, r => r
  | len + 1, it, doneOnce, r =>
    let c := iterFwdChr s it
    if doneOnce ∧ c.1 = 0x5F then
      if ¬ fl.sep then r
      else parseNumLoop fl s w numBase len c.2 doneOnce { r with len := r.len - 1 }
    else
      match asciiDigit fl.loc numBase c.1 with
      | none => r
      | some add => parseNumLoop fl s w numBase len c.2 true (parseNumCalc fl w numBase add r)

/-- What a number parser returns. -/
@[ext]
structure ParsedNum where
  /-- The number. -/
  num : Nat
  /-- `*ret_len`. -/
  len : Nat
  /-- `*err`. -/
  err : ParseNumErr
  deriving DecidableEq, Repr

/-- `VSTR__PARSE_NUM_UFUNC` for an unsigned type of `w` bits. -/
def parseNumUfunc (w : Nat) (fl : ParseNumFlags) (pos len : Nat) : StateM St ParsedNum := do
  match ← parseNumBeg fl pos len with
  | .bad err => return ⟨0, 0, err⟩
  | .zero left err => return ⟨0, len - left, err⟩
  | .digits numBase pos' len' isNeg isZeroed =>
    if isNeg then return ⟨0, 0, .negative⟩
    else fun s =>
      match iterFwdBeg s pos' len' with
      | (none, s) => (⟨0, len - len', .oob⟩, s)
      | (some it, s) =>
        let r := parseNumLoop fl s w numBase len' it isZeroed ⟨0, len', .none⟩
        (⟨r.ret, len - r.len, if r.len ≠ 0 ∧ r.err = .none then .oob else r.err⟩, s)

/-- `vstr_parse_ushort`. -/
def parseUshort : ParseNumFlags → Nat → Nat → StateM St ParsedNum := parseNumUfunc 16

/-- `vstr_parse_uint`. -/
def parseUint : ParseNumFlags → Nat → Nat → StateM St ParsedNum := parseNumUfunc 32

/-- `vstr_parse_ulong`. -/
def parseUlong : ParseNumFlags → Nat → Nat → StateM St ParsedNum := parseNumUfunc 64

/-- `vstr_parse_uintmax`. -/
def parseUintmax : ParseNumFlags → Nat → Nat → StateM St ParsedNum := parseNumUfunc 64

/-- What a parser of a signed number returns. -/
@[ext]
structure ParsedInt where
  /-- The number. -/
  num : Int
  /-- `*ret_len`. -/
  len : Nat
  /-- `*err`. -/
  err : ParseNumErr
  deriving DecidableEq, Repr

/-- The test `(ret - is_neg) > num_max`. The difference of a type that is narrower than an
`int` is an `int`, that of any other type wraps. -/
def parseNumOver (w : Nat) (isNeg : Bool) (ret : Nat) : Bool :=
  if w < 32 then (ret : Int) - isNeg.toNat > 2 ^ (w - 1) - 1
  else (ret + 2 ^ w - isNeg.toNat) % 2 ^ w > 2 ^ (w - 1) - 1

/-- `VSTR__PARSE_NUM_END_S` for a type of `w` bits, up to the label. -/
def parseNumEndS (fl : ParseNumFlags) (w : Nat) (isNeg : Bool) (r : NumLoop) : NumLoop :=
  let r := if fl.overflow ∧ parseNumOver w isNeg r.ret then
      { r with ret := 2 ^ (w - 1) - 1 + isNeg.toNat, err := .overflow }
    else r
  { r with err := if r.len ≠ 0 ∧ r.err = .none then .oob else r.err }

/-- The end of `VSTR__PARSE_NUM_END_S`: `-ret` or `ret`, as a signed number of `w` bits. -/
def signedNum (w : Nat) (isNeg : Bool) (ret : Nat) : Int :=
  Int.bmod (if isNeg then -(ret : Int) else ret) (2 ^ w)

/-- `VSTR__PARSE_NUM_SFUNC` for a signed type of `w` bits. -/
def parseNumSfunc (w : Nat) (fl : ParseNumFlags) (pos len : Nat) : StateM St ParsedInt := do
  match ← parseNumBeg fl pos len with
  | .bad err => return ⟨0, 0, err⟩
  | .zero left err => return ⟨0, len - left, err⟩
  | .digits numBase pos' len' isNeg isZeroed =>
    if isNeg ∧ fl.noNegative then return ⟨0, 0, .negative⟩
    else fun s =>
      match iterFwdBeg s pos' len' with
      | (none, s) => (⟨0, len - len', .oob⟩, s)
      | (some it, s) =>
        let r := parseNumEndS fl w isNeg
          (parseNumLoop fl s w numBase len' it isZeroed ⟨0, len', .none⟩)
        (⟨signedNum w isNeg r.ret, len - r.len, r.err⟩, s)

/-- `vstr_parse_short`. -/
def parseShort : ParseNumFlags → Nat → Nat → StateM St ParsedInt := parseNumSfunc 16

/-- `vstr_parse_int`. -/
def parseInt : ParseNumFlags → Nat → Nat → StateM St ParsedInt := parseNumSfunc 32

/-- `vstr_parse_long`. -/
def parseLong : ParseNumFlags → Nat → Nat → StateM St ParsedInt := parseNumSfunc 64

/-- `vstr_parse_intmax`. -/
def parseIntmax : ParseNumFlags → Nat → Nat → StateM St ParsedInt := parseNumSfunc 64

/-- What `vstr_parse_netstr` returns. -/
structure ParsedNetstr where
  /-- The length of the netstring, or zero. -/
  len : Nat
  /-- `*ret_pos`. -/
  pos : Nat
  /-- `*ret_data_len`. -/
  dataLen : Nat
  deriving DecidableEq, Repr

/-- The flags of `vstr__parse_netstr`. -/
def netstrFlags (netstr2 : Bool) : ParseNumFlags where
  base := 10
  loc := false
  sep := false
  overflow := true
  space := false
  noBegZero := !netstr2
  noBegPm := false

/-- `vstr__parse_netstr`. -/
def parseNetstrAny (netstr2 : Bool) (pos len : Nat) : StateM St ParsedNetstr := do
  let num ← parseUlong (netstrFlags netstr2) pos len
  if num.len = 0 then return ⟨0, 0, 0⟩
  else if num.len = len then return ⟨0, 0, 0⟩
  else
    let colon ← exportChr (pos + num.len)
    if colon ≠ 0x3A then return ⟨0, 0, 0⟩
    else
      let retPos := pos + num.len + 1
      let retLen := (num.num + (num.len + 2)) % 2 ^ 64
      if retLen > len then return ⟨0, retPos, num.num⟩
      else
        let comma ← exportChr (pos - 1 + retLen)
        if comma ≠ 0x2C then return ⟨0, retPos, num.num⟩
        else return ⟨retLen, retPos, num.num⟩

/-- `vstr_parse_netstr2`. -/
def parseNetstr2 : Nat → Nat → StateM St ParsedNetstr := parseNetstrAny true

/-- `vstr_parse_netstr`. -/
def parseNetstr : Nat → Nat → StateM St ParsedNetstr := parseNetstrAny false

end Vstr
