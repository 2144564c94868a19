import Mathlib.Data.Nat.Digits.Defs

/-!
# Formatting integers

The integer conversions of `vstr_add_fmt`, from the argument to the pieces that
`vstr__add_fmt_number` adds one after the other, and `vstr_sc_conv_num_*`. The locale has no
separator.
-/

namespace Vstr.Fmt

/-- `int_type`: the type of the argument. -/
inductive IntType where
  | uchar
  | ushort
  | uint
  | ulong
  | ulongLong
  | sizeT
  | uintmaxT
  | ptrdiffT
  deriving DecidableEq, Repr

/-- The bits of a type. -/
def IntType.width : IntType → Nat
  | uchar => 8
  | ushort => 16
  | uint => 32
  | ulong | ulongLong | sizeT | uintmaxT | ptrdiffT => 64

/-- A `Vstr__fmt_spec` of an integer. -/
structure FmtSpec where
  /-- The number: `u`. -/
  data : Nat
  /-- `fmt_code`. -/
  fmtCode : UInt8
  /-- `num_base`. -/
  numBase : Nat
  /-- `int_type`. -/
  intType : IntType
  /-- `ZEROPAD`. -/
  zeropad : Bool
  /-- `SIGN`. -/
  sign : Bool
  /-- `PLUS`. -/
  plus : Bool
  /-- `SPACE`. -/
  space : Bool
  /-- `LEFT`. -/
  left : Bool
  /-- `SPECIAL`. -/
  special : Bool
  /-- `LARGE`. -/
  large : Bool
  /-- `PREC_USR`. -/
  precUsr : Bool
  /-- `NUM_IS_ZERO`. -/
  numIsZero : Bool
  /-- `NUM_IS_NEGATIVE`. -/
  numIsNegative : Bool
  /-- `field_width`. -/
  fieldWidth : Nat
  /-- `precision`. -/
  precision : Nat
  /-- `field_width_usr`. -/
  fieldWidthUsr : Bool
  /-- `main_param`. -/
  mainParam : Nat
  /-- `field_width_param`. -/
  fieldWidthParam : Nat
  /-- `precision_param`. -/
  precisionParam : Nat
  deriving DecidableEq, Repr

/-- `vstr__fmt_init_spec`. -/
def fmtInitSpec : FmtSpec where
  data := 0
  fmtCode := 0
  numBase := 10
  intType := .uint
  zeropad := false
  sign := false
  plus := false
  space := false
  left := false
  special := false
  large := false
  precUsr := false
  numIsZero := false
  numIsNegative := false
  fieldWidth := 0
  precision := 0
  fieldWidthUsr := false
  mainParam := 0
  fieldWidthParam := 0
  precisionParam := 0

/-! ## The argument -/

/-- `VSTR__FMT_ABS_NUM` into an unsigned type of `w` bits. -/
def fmtAbsNum (spec : FmtSpec) (w : Nat) (snum : Int) : FmtSpec :=
  if snum < 0 then { spec with numIsNegative := true, data := (-(snum % 2 ^ w) % 2 ^ w).toNat }
  else { spec with data := (snum % 2 ^ w).toNat }

/-- The argument of `vstr__fmt_fillin_spec`: `VSTR__FMT_ARG_NUM`. -/
def fmtArgNum (spec : FmtSpec) (arg : Int) : FmtSpec :=
  let w := spec.intType.width
  let spec :=
    if spec.sign ∨ spec.intType = .ptrdiffT then fmtAbsNum spec w (Int.bmod arg (2 ^ w))
    else { spec with data := (arg % 2 ^ w).toNat }
  { spec with
    numIsZero := spec.data = 0
    intType := if spec.intType = .ptrdiffT then .uintmaxT else spec.intType }

/-! ## The number -/

/-- `chrs_base`: the character of a digit. -/
def chrsBase (large : Bool) (d : Nat) : UInt8 :=
  if d < 10 then (0x30 + d).toUInt8
  else if large then (0x41 + (d - 10)).toUInt8 else (0x61 + (d - 10)).toUInt8

/-- `VSTR__ADD_FMT_NUM`: the digits; none for zero. -/
def addFmtNum (large : Bool) (numBase num : Nat) : List UInt8 :=
  (Nat.digits numBase num).reverse.map (chrsBase large)

/-- A call that adds a piece of the text. -/
inductive FmtPiece where
  /-- `VSTR__FMT_ADD_REP_CHR`. -/
  | repChr (chr : UInt8) (len : Nat)
  /-- `VSTR__FMT_ADD`. -/
  | buf (text : List UInt8)
  deriving DecidableEq, Repr

/-- The text of a piece. -/
def FmtPiece.text : FmtPiece → List UInt8
  | repChr chr len => List.replicate len chr
  | buf text => text

/-- The sign of `vstr__add_fmt_number`. -/
def fmtSign (spec : FmtSpec) : Option UInt8 :=
  if spec.sign then
    if spec.numIsNegative then some 0x2D
    else if spec.plus then some 0x2B
    else if spec.space then some 0x20 else none
  else none

/-- The field width of `vstr__add_fmt_number` without the sign; for a sign that is not written
it is incremented first, in an `unsigned int`. -/
def fmtSignWidth (spec : FmtSpec) : Nat :=
  let fieldWidth := if spec.fieldWidthUsr then spec.fieldWidth else 0
  if spec.sign then
    (if (fmtSign spec).isNone then (fieldWidth + 1) % 2 ^ 32 else fieldWidth) - 1
  else fieldWidth

/-- The member of `u` that is printed. There is none for a `ptrdiff_t`, which has become an
`uintmax_t` when its argument was taken. -/
def fmtMember (spec : FmtSpec) : Nat :=
  if spec.intType = .ptrdiffT then 0 else spec.data % 2 ^ spec.intType.width

/-- `vstr__add_fmt_number`: the pieces that are added, one after the other. -/
def addFmtNumber (spec : FmtSpec) : List FmtPiece :=
  let precision := if spec.precUsr then spec.precision else 1
  let zeropad := spec.zeropad && !spec.precUsr && !spec.left
  let fieldWidth := fmtSignWidth spec
  let buf := addFmtNum spec.large spec.numBase (fmtMember spec)
  let i := buf.length
  let wrHex0x : Bool := spec.special && spec.numBase = 16 && !spec.numIsZero
  let fieldWidth := if wrHex0x then fieldWidth - 1 - 1 else fieldWidth
  let precision :=
    if spec.special ∧ ¬ wrHex0x ∧ spec.numBase = 8 ∧
        ((spec.numIsZero ∧ precision = 0) ∨ precision ≤ i) then i + 1
    else precision
  let fieldWidth := fieldWidth - max i precision
  (if ¬ zeropad ∧ ¬ spec.left ∧ fieldWidth > 0 then [.repChr 0x20 fieldWidth] else []) ++
    (match fmtSign spec with
      | some sign => [.repChr sign 1]
      | none => []) ++
    (if wrHex0x then [.repChr 0x30 1, .repChr (chrsBase spec.large 33) 1] else []) ++
    (if zeropad ∧ ¬ spec.left ∧ fieldWidth > 0 then [.repChr 0x30 fieldWidth] else []) ++
    (if precision > i then [.repChr 0x30 (precision - i)] else []) ++
    (if i ≠ 0 then [.buf buf] else []) ++
    (if spec.left ∧ fieldWidth > 0 then [.repChr 0x20 fieldWidth] else [])

/-- `VSTR__SC_CONV_NUM` with the digits in lower case: what is returned, and the text in
`out`, which has room for `len` characters. -/
def scConvNum (len val numBase : Nat) : Nat × List UInt8 :=
  if numBase < 2 then (0, [])
  else if len < 2 then (0, [])
  else if val = 0 then (1, [chrsBase false 0])
  else
    let buf := addFmtNum false numBase val
    if len ≤ buf.length then (0, []) else (buf.length, buf)

end Vstr.Fmt
