import Vstr.Lib.Numeral
import Vstr.Model.FmtSpec

/-!
# Formats as they are written

A format is text, and conversions whose arguments are the next ones or are named by number.
Every conversion has a spec, with a number for each of its arguments.
-/

namespace Vstr.Fmt

/-! ## Conversions -/

/-- A flag. -/
inductive Flag where
  | left
  | plus
  | space
  | special
  | zeropad
  deriving DecidableEq, Repr

/-- The character of a flag. -/
def Flag.chr : Flag → UInt8
  | left => 0x2D
  | plus => 0x2B
  | space => 0x20
  | special => 0x23
  | zeropad => 0x30

/-- The length modifier of a type. -/
def IntType.text : IntType → List UInt8
  | uchar => [0x68, 0x68]
  | ushort => [0x68]
  | uint => []
  | ulong => [0x6C]
  | ulongLong => [0x6C, 0x6C]
  | sizeT => [0x7A]
  | uintmaxT => [0x6A]
  | ptrdiffT => [0x74]

/-- A conversion. -/
inductive Conv where
  /-- `d`. -/
  | dec
  /-- `i`. -/
  | int
  /-- `u`. -/
  | udec
  /-- `x`. -/
  | hex
  /-- `X`. -/
  | hexLarge
  /-- `o`. -/
  | oct
  deriving DecidableEq, Repr

/-- The character of a conversion. -/
def Conv.chr : Conv → UInt8
  | dec => 0x64
  | int => 0x69
  | udec => 0x75
  | hex => 0x78
  | hexLarge => 0x58
  | oct => 0x6F

/-- The conversions of signed numbers. -/
def Conv.signed : Conv → Bool
  | dec | int => true
  | _ => false

/-- The base of the digits. -/
def Conv.base : Conv → Nat
  | dec | int | udec => 10
  | hex | hexLarge => 16
  | oct => 8

/-- The text of digits. -/
def digitsText (ds : List (Fin 10)) : List UInt8 := ds.map fun d => (0x30 + d.val).toUInt8

/-- The number of digits. -/
def digitsNum (ds : List (Fin 10)) : Nat := Numeral.value 10 (ds.map Fin.val)

/-- The number as it is stored. -/
def digitsInt (ds : List (Fin 10)) : Nat := min (digitsNum ds) (2 ^ 63 - 1) % 2 ^ 32

/-- A number that does not begin with a zero. -/
structure Leading where
  /-- The digits. -/
  digits : List (Fin 10)
  /-- The first one. -/
  lead : ∃ d ds, digits = d :: ds ∧ d ≠ 0

/-- The number of an argument. -/
structure Param extends Leading where
  /-- It is an `int`. -/
  fits : digitsNum digits < 2 ^ 31

/-- A field width or a precision: none, a number, or an argument. -/
inductive Amount (δ α : Type) where
  | none
  | lit (digits : δ)
  | star (arg : α)

/-- A conversion of a format: where its arguments come from, and how it is written. -/
structure Directive (α : Type) where
  /-- The argument that is printed. -/
  main : α
  /-- The flags. -/
  flags : List Flag
  /-- The field width. -/
  width : Amount Leading α
  /-- The precision. -/
  prec : Amount (List (Fin 10)) α
  /-- The type of the argument. -/
  intType : IntType
  /-- The conversion. -/
  conv : Conv

variable {α β δ : Type}

/-- Other arguments. -/
def Amount.map (f : α → β) : Amount δ α → Amount δ β
  | none => .none
  | lit digits => .lit digits
  | star arg => .star (f arg)

/-- Other arguments. -/
def Directive.map (f : α → β) (d : Directive α) : Directive β where
  main := f d.main
  flags := d.flags
  width := d.width.map f
  prec := d.prec.map f
  intType := d.intType
  conv := d.conv

/-! ## Text -/

/-- The name of an argument: none for the next one. -/
def nameText : Option Param → List UInt8
  | none => []
  | some p => digitsText p.digits ++ [0x24]

/-- The text of a field width. -/
def widthText : Amount Leading (Option Param) → List UInt8
  | .none => []
  | .lit n => digitsText n.digits
  | .star p => 0x2A :: nameText p

/-- The text of a precision. -/
def precText : Amount (List (Fin 10)) (Option Param) → List UInt8
  | .none => []
  | .lit ds => 0x2E :: digitsText ds
  | .star p => 0x2E :: 0x2A :: nameText p

/-- The type and the conversion. -/
def Directive.code (d : Directive α) : List UInt8 := d.intType.text ++ [d.conv.chr]

/-- The text of a conversion, behind the `%`. -/
def Directive.text (d : Directive (Option Param)) : List UInt8 :=
  nameText d.main ++ d.flags.map Flag.chr ++ widthText d.width ++ precText d.prec ++ d.code

/-- Text in a format: `%` is doubled. -/
def escape (t : List UInt8) : List UInt8 :=
  t.flatMap fun c => if c = 0x25 then [0x25, 0x25] else [c]

/-- A format: text, and conversions with text behind each. -/
structure Format (α : Type) where
  /-- The text at the beginning. -/
  head : List UInt8
  /-- The conversions. -/
  convs : List (Directive α × List UInt8)

/-- Other arguments. -/
def Format.map (f : α → β) (F : Format α) : Format β :=
  ⟨F.head, F.convs.map fun c => (c.1.map f, c.2)⟩

/-- The text of a format. -/
def Format.text (F : Format (Option Param)) : List UInt8 :=
  escape F.head ++ F.convs.flatMap fun c => 0x25 :: c.1.text ++ escape c.2

/-! ## Numbers of arguments -/

/-- The number of an argument: a named one has its own, and the others are counted. -/
def numberArg (params : Nat) : Option Param → Nat × Nat
  | none => (params + 1, params + 1)
  | some p => (digitsNum p.digits, params)

/-- The numbers of the arguments of a field width or a precision. -/
def Amount.number (params : Nat) : Amount δ (Option Param) → Amount δ Nat × Nat
  | none => (.none, params)
  | lit digits => (.lit digits, params)
  | star p => (.star (numberArg params p).1, (numberArg params p).2)

/-- The numbers of the arguments of a conversion. -/
def Directive.number (params : Nat) (d : Directive (Option Param)) : Directive Nat × Nat :=
  let w := d.width.number params
  let p := d.prec.number w.2
  let m := numberArg p.2 d.main
  ({ main := m.1, flags := d.flags, width := w.1, prec := p.1, intType := d.intType,
     conv := d.conv }, m.2)

/-- The numbers of the arguments of conversions. -/
def numberConvs : Nat → List (Directive (Option Param) × List UInt8) →
    List (Directive Nat × List UInt8)
  | _, [] => []
  | params, c :: cs => ((c.1.number params).1, c.2) :: numberConvs (c.1.number params).2 cs

/-- The spec of a conversion. -/
def Directive.spec (d : Directive Nat) : FmtSpec where
  data := 0
  fmtCode := d.conv.chr
  numBase := d.conv.base
  intType := d.intType
  zeropad := .zeropad ∈ d.flags
  sign := d.conv.signed
  plus := .plus ∈ d.flags
  space := .space ∈ d.flags
  left := .left ∈ d.flags
  special := .special ∈ d.flags
  large := d.conv = .hexLarge
  precUsr := match d.prec with
    | .none => false
    | _ => true
  numIsZero := false
  numIsNegative := false
  fieldWidth := match d.width with
    | .lit n => digitsInt n.digits
    | _ => 0
  precision := match d.prec with
    | .lit ds => digitsInt ds
    | _ => 0
  fieldWidthUsr := match d.width with
    | .none => false
    | _ => true
  mainParam := d.main
  fieldWidthParam := match d.width with
    | .star p => p
    | _ => 0
  precisionParam := match d.prec with
    | .star p => p
    | _ => 0

end Vstr.Fmt
