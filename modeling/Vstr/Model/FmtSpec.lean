import Vstr.Model.FmtNum

/-!
# Formats

How `vstr_add_fmt` reads a format of text and integer conversions, and where the specs get
their arguments from: `vstr__add_fmt_spec`, `vstr__add_vfmt` and `vstr__fmt_fillin_spec`. Other
conversions, and the formats of users, are left out, and allocations are granted.
-/

namespace Vstr.Fmt

/-! ## Reading a spec -/

/-- `VSTR__ADD_FMT_ISDIGIT`. -/
def fmtIsdigit (c : UInt8) : Bool := 0x30 ≤ c && c ≤ 0x39

/-- The number at the beginning, of any size. -/
def fmtNumeral (fmt : List UInt8) : Nat :=
  (fmt.takeWhile fmtIsdigit).foldl (fun n c => n * 10 + (c.toNat - 0x30)) 0

/-- `VSTR__ADD_FMT_STRTOL` stored in an `int`, as the `unsigned int` it is read as, and what is
behind the number. -/
def fmtStrtol (fmt : List UInt8) : Nat × List UInt8 :=
  (min (fmtNumeral fmt) (2 ^ 63 - 1) % 2 ^ 32, fmt.dropWhile fmtIsdigit)

/-- The flags of `vstr__add_fmt_spec`; the flags for separators and digits of the locale have
no effect. -/
def fmtFlags (spec : FmtSpec) : List UInt8 → FmtSpec × List UInt8
  | [] => (spec, [])
  | c :: fmt =>
    if c = 0x2D then fmtFlags { spec with left := true } fmt
    else if c = 0x2B then fmtFlags { spec with plus := true } fmt
    else if c = 0x20 then fmtFlags { spec with space := true } fmt
    else if c = 0x23 then fmtFlags { spec with special := true } fmt
    else if c = 0x30 then fmtFlags { spec with zeropad := true } fmt
    else if c = 0x27 ∨ c = 0x49 then fmtFlags spec fmt
    else (spec, c :: fmt)

/-- A `*`, behind which a parameter may be named: the parameter, what is behind it, and the
count of parameters that are not named. -/
def fmtStar (fmt : List UInt8) (params : Nat) : Nat × List UInt8 × Nat :=
  match fmt.dropWhile fmtIsdigit with
  | 0x24 :: fmt' => ((fmtStrtol fmt).1, fmt', params)
  | _ => (params + 1, fmt, params + 1)

/-- A spec that is being read: the spec, the rest of the format, and the count of parameters
that are not named. -/
structure FmtRead where
  /-- `spec`. -/
  spec : FmtSpec
  /-- `fmt`. -/
  fmt : List UInt8
  /-- `params`. -/
  params : Nat

/-- The field width of `vstr__add_fmt_spec`. -/
def fmtWidth (r : FmtRead) : FmtRead :=
  match r.fmt with
  | 0x2A :: fmt =>
    let p := fmtStar fmt r.params
    ⟨{ r.spec with fieldWidthUsr := true, fieldWidthParam := p.1 }, p.2.1, p.2.2⟩
  | fmt =>
    if fmt.head?.any fmtIsdigit then
      ⟨{ r.spec with fieldWidthUsr := true, fieldWidth := (fmtStrtol fmt).1 }, (fmtStrtol fmt).2,
        r.params⟩
    else r

/-- The precision of `vstr__add_fmt_spec`. -/
def fmtPrecision (r : FmtRead) : FmtRead :=
  match r.fmt with
  | 0x2E :: 0x2A :: fmt =>
    let p := fmtStar fmt r.params
    ⟨{ r.spec with precUsr := true, precisionParam := p.1 }, p.2.1, p.2.2⟩
  | 0x2E :: fmt =>
    ⟨{ r.spec with precUsr := true, precision := (fmtStrtol fmt).1 }, (fmtStrtol fmt).2, r.params⟩
  | _ => r

/-- `vstr__add_fmt_spec`, and whether a parameter is named. A number at the beginning is the
field width if it does not name a parameter, and then there are no flags. -/
def addFmtSpec (fmt : List UInt8) (params : Nat) (dollars : Bool) : FmtRead × Bool :=
  if fmt.head?.any (fun c => fmtIsdigit c && c ≠ 0x30) then
    match (fmtStrtol fmt).2 with
    | 0x24 :: fmt' =>
      let r := fmtFlags { fmtInitSpec with mainParam := (fmtStrtol fmt).1 } fmt'
      (fmtPrecision (fmtWidth ⟨r.1, r.2, params⟩), true)
    | _ => (fmtPrecision (fmtWidth ⟨fmtInitSpec, fmt, params⟩), dollars)
  else
    let r := fmtFlags fmtInitSpec fmt
    (fmtPrecision (fmtWidth ⟨r.1, r.2, params⟩), dollars)

/-- The width of the type. -/
def fmtIntType (spec : FmtSpec) : List UInt8 → FmtSpec × List UInt8
  | 0x68 :: 0x68 :: fmt => ({ spec with intType := .uchar }, fmt)
  | 0x68 :: fmt => ({ spec with intType := .ushort }, fmt)
  | 0x6C :: 0x6C :: fmt => ({ spec with intType := .ulongLong }, fmt)
  | 0x6C :: fmt => ({ spec with intType := .ulong }, fmt)
  | 0x4C :: fmt => ({ spec with intType := .ulongLong }, fmt)
  | 0x7A :: fmt => ({ spec with intType := .sizeT }, fmt)
  | 0x74 :: fmt => ({ spec with intType := .ptrdiffT }, fmt)
  | 0x6A :: fmt => ({ spec with intType := .uintmaxT }, fmt)
  | fmt => (spec, fmt)

/-- The conversion, for the integer ones. -/
def fmtCode (spec : FmtSpec) (c : UInt8) : Option FmtSpec :=
  if c = 0x64 ∨ c = 0x69 then some { spec with fmtCode := c, sign := true }
  else if c = 0x75 then some { spec with fmtCode := c }
  else if c = 0x58 then some { spec with fmtCode := c, large := true, numBase := 16 }
  else if c = 0x78 then some { spec with fmtCode := c, numBase := 16 }
  else if c = 0x6F then some { spec with fmtCode := c, numBase := 8 }
  else none

/-- The end of `vstr__fmt_mv_spec`: a parameter that is not named is the next one. -/
def fmtMvSpec (r : FmtRead) : FmtRead :=
  if r.spec.mainParam = 0 then { r with
    spec := { r.spec with mainParam := r.params + 1 }
    params := r.params + 1 }
  else r

/-! ## Reading a format -/

/-- A spec on the list of `vstr__add_vfmt`. -/
inductive FmtItem where
  /-- `s`, for the text between escapes. -/
  | str (text : List UInt8)
  /-- `c`, for an escape that is doubled. -/
  | chr (chr : UInt8)
  /-- An integer conversion. -/
  | num (spec : FmtSpec)
  deriving DecidableEq, Repr

/-- The loop of `vstr__add_vfmt`: the specs, and whether a parameter is named. The fuel bounds
the length of the format. -/
def addVfmtItems : Nat → List UInt8 → Nat → Bool → Option (List FmtItem × Bool)
  | 0, _, _, _ => none
  | _, [], _, dollars => some ([], dollars)
  | fuel + 1, 0x25 :: 0x25 :: fmt, params, dollars =>
    (addVfmtItems fuel fmt params dollars).map fun r => (.chr 0x25 :: r.1, r.2)
  | fuel + 1, 0x25 :: fmt, params, dollars =>
    let p := addFmtSpec fmt params dollars
    let q := fmtIntType p.1.spec p.1.fmt
    match q.2 with
    | [] => none
    | c :: fmt =>
      match fmtCode q.1 c with
      | none => none
      | some spec =>
        let m := fmtMvSpec ⟨spec, fmt, p.1.params⟩
        (addVfmtItems fuel m.fmt m.params p.2).map fun r => (.num m.spec :: r.1, r.2)
  | fuel + 1, fmt, params, dollars =>
    (addVfmtItems fuel (fmt.dropWhile (· ≠ 0x25)) params dollars).map fun r =>
      (.str (fmt.takeWhile (· ≠ 0x25)) :: r.1, r.2)

/-! ## Arguments -/

/-- The field width of `vstr__fmt_fillin_spec` from the `int` in `u`. -/
def fillWidth (spec : FmtSpec) (u : Nat) : FmtSpec :=
  let tmp := Int.bmod u (2 ^ 32)
  if tmp < 0 then { spec with left := true, fieldWidth := (-tmp).toNat, fieldWidthParam := 0 }
  else { spec with fieldWidth := tmp.toNat, fieldWidthParam := 0 }

/-- The precision of `vstr__fmt_fillin_spec` from the `int` in `u`. -/
def fillPrecision (spec : FmtSpec) (u : Nat) : FmtSpec :=
  let tmp := Int.bmod u (2 ^ 32)
  if tmp < 0 then { spec with precUsr := false, precisionParam := 0 }
  else { spec with precision := tmp.toNat, precisionParam := 0 }

/-- The arguments that are left, and `u` when this round has taken one: its value. -/
structure FmtArgs where
  /-- `u`. -/
  u : Option Nat
  /-- `ap`. -/
  args : List Int

/-- `va_arg` of an `int`, unless this round has taken an argument. -/
def FmtArgs.int (a : FmtArgs) : Nat × FmtArgs :=
  match a.u with
  | some u => (u, a)
  | none =>
    let u := (a.args.headD 0 % 2 ^ 32).toNat
    (u, ⟨some u, a.args.tail⟩)

/-- The number of a spec: it is looked at when it is taken, and only copied later. -/
def fillMain (spec : FmtSpec) (a : FmtArgs) : FmtSpec × FmtArgs :=
  match a.u with
  | some u => ({ spec with data := u, mainParam := 0 }, a)
  | none =>
    let spec := fmtArgNum spec (a.args.headD 0)
    ({ spec with mainParam := 0 }, ⟨some spec.data, a.args.tail⟩)

/-- What one spec takes in the round of `vstr__fmt_fillin_spec` for the parameter `count`, and
whether the round ends here. -/
def fillSpec (count : Nat) (dollars : Bool) (spec : FmtSpec) (a : FmtArgs) :
    FmtSpec × FmtArgs × Bool :=
  let w := if count = spec.fieldWidthParam then (fillWidth spec a.int.1, a.int.2) else (spec, a)
  if count = spec.fieldWidthParam ∧ ¬ dollars then (w.1, w.2, true)
  else
    let p := if count = spec.precisionParam then (fillPrecision w.1 w.2.int.1, w.2.int.2) else w
    if count = spec.precisionParam ∧ ¬ dollars then (p.1, p.2, true)
    else if count = spec.mainParam then
      let m := fillMain p.1 p.2
      (m.1, m.2, !dollars)
    else (p.1, p.2, false)

/-- A round of `vstr__fmt_fillin_spec`. -/
def fillRound (count : Nat) (dollars : Bool) : List FmtItem → FmtArgs → List FmtItem × FmtArgs
  | [], a => ([], a)
  | .num spec :: items, a =>
    let r := fillSpec count dollars spec a
    if r.2.2 then (.num r.1 :: items, r.2.1)
    else
      let q := fillRound count dollars items r.2.1
      (.num r.1 :: q.1, q.2)
  | item :: items, a =>
    let q := fillRound count dollars items a
    (item :: q.1, q.2)

/-- A spec has all its arguments. -/
def FmtItem.filled : FmtItem → Bool
  | .num spec => spec.fieldWidthParam = 0 && spec.precisionParam = 0 && spec.mainParam = 0
  | _ => true

/-- `vstr__fmt_fillin_spec`: the specs with their arguments, or none when a parameter that is not
the last one is not used. The fuel bounds the number of parameters. -/
def fillinSpec (dollars : Bool) : Nat → Nat → List FmtItem → List Int → Option (List FmtItem)
  | 0, _, _, _ => none
  | fuel + 1, count, items, args =>
    if items.all FmtItem.filled then some items
    else
      let r := fillRound count dollars items ⟨none, args⟩
      match r.2.u with
      | none => none
      | some _ => fillinSpec dollars fuel (count + 1) r.1 r.2.args

/-! ## A call -/

/-- The text of a spec. -/
def FmtItem.text : FmtItem → List UInt8
  | .str text => text
  | .chr c => [c]
  | .num spec => (addFmtNumber spec).flatMap FmtPiece.text

/-- The texts that `vstr_add_fmt` adds, one for each spec. -/
def addFmtTexts (fmt : List UInt8) (args : List Int) : Option (List (List UInt8)) :=
  match addVfmtItems (fmt.length + 1) fmt 0 false with
  | none => none
  | some (items, dollars) =>
    (fillinSpec dollars (3 * items.length + 1) 1 items args).map (·.map FmtItem.text)

/-- The text that `vstr_add_fmt` adds. -/
def addFmt (fmt : List UInt8) (args : List Int) : Option (List UInt8) :=
  (addFmtTexts fmt args).map List.flatten

/-- The text of a format that is one integer conversion, given behind the `%`, with its
argument. -/
def addFmtInt (fmt : List UInt8) (arg : Int) : List UInt8 := (addFmt (0x25 :: fmt) [arg]).getD []

end Vstr.Fmt
