import Mathlib.Data.Nat.Digits.Lemmas
import Vstr.Fmt.Layout

/-!
# Integer conversions of C99

What the standard says of an integer conversion, and what `vstr_add_fmt` adds for it. The two
agree as long as the numbers in the format fit: field widths and precisions are kept in 32
bits, and a sign that is not written is counted in the field width before it is counted off.
-/

namespace Vstr.Fmt

/-! ## The standard -/

/-- The characters of the digits. -/
def c99Chrs (large : Bool) : List UInt8 :=
  [0x30, 0x31, 0x32, 0x33, 0x34, 0x35, 0x36, 0x37, 0x38, 0x39] ++
    if large then [0x41, 0x42, 0x43, 0x44, 0x45, 0x46] else [0x61, 0x62, 0x63, 0x64, 0x65, 0x66]

/-- A number in a base; no digits for zero. -/
def c99Numeral (large : Bool) (base n : Nat) : List UInt8 :=
  (Nat.digits base n).reverse.map fun d => (c99Chrs large).getD d 0

/-- A field width that is given. -/
def Amount.width : Amount Leading Int → Nat
  | none => 0
  | lit n => digitsNum n.digits
  | star t => t.natAbs

/-- A negative field width is the flag `-` and a field width. -/
def Amount.isLeft : Amount Leading Int → Bool
  | star t => t < 0
  | _ => false

/-- A precision that is given; a negative one is none. -/
def Amount.prec : Amount (List (Fin 10)) Int → Option Nat
  | none => .none
  | lit ds => some (digitsNum ds)
  | star t => if t < 0 then .none else some t.toNat

/-- The value of the argument in the type that is printed. -/
def Directive.value (d : Directive Int) : Int :=
  if d.conv.signed then signedArg d.intType.width d.main else d.main % 2 ^ d.intType.width

/-- The field width and the precision as arguments of type `int`. -/
def Directive.ints (d : Directive Int) : Directive Int := d.map (signedArg 32)

/-- Whether the number is at the left of its field. -/
def Directive.isLeft (d : Directive Int) : Bool := .left ∈ d.flags || d.ints.width.isLeft

/-- The sign. -/
def Directive.c99Sign (d : Directive Int) : List UInt8 :=
  if d.conv.signed then
    if d.value < 0 then [0x2D]
    else if .plus ∈ d.flags then [0x2B]
    else if .space ∈ d.flags then [0x20] else []
  else []

/-- The prefix. -/
def Directive.c99Prefix (d : Directive Int) : List UInt8 :=
  if .special ∈ d.flags ∧ d.value ≠ 0 then
    match d.conv with
    | .hex => [0x30, 0x78]
    | .hexLarge => [0x30, 0x58]
    | _ => []
  else []

/-- The digits, at least so many; an octal number with `#` begins with a zero. -/
def Directive.c99Digits (d : Directive Int) (least : Nat) : List UInt8 :=
  let num := c99Numeral (d.conv = .hexLarge) d.conv.base d.value.natAbs
  let ds := List.replicate (least - num.length) 0x30 ++ num
  if .special ∈ d.flags ∧ d.conv = .oct ∧ ds.head? ≠ some 0x30 then 0x30 :: ds else ds

/-- The text of a conversion with a field width and a precision. -/
def Directive.textWith (d : Directive Int) (width : Nat) (prec : Option Nat) : List UInt8 :=
  field width d.isLeft (.zeropad ∈ d.flags && prec.isNone) d.c99Sign d.c99Prefix
    (d.c99Digits (prec.getD 1))

/-- The text of a conversion. -/
def Directive.c99 (d : Directive Int) : List UInt8 :=
  d.textWith d.ints.width.width d.ints.prec.prec

/-- The text of a format. -/
def Format.c99 (F : Format Int) : List UInt8 := F.withTexts (F.convs.map fun c => c.1.c99)

/-! ## The code -/

variable {α : Type} {d : Directive Int}

/-- A field width as it is kept. -/
def Amount.keptWidth : Amount Leading Int → Nat
  | none => 0
  | lit n => digitsInt n.digits
  | star t => t.natAbs

/-- A precision as it is kept. -/
def Amount.keptPrec : Amount (List (Fin 10)) Int → Option Nat
  | none => .none
  | lit ds => some (digitsInt ds)
  | star t => if t < 0 then .none else some t.toNat

/-- The spec of a conversion with its field width and precision. -/
theorem layout_spec (d : Directive Int) :
    d.layout = { (d.map fun _ => 0).spec with
      left := .left ∈ d.flags || d.width.isLeft
      fieldWidth := d.width.keptWidth
      precUsr := d.prec.keptPrec.isSome
      precision := d.prec.keptPrec.getD 0 } := by
  obtain ⟨main, flags, width, prec, intType, conv⟩ := d
  have hw : ∀ (spec : FmtSpec) (t : Int), setWidth spec t = { spec with
      left := spec.left || t < 0
      fieldWidth := t.natAbs
      fieldWidthParam := 0 } := fun spec t => by
    unfold setWidth
    by_cases h : t < 0
    · rw [if_pos h, decide_eq_true h, Bool.or_true, show (-t).toNat = t.natAbs by omega]
    · rw [if_neg h, decide_eq_false h, Bool.or_false, show t.toNat = t.natAbs by omega]
  have hp : ∀ (spec : FmtSpec) (t : Int), spec.precUsr = true → spec.precision = 0 →
      setPrecision spec t = { spec with
      precUsr := (if t < 0 then none else some t.toNat : Option Nat).isSome
      precision := (if t < 0 then none else some t.toNat : Option Nat).getD 0
      precisionParam := 0 } := fun spec t h1 h2 => by
    unfold setPrecision
    by_cases h : t < 0
    · rw [if_pos h, if_pos h]
      dsimp only [Option.isSome_none, Option.getD_none]
      rw [← h2]
    · rw [if_neg h, if_neg h]
      dsimp only [Option.isSome_some, Option.getD_some]
      rw [← h1]
  unfold Directive.layout
  cases width <;> cases prec <;> simp [hw, hp, Directive.spec, Directive.map, Amount.map,
    Amount.isLeft, Amount.keptWidth, Amount.keptPrec] <;> rfl

/-- The spec of a conversion with its field width and precision, and a number. -/
def Directive.specWith (d : Directive Int) (data : Nat) (zero neg : Bool) (ty : IntType) :
    FmtSpec :=
  { (d.map fun _ => 0).spec with
    data := data
    numIsZero := zero
    numIsNegative := neg
    intType := ty
    left := .left ∈ d.flags || d.width.isLeft
    fieldWidth := d.width.keptWidth
    precUsr := d.prec.keptPrec.isSome
    precision := d.prec.keptPrec.getD 0 }

/-- A number that is looked at. -/
theorem setMain_none (d : Directive Int) (v : Int) :
    setMain d.layout none v = d.specWith (argData d.layout v) (argData d.layout v = 0)
      (argNeg d.layout v) (if d.intType = .ptrdiffT then .uintmaxT else d.intType) := by
  have h : ∀ n neg, { d.layout with
      data := n
      numIsZero := n = 0
      numIsNegative := d.layout.numIsNegative || neg
      intType := if d.layout.intType = .ptrdiffT then IntType.uintmaxT else d.layout.intType
      mainParam := 0 } = d.specWith n (n = 0) neg
        (if d.intType = .ptrdiffT then .uintmaxT else d.intType) := fun n neg => by
    rw [layout_spec d]
    rfl
  exact h _ _

/-- The conversion prints a signed number, or its type is not `ptrdiff_t`. -/
def Directive.Standard (d : Directive α) : Prop := d.intType = .ptrdiffT → d.conv.signed = true

/-- The value of an argument. -/
theorem argData_value (h : d.Standard) {spec : FmtSpec} (ht : spec.intType = d.intType)
    (hs : spec.sign = d.conv.signed) :
    argData spec d.main = d.value.natAbs ∧ argNeg spec d.main = decide (d.value < 0) := by
  have hsig : spec.isSigned ↔ d.conv.signed = true := by
    unfold FmtSpec.isSigned
    rw [ht, hs]
    exact or_iff_left_of_imp h
  unfold argData argNeg Directive.value
  rw [ht]
  by_cases hc : d.conv.signed = true
  · rw [if_pos (hsig.mpr hc), if_pos hc, decide_eq_true (hsig.mpr hc), Bool.true_and]
    exact ⟨rfl, rfl⟩
  · have h0 : 0 ≤ d.main % 2 ^ d.intType.width :=
      Int.emod_nonneg _ (Int.ne_of_gt (Int.pow_pos (by decide)))
    rw [if_neg (fun hc' => hc (hsig.mp hc')), if_neg hc,
      decide_eq_false (fun hc' => hc (hsig.mp hc')), Bool.false_and,
      decide_eq_false (Int.not_lt.mpr h0)]
    exact ⟨by omega, rfl⟩

/-- The value fits its type. -/
theorem value_lt (d : Directive Int) : d.value.natAbs < 2 ^ d.intType.width := by
  unfold Directive.value
  split
  · have h := signedArg_bounds d.intType.width d.main
    zify
    rw [abs_lt]
    omega
  · have hm : (0 : Int) < 2 ^ d.intType.width := Int.pow_pos (by decide)
    have h0 := Int.emod_nonneg d.main (Int.ne_of_gt hm)
    have h1 := Int.emod_lt_of_pos d.main hm
    zify
    rw [abs_lt]
    omega

/-- The spec of a conversion with its arguments. -/
theorem printed_spec (h : d.Standard) :
    d.printed = d.ints.specWith d.value.natAbs (d.value.natAbs = 0) (d.value < 0)
      (if d.intType = .ptrdiffT then .uintmaxT else d.intType) := by
  have hl := layout_spec d.ints
  obtain ⟨h1, h2⟩ := @argData_value _ h d.ints.layout (by rw [hl]; rfl) (by rw [hl]; rfl)
  unfold Directive.printed
  rw [show d.map (signedArg 32) = d.ints from rfl, setMain_none, h1, h2]
  rfl

theorem c99Chrs_chrsBase (large : Bool) {k : Nat} (hk : k < 16) :
    (c99Chrs large).getD k 0 = chrsBase large k := by
  have h : ∀ large, ∀ k : Fin 16, (c99Chrs large).getD k.val 0 = chrsBase large k.val := by decide
  exact h large ⟨k, hk⟩

/-- `VSTR__ADD_FMT_NUM` writes the number. -/
theorem addFmtNum_numeral (large : Bool) (conv : Conv) (n : Nat) :
    addFmtNum large conv.base n = c99Numeral large conv.base n := by
  have hb : 1 < conv.base ∧ conv.base ≤ 16 := by
    cases conv <;> decide
  unfold addFmtNum c99Numeral
  refine List.map_congr_left fun k hk => (c99Chrs_chrsBase large ?_).symm
  have := Nat.digits_lt_base hb.1 (List.mem_reverse.mp hk)
  omega

/-- The sign is the one of the standard. -/
theorem printed_sign (h : d.Standard) : (fmtSign d.printed).toList = d.c99Sign := by
  rw [printed_spec h]
  unfold fmtSign Directive.c99Sign
  change (if d.conv.signed = true then _ else none : Option UInt8).toList = _
  by_cases hs : d.conv.signed = true
  · rw [if_pos hs, if_pos hs]
    change (if decide (d.value < 0) = true then some 0x2D else
      if decide (Flag.plus ∈ d.flags) = true
      then some 0x2B else if decide (Flag.space ∈ d.flags) = true then some 0x20
      else none : Option UInt8).toList = _
    simp only [decide_eq_true_eq]
    split
    · rfl
    · split
      · rfl
      · split <;> rfl
  · rw [if_neg hs, if_neg hs]
    rfl

/-- The prefix is the one of the standard. -/
theorem printed_prefix (h : d.Standard) : fmtPrefix d.printed = d.c99Prefix := by
  have hx : chrsBase false 33 = 0x78 ∧ chrsBase true 33 = 0x58 := by decide
  rw [printed_spec h]
  unfold fmtPrefix fmtHex Directive.c99Prefix
  change (if (decide (Flag.special ∈ d.flags) && decide (d.conv.base = 16) &&
    !decide (d.value.natAbs = 0)) = true then [0x30, chrsBase (decide (d.conv = .hexLarge)) 33]
    else []) = _
  by_cases hf : Flag.special ∈ d.flags ∧ d.value ≠ 0
  · rw [if_pos hf]
    cases hc : d.conv <;> simp [hf.1, hf.2, Conv.base, hx]
  · rw [if_neg hf, if_neg]
    simp only [Bool.and_eq_true, decide_eq_true_eq, Bool.not_eq_true', decide_eq_false_iff_not,
      Int.natAbs_eq_zero]
    exact fun hc => hf ⟨hc.1.1, hc.2⟩

/-- A number does not begin with a zero. -/
theorem c99Numeral_head (n : Nat) : (c99Numeral false 8 n).head? ≠ some 0x30 := by
  have hchr : ∀ k : Fin 8, (c99Chrs false).getD k.val 0 = 0x30 → k.val = 0 := by decide
  unfold c99Numeral
  intro hhead
  by_cases hn : n = 0
  · subst hn
    simp at hhead
  · have hne : Nat.digits 8 n ≠ [] := Nat.digits_ne_nil_iff_ne_zero.mpr hn
    rw [List.head?_map, List.head?_reverse, List.getLast?_eq_getLast_of_ne_nil hne,
      Option.map_some] at hhead
    have hlt := Nat.digits_lt_base (show 1 < 8 by decide) (List.getLast_mem hne)
    exact Nat.getLast_digit_ne_zero 8 hn (hchr ⟨_, hlt⟩ (Option.some.inj hhead))

/-- The member of `u` that is printed. -/
theorem printed_member (h : d.Standard) : fmtMember d.printed = d.value.natAbs := by
  have hlt := value_lt d
  rw [printed_spec h]
  unfold fmtMember
  change (if (if d.intType = .ptrdiffT then IntType.uintmaxT else d.intType) = .ptrdiffT then 0
    else d.value.natAbs % 2 ^ (if d.intType = .ptrdiffT then IntType.uintmaxT
      else d.intType).width) = _
  by_cases ht : d.intType = .ptrdiffT
  · rw [if_pos ht, if_neg (by decide)]
    rw [ht] at hlt
    exact Nat.mod_eq_of_lt hlt
  · rw [if_neg ht, if_neg ht]
    exact Nat.mod_eq_of_lt hlt

/-- The digits are those of the standard for the precision that is kept. -/
theorem printed_digits (h : d.Standard) :
    fmtDigits d.printed = d.c99Digits (d.ints.prec.keptPrec.getD 1) := by
  have hprec : (if d.printed.precUsr then d.printed.precision else 1) =
      d.ints.prec.keptPrec.getD 1 := by
    rw [printed_spec h]
    change (if d.ints.prec.keptPrec.isSome = true then d.ints.prec.keptPrec.getD 0 else 1) = _
    cases d.ints.prec.keptPrec <;> rfl
  have hzero : d.printed.numIsZero = decide (d.value.natAbs = 0) := by
    rw [printed_spec h]
    rfl
  have hspecial : d.printed.special = decide (Flag.special ∈ d.flags) := by
    rw [printed_spec h]
    rfl
  have hbase : d.printed.numBase = d.conv.base := by
    rw [printed_spec h]
    rfl
  have hnum : addFmtNum d.printed.large d.printed.numBase (fmtMember d.printed) =
      c99Numeral (d.conv = .hexLarge) d.conv.base d.value.natAbs := by
    rw [printed_member h, hbase, ← addFmtNum_numeral, printed_spec h]
    rfl
  unfold fmtDigits Directive.c99Digits fmtLeast
  dsimp only
  rw [hnum, hprec, hspecial, hbase]
  generalize hk : d.ints.prec.keptPrec.getD 1 = prec
  by_cases hoct : Flag.special ∈ d.flags ∧ d.conv = .oct
  · obtain ⟨hs, hc⟩ := hoct
    have hhex : fmtHex d.printed = false := by
      unfold fmtHex
      rw [hbase, hc]
      simp [Conv.base]
    have hhead := c99Numeral_head d.value.natAbs
    rw [hhex, hc]
    generalize hn : c99Numeral (decide (Conv.oct = .hexLarge)) Conv.oct.base d.value.natAbs = num
    rw [show c99Numeral false 8 d.value.natAbs = num from hn] at hhead
    by_cases hle : prec ≤ num.length
    · rw [if_pos ⟨decide_eq_true hs, by simp, rfl, .inr hle⟩, Nat.sub_eq_zero_of_le hle,
        List.replicate_zero, List.nil_append, if_pos ⟨hs, rfl, hhead⟩, Nat.add_sub_cancel_left]
      rfl
    · obtain ⟨k, hk⟩ : ∃ k, prec - num.length = k + 1 := ⟨prec - num.length - 1, by omega⟩
      rw [if_neg (fun hcond => by omega), hk, if_neg]
      rintro ⟨-, -, hne⟩
      exact hne rfl
  · have hcond : ¬ (decide (Flag.special ∈ d.flags) = true ∧ ¬ fmtHex d.printed = true ∧
        d.conv.base = 8 ∧ (d.printed.numIsZero = true ∧ prec = 0 ∨ prec ≤
          (c99Numeral (d.conv = .hexLarge) d.conv.base d.value.natAbs).length)) := by
      rintro ⟨h1, -, h2, -⟩
      refine hoct ⟨of_decide_eq_true h1, ?_⟩
      revert h2
      cases d.conv <;> decide
    rw [if_neg hcond, if_neg (fun hc => hoct ⟨hc.1, hc.2.1⟩)]

/-- The field width that counts in the code. -/
def Directive.keptFieldWidth (d : Directive Int) : Nat :=
  if d.conv.signed ∧ d.c99Sign = [] then (d.ints.width.keptWidth + 1) % 2 ^ 32 - 1
  else d.ints.width.keptWidth

/-- **The text of a conversion in the code.** -/
theorem added_eq (h : d.Standard) :
    d.added = d.textWith d.keptFieldWidth d.ints.prec.keptPrec := by
  have hwidth : (if d.printed.fieldWidthUsr then d.printed.fieldWidth else 0) =
      d.ints.width.keptWidth := by
    rw [printed_spec h]
    obtain ⟨main, flags, width, prec, intType, conv⟩ := d
    cases width <;> rfl
  have hsign : (d.printed.sign = true ∧ fmtSign d.printed = none) ↔
      (d.conv.signed = true ∧ d.c99Sign = []) := by
    rw [← printed_sign h, Option.toList_eq_nil_iff]
    rw [show d.printed.sign = d.conv.signed by rw [printed_spec h]; rfl]
  have hfw : fmtFieldWidth d.printed = d.keptFieldWidth := by
    unfold fmtFieldWidth Directive.keptFieldWidth
    dsimp only
    rw [hwidth]
    exact if_congr hsign rfl rfl
  have hzero : (d.printed.zeropad && !d.printed.precUsr) =
      (decide (Flag.zeropad ∈ d.flags) && d.ints.prec.keptPrec.isNone) := by
    rw [printed_spec h, ← Option.not_isSome]
    rfl
  have hleft : d.printed.left = d.isLeft := by
    rw [printed_spec h]
    rfl
  unfold Directive.added FmtItem.text
  dsimp only
  rw [addFmtNumber_text, hfw, hzero, hleft, printed_sign h, printed_prefix h, printed_digits h]
  rfl

/-! ## Where they agree -/

/-- The length of a number without field width. -/
def Directive.natural (d : Directive Int) : Nat :=
  d.c99Sign.length + d.c99Prefix.length + (d.c99Digits (d.ints.prec.prec.getD 1)).length

/-- The precision fits its type, and the field width, where it has an effect; the largest one
is too large for a sign that is not written. -/
structure Directive.Fits (d : Directive Int) : Prop where
  /-- The precision. -/
  prec : ∀ p ∈ d.ints.prec.prec, p < 2 ^ 32
  /-- The field width. -/
  width : d.natural < d.ints.width.width → d.ints.width.width < 2 ^ 32 ∧
    (d.conv.signed = true → d.c99Sign = [] → d.ints.width.width ≠ 2 ^ 32 - 1)

/-- The number in the digits of the conversion. -/
def Directive.numeral (d : Directive Int) : List UInt8 :=
  c99Numeral (d.conv = .hexLarge) d.conv.base d.value.natAbs

/-- The number of digits. -/
theorem length_c99Digits (d : Directive Int) (least : Nat) :
    (d.c99Digits least).length =
      max least (d.numeral.length + if .special ∈ d.flags ∧ d.conv = .oct then 1 else 0) := by
  unfold Directive.c99Digits
  dsimp only
  rw [show c99Numeral (d.conv = .hexLarge) d.conv.base d.value.natAbs = d.numeral from rfl]
  have hlen : (List.replicate (least - d.numeral.length) (0x30 : UInt8) ++ d.numeral).length =
      max least d.numeral.length := by
    rw [List.length_append, List.length_replicate]
    omega
  by_cases hoct : Flag.special ∈ d.flags ∧ d.conv = .oct
  · rw [if_pos hoct]
    by_cases hle : least ≤ d.numeral.length
    · have hhead := c99Numeral_head d.value.natAbs
      rw [show c99Numeral false 8 d.value.natAbs = d.numeral by
        unfold Directive.numeral; rw [hoct.2]; rfl] at hhead
      rw [Nat.sub_eq_zero_of_le hle, List.replicate_zero, List.nil_append,
        if_pos ⟨hoct.1, hoct.2, hhead⟩, List.length_cons]
      omega
    · obtain ⟨k, hk⟩ : ∃ k, least - d.numeral.length = k + 1 :=
        ⟨least - d.numeral.length - 1, by omega⟩
      rw [if_neg, hlen]
      · omega
      · rw [hk]
        rintro ⟨-, -, hne⟩
        exact hne rfl
  · rw [if_neg hoct, if_neg (fun hc => hoct ⟨hc.1, hc.2.1⟩), hlen]
    omega

/-- A number has not many digits. -/
theorem length_numeral_le (d : Directive Int) : d.numeral.length ≤ 64 := by
  have hb : 1 < d.conv.base ∧ d.conv.base ≤ 16 := by
    cases d.conv <;> decide
  have hw : d.intType.width ≤ 64 := by
    cases d.intType <;> decide
  have hv : d.value.natAbs < 2 ^ 64 :=
    Nat.lt_of_lt_of_le (value_lt d) (Nat.pow_le_pow_right (by decide) hw)
  unfold Directive.numeral c99Numeral
  rw [List.length_map, List.length_reverse, Nat.digits_length_le_iff hb.1]
  exact Nat.lt_of_lt_of_le hv (Nat.pow_le_pow_left hb.1 64)

/-- There are no spaces among the digits. -/
theorem countP_c99Digits (d : Directive Int) (least : Nat) :
    (d.c99Digits least).countP (· ≠ 0x20) = (d.c99Digits least).length := by
  have hchr : ∀ large, ∀ k : Fin 16, (c99Chrs large).getD k.val 0 ≠ 0x20 := by decide
  have hb : 1 < d.conv.base ∧ d.conv.base ≤ 16 := by
    cases d.conv <;> decide
  have hnum : ∀ c ∈ d.numeral, c ≠ 0x20 := by
    intro c hc
    obtain ⟨k, hk, rfl⟩ := List.mem_map.mp hc
    have := Nat.digits_lt_base hb.1 (List.mem_reverse.mp hk)
    exact hchr _ ⟨k, by omega⟩
  have hds : ∀ c ∈ List.replicate (least - d.numeral.length) (0x30 : UInt8) ++ d.numeral,
      c ≠ 0x20 := by
    intro c hc
    rcases List.mem_append.mp hc with hc | hc
    · rw [List.eq_of_mem_replicate hc]
      decide
    · exact hnum c hc
  rw [List.countP_eq_length]
  intro c hc
  refine decide_eq_true ?_
  unfold Directive.c99Digits at hc
  dsimp only at hc
  split at hc
  · rcases List.mem_cons.mp hc with rfl | hc
    · decide
    · exact hds c hc
  · exact hds c hc

/-- Numbers that fit are kept. -/
theorem digitsInt_eq {ds : List (Fin 10)} (h : digitsNum ds < 2 ^ 32) :
    digitsInt ds = digitsNum ds := by
  unfold digitsInt
  rw [Nat.min_eq_left (by omega), Nat.mod_eq_of_lt h]

theorem digitsInt_le (ds : List (Fin 10)) :
    digitsInt ds ≤ digitsNum ds ∧ digitsInt ds < 2 ^ 32 := by
  unfold digitsInt
  refine ⟨?_, Nat.mod_lt _ (by decide)⟩
  have := Nat.mod_le (min (digitsNum ds) (2 ^ 63 - 1)) (2 ^ 32)
  omega

/-- What is kept of a field width. -/
theorem keptWidth_le (w : Amount Leading Int) : w.keptWidth ≤ w.width ∧
    (w.width < 2 ^ 32 → w.keptWidth = w.width) := by
  cases w with
  | none => exact ⟨Nat.le_refl _, fun _ => rfl⟩
  | lit n => exact ⟨(digitsInt_le n.digits).1, digitsInt_eq⟩
  | star t => exact ⟨Nat.le_refl _, fun _ => rfl⟩

/-- An `int` is below its bound. -/
theorem keptWidth_lt (d : Directive Int) : d.ints.width.keptWidth < 2 ^ 32 := by
  obtain ⟨main, flags, width, prec, intType, conv⟩ := d
  cases width with
  | none => exact Nat.two_pow_pos 32
  | lit n => exact (digitsInt_le n.digits).2
  | star t =>
    have h := signedArg_bounds 32 t
    change (signedArg 32 t).natAbs < 2 ^ 32
    omega

/-- What is kept of a precision. -/
theorem keptPrec_le (p : Amount (List (Fin 10)) Int) :
    p.keptPrec.isNone = p.prec.isNone ∧ p.keptPrec.getD 1 ≤ p.prec.getD 1 ∧
      ((∀ n ∈ p.prec, n < 2 ^ 32) → p.keptPrec = p.prec) := by
  cases p with
  | none => exact ⟨rfl, Nat.le_refl _, fun _ => rfl⟩
  | lit ds =>
    exact ⟨rfl, (digitsInt_le ds).1, fun h => congrArg some (digitsInt_eq (h _ rfl))⟩
  | star t => exact ⟨rfl, Nat.le_refl _, fun _ => rfl⟩

/-- The field width in the code is not larger. -/
theorem keptFieldWidth_le (d : Directive Int) : d.keptFieldWidth ≤ d.ints.width.width ∧
    d.keptFieldWidth < 2 ^ 32 := by
  have h1 := (keptWidth_le d.ints.width).1
  have h2 := keptWidth_lt d
  unfold Directive.keptFieldWidth
  split
  · have := Nat.mod_le (d.ints.width.keptWidth + 1) (2 ^ 32)
    omega
  · omega

/-- Where the field width in the code is the one that is given. -/
theorem keptFieldWidth_eq_iff (d : Directive Int) (hpos : 0 < d.ints.width.width) :
    d.keptFieldWidth = d.ints.width.width ↔ d.ints.width.width < 2 ^ 32 ∧
      (d.conv.signed = true → d.c99Sign = [] → d.ints.width.width ≠ 2 ^ 32 - 1) := by
  have h1 := keptWidth_le d.ints.width
  have h2 := keptFieldWidth_le d
  constructor
  · intro h
    refine ⟨by omega, fun hs hc he => ?_⟩
    unfold Directive.keptFieldWidth at h
    rw [if_pos ⟨hs, hc⟩, h1.2 (by omega), he] at h
    omega
  · rintro ⟨hlt, hne⟩
    unfold Directive.keptFieldWidth
    rw [h1.2 hlt]
    by_cases hs : d.conv.signed = true ∧ d.c99Sign = []
    · have := hne hs.1 hs.2
      rw [if_pos hs, Nat.mod_eq_of_lt (by omega)]
      omega
    · rw [if_neg hs]

/-- The length of a text. -/
theorem length_textWith (d : Directive Int) (width : Nat) (prec : Option Nat) :
    (d.textWith width prec).length = max width
      (d.c99Sign.length + d.c99Prefix.length + (d.c99Digits (prec.getD 1)).length) :=
  length_field _ _ _ _ _ _

/-- The code does not add more than the standard asks for. -/
theorem length_added_le (h : d.Standard) : d.added.length ≤ d.c99.length := by
  rw [added_eq h, Directive.c99, length_textWith, length_textWith, length_c99Digits,
    length_c99Digits]
  have h1 := (keptFieldWidth_le d).1
  have h2 := (keptPrec_le d.ints.prec).2.1
  omega

/-- An `int` is below its bound. -/
theorem keptPrec_lt (d : Directive Int) : d.ints.prec.keptPrec.getD 1 < 2 ^ 32 := by
  obtain ⟨main, flags, width, prec, intType, conv⟩ := d
  cases prec with
  | none => exact Nat.one_lt_two_pow (by decide)
  | lit ds => exact (digitsInt_le ds).2
  | star t =>
    have h := signedArg_bounds 32 t
    change (if signedArg 32 t < 0 then none else some (signedArg 32 t).toNat).getD 1 < 2 ^ 32
    split
    · exact Nat.one_lt_two_pow (by decide)
    · rw [Option.getD_some]
      omega

/-- The characters that are not spaces, when a precision is given. -/
theorem countP_textWith (d : Directive Int) (width : Nat) {prec : Option Nat}
    (h : prec.isNone = false) :
    (d.textWith width prec).countP (· ≠ 0x20) = d.c99Sign.countP (· ≠ 0x20) +
      d.c99Prefix.countP (· ≠ 0x20) + (d.c99Digits (prec.getD 1)).length := by
  unfold Directive.textWith
  rw [h, Bool.and_false, countP_field _ rfl, countP_c99Digits]

/-- **A conversion.** The code follows the standard where the numbers fit. -/
theorem added_iff (h : d.Standard) : d.added = d.c99 ↔ d.Fits := by
  obtain ⟨hnone, hle, hkept⟩ := keptPrec_le d.ints.prec
  have hfw := keptFieldWidth_le d
  rw [added_eq h, Directive.c99]
  constructor
  · intro e
    have hprec : ∀ p ∈ d.ints.prec.prec, p < 2 ^ 32 := by
      intro p hp
      have hsome : d.ints.prec.prec.isNone = false := by
        rw [Option.mem_def.mp hp]
        rfl
      have hc := congrArg (List.countP (· ≠ 0x20)) e
      rw [countP_textWith d _ (hnone.trans hsome), countP_textWith d _ hsome, length_c99Digits,
        length_c99Digits, Option.mem_def.mp hp, Option.getD_some] at hc
      have h1 := keptPrec_lt d
      have h2 := length_numeral_le d
      have h3 : (if Flag.special ∈ d.flags ∧ d.conv = .oct then 1 else 0) ≤ 1 := by
        split <;> omega
      omega
    refine ⟨hprec, fun hlt => (keptFieldWidth_eq_iff d (by omega)).mp ?_⟩
    have hlen := congrArg List.length e
    rw [hkept hprec, length_textWith, length_textWith] at hlen
    unfold Directive.natural at hlt
    omega
  · intro hf
    rw [hkept hf.prec]
    by_cases hlt : d.natural < d.ints.width.width
    · rw [(keptFieldWidth_eq_iff d (by omega)).mpr (hf.width hlt)]
    · have hw : d.ints.width.width ≤ d.c99Sign.length + d.c99Prefix.length +
          (d.c99Digits (d.ints.prec.prec.getD 1)).length := Nat.not_lt.mp hlt
      unfold Directive.textWith
      rw [field_of_le hw, field_of_le (Nat.le_trans hfw.1 hw)]

/-! ## Formats -/

theorem length_flatMap_le {γ : Type} {cs : List γ} {f g : γ → List UInt8}
    (hle : ∀ c ∈ cs, (f c).length ≤ (g c).length) :
    (cs.flatMap f).length ≤ (cs.flatMap g).length := by
  induction cs with
  | nil => exact Nat.le_refl _
  | cons c cs ih =>
    rw [List.flatMap_cons, List.flatMap_cons, List.length_append, List.length_append]
    exact Nat.add_le_add (hle c List.mem_cons_self)
      (ih fun c' hc' => hle c' (List.mem_cons_of_mem c hc'))

/-- Texts none of which is longer than its counterpart are equal one by one, if they are equal
altogether. -/
theorem eq_of_flatMap_eq {γ : Type} {cs : List γ} {f g : γ → List UInt8}
    (hle : ∀ c ∈ cs, (f c).length ≤ (g c).length) (h : cs.flatMap f = cs.flatMap g) :
    ∀ c ∈ cs, f c = g c := by
  induction cs with
  | nil => exact fun c hc => absurd hc List.not_mem_nil
  | cons c cs ih =>
    have hc := hle c List.mem_cons_self
    have hcs := fun c' hc' => hle c' (List.mem_cons_of_mem c hc')
    have hsum := length_flatMap_le hcs
    rw [List.flatMap_cons, List.flatMap_cons] at h
    have hlen := congrArg List.length h
    rw [List.length_append, List.length_append] at hlen
    obtain ⟨h1, h2⟩ := List.append_inj h (by omega)
    intro c' hc'
    rcases List.mem_cons.mp hc' with rfl | hc'
    · exact h1
    · exact ih hcs h2 c' hc'

/-- The text of a format whose conversions have texts of their own. -/
theorem withTexts_map (F : Format Int) (f : Directive Int → List UInt8) :
    F.withTexts (F.convs.map fun c => f c.1) =
      F.head ++ F.convs.flatMap fun c => f c.1 ++ c.2 := by
  unfold Format.withTexts
  rw [List.zipWith_map, List.zipWith_self, List.flatMap_def]

/-- The conversions of a format have the same texts, if none is longer in the first. -/
theorem eq_of_withTexts_eq (F : Format Int) {f g : Directive Int → List UInt8}
    (hle : ∀ c ∈ F.convs, (f c.1).length ≤ (g c.1).length)
    (h : F.withTexts (F.convs.map fun c => f c.1) = F.withTexts (F.convs.map fun c => g c.1)) :
    ∀ c ∈ F.convs, f c.1 = g c.1 := by
  rw [withTexts_map, withTexts_map] at h
  intro c hc
  refine List.append_cancel_right (eq_of_flatMap_eq (fun c hc => ?_) (List.append_cancel_left h)
    c hc)
  rw [List.length_append, List.length_append]
  exact Nat.add_le_add_right (hle c hc) _

/-- **Integer conversions follow C99** where the numbers in the format fit. -/
theorem conversions_iff (F : Format Int) (h : ∀ c ∈ F.convs, c.1.Standard) :
    addFmt F.next.text F.args = some F.c99 ↔ ∀ c ∈ F.convs, c.1.Fits := by
  rw [addFmt_next, Option.some.injEq]
  constructor
  · intro e c hc
    refine (added_iff (h c hc)).mp ?_
    exact eq_of_withTexts_eq F (fun c hc => length_added_le (h c hc)) e c hc
  · intro hf
    refine congrArg F.withTexts (List.map_congr_left fun c hc => ?_)
    exact (added_iff (h c hc)).mpr (hf c hc)

/-- `%+*.3d` of -6 and -5. -/
def sampleDec : Directive Int where
  main := -5
  flags := [.plus]
  width := .star (-6)
  prec := .lit [3]
  intType := .uint
  conv := .dec

/-- `%#hhx` of 255. -/
def sampleHex : Directive Int where
  main := 255
  flags := [.special]
  width := .none
  prec := .none
  intType := .uchar
  conv := .hex

/-- `%+*.3d|%#hhx` of -6, -5 and 255. -/
theorem conversions_sample :
    addFmt (Format.next ⟨[], [(sampleDec, [0x7C]), (sampleHex, [])]⟩).text [-6, -5, 255] =
      some (Format.c99 ⟨[], [(sampleDec, [0x7C]), (sampleHex, [])]⟩) := by
  refine (conversions_iff ⟨[], [(sampleDec, [0x7C]), (sampleHex, [])]⟩ fun c hc => ?_).mpr
    fun c hc => ?_
  · simp only [List.mem_cons, List.not_mem_nil, or_false] at hc
    rcases hc with rfl | rfl
    · exact fun h => by cases h
    · exact fun h => by cases h
  · have hw : (sampleDec, [0x7C]).1.ints.width.width < 2 ^ 32 - 1 := by decide +kernel
    simp only [List.mem_cons, List.not_mem_nil, or_false] at hc
    rcases hc with rfl | rfl
    · refine ⟨fun p hp => ?_, fun _ => ⟨by omega, fun _ _ => by omega⟩⟩
      obtain rfl : 3 = p := Option.some.inj hp
      decide
    · refine ⟨fun p hp => ?_, fun h => absurd h (Nat.not_lt_zero _)⟩
      cases hp

/-- The field width 4294967297. -/
def wideWidth : Leading := ⟨[4, 2, 9, 4, 9, 6, 7, 2, 9, 7], 4, _, rfl, by decide⟩

/-- `%4294967297d` of 3. -/
def wideDec : Directive Int where
  main := 3
  flags := []
  width := .lit wideWidth
  prec := .none
  intType := .uint
  conv := .dec

theorem wideDec_standard : wideDec.Standard := fun h => by cases h

theorem wideDec_texts : wideDec.added = [0x33] ∧ wideDec.c99.length = 4294967297 := by
  obtain ⟨hv, hsign, hpre, hkept⟩ : wideDec.value = 3 ∧ wideDec.c99Sign = [] ∧
      wideDec.c99Prefix = [] ∧ wideDec.keptFieldWidth = 1 := by decide +kernel
  have hnum : wideDec.c99Digits 1 = [0x33] := by
    unfold Directive.c99Digits
    rw [hv]
    simp [wideDec, c99Numeral, Conv.base, c99Chrs]
  refine ⟨?_, ?_⟩
  · rw [added_eq wideDec_standard, hkept]
    unfold Directive.textWith
    rw [hsign, hpre, show wideDec.ints.prec.keptPrec.getD 1 = 1 from rfl, hnum]
    exact field_of_le (Nat.le_refl 1) _ _
  · have hw : wideDec.ints.width.width = 4294967297 := by decide
    rw [Directive.c99, length_textWith, hsign, hpre, hw,
      show wideDec.ints.prec.prec.getD 1 = 1 from rfl, hnum]
    rfl

/-- A field width that does not fit is lost. -/
theorem conversions_width_lost :
    addFmt [0x25, 0x34, 0x32, 0x39, 0x34, 0x39, 0x36, 0x37, 0x32, 0x39, 0x37, 0x64] [3] =
      some [0x33] ∧
    ¬ ∀ F : Format Int, (∀ c ∈ F.convs, c.1.Standard) →
      addFmt F.next.text F.args = some F.c99 := by
  have ht : (Format.next ⟨[], [(wideDec, [])]⟩).text =
    [0x25, 0x34, 0x32, 0x39, 0x34, 0x39, 0x36, 0x37, 0x32, 0x39, 0x37, 0x64] := by decide
  have h := addFmt_next ⟨[], [(wideDec, [])]⟩
  have hadd : Format.added ⟨[], [(wideDec, [])]⟩ = [0x33] := by
    simp [Format.added, Format.withTexts, wideDec_texts.1]
  rw [ht, hadd] at h
  refine ⟨h, fun hall => ?_⟩
  have hc := hall ⟨[], [(wideDec, [])]⟩ fun c hc => by
    obtain rfl := List.mem_singleton.mp hc
    exact wideDec_standard
  rw [ht, h, Option.some.injEq] at hc
  have hlen := congrArg List.length hc
  have hc99 : Format.c99 ⟨[], [(wideDec, [])]⟩ = wideDec.c99 := by
    simp [Format.c99, Format.withTexts]
  rw [hc99, wideDec_texts.2] at hlen
  exact absurd hlen (by decide)

end Vstr.Fmt
