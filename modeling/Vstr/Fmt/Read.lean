import Vstr.Fmt.Directive
import Vstr.Model.FmtSpec

/-!
# Reading a format

Reading the text of a format gives the specs of its conversions: the numbers are read up to
their ends, the parts of a conversion in their order, and the conversions one after the other.
-/

namespace Vstr.Fmt

/-! ## Numbers -/

variable {α : Type} {params : Nat} {dollars : Bool} {spec : FmtSpec} {rest : List UInt8}

theorem digit_toNat (d : Fin 10) : ((0x30 + d.val).toUInt8).toNat = 0x30 + d.val := by
  revert d
  decide

theorem fmtIsdigit_digit (d : Fin 10) : fmtIsdigit (0x30 + d.val).toUInt8 = true := by
  revert d
  decide

/-- What is behind a number does not go on with a digit. -/
def NoDigit (rest : List UInt8) : Prop := rest.head?.any fmtIsdigit = false

theorem takeWhile_noDigit (h : NoDigit rest) :
    rest.takeWhile fmtIsdigit = [] ∧ rest.dropWhile fmtIsdigit = rest := by
  cases rest with
  | nil => exact ⟨rfl, rfl⟩
  | cons c cs =>
    have hc : fmtIsdigit c = false := h
    exact ⟨by rw [List.takeWhile_cons, hc]; rfl, by rw [List.dropWhile_cons, hc]; rfl⟩

theorem digitsText_isdigit (ds : List (Fin 10)) : ∀ c ∈ digitsText ds, fmtIsdigit c = true := by
  intro c hc
  obtain ⟨d, -, rfl⟩ := List.mem_map.mp hc
  exact fmtIsdigit_digit d

/-- A number is read up to its end. -/
theorem takeWhile_digits (ds : List (Fin 10)) (h : NoDigit rest) :
    (digitsText ds ++ rest).takeWhile fmtIsdigit = digitsText ds ∧
      (digitsText ds ++ rest).dropWhile fmtIsdigit = rest := by
  rw [List.takeWhile_append_of_pos (digitsText_isdigit ds),
    List.dropWhile_append_of_pos (digitsText_isdigit ds), (takeWhile_noDigit h).1,
    (takeWhile_noDigit h).2, List.append_nil]
  exact ⟨rfl, rfl⟩

theorem foldl_digits (n : Nat) (ds : List (Fin 10)) :
    (digitsText ds).foldl (fun n c => n * 10 + (c.toNat - 0x30)) n =
      (ds.map Fin.val).foldl (fun v d => v * 10 + d) n := by
  unfold digitsText
  rw [List.foldl_map, List.foldl_map]
  congr 1
  funext n d
  rw [digit_toNat, Nat.add_sub_cancel_left]

/-- `VSTR__ADD_FMT_STRTOL` of a number. -/
theorem fmtStrtol_digits (ds : List (Fin 10)) (h : NoDigit rest) :
    fmtStrtol (digitsText ds ++ rest) = (digitsInt ds, rest) := by
  unfold fmtStrtol fmtNumeral digitsInt digitsNum Numeral.value
  rw [(takeWhile_digits ds h).1, (takeWhile_digits ds h).2, foldl_digits]

/-- The number of an argument is stored as it is. -/
theorem digitsInt_param (p : Param) : digitsInt p.digits = digitsNum p.digits := by
  have h := p.fits
  unfold digitsInt
  rw [Nat.min_eq_left (by omega), Nat.mod_eq_of_lt (by omega)]

theorem foldl_pos (ds : List Nat) {n : Nat} (hn : 0 < n) :
    0 < ds.foldl (fun v d => v * 10 + d) n := by
  induction ds generalizing n with
  | nil => exact hn
  | cons d ds ih =>
    have h : 0 < n * 10 + d := by omega
    exact ih h

/-- The number of an argument is not zero. -/
theorem digitsNum_pos (n : Leading) : 0 < digitsNum n.digits := by
  obtain ⟨d, ds, e, hd⟩ := n.lead
  have h0 : 0 < d.val := Nat.pos_of_ne_zero fun h => hd (Fin.ext h)
  rw [e]
  exact foldl_pos (ds.map Fin.val) (show 0 < 0 * 10 + d.val by omega)

/-! ## The parts of a spec -/

/-- What a spec goes on with behind its flags. -/
def Behind (rest : List UInt8) : Prop :=
  ∃ c cs, rest = c :: cs ∧ (0x58 ≤ c ∨ c = 0x2E ∨ c = 0x2A ∨ (fmtIsdigit c = true ∧ c ≠ 0x30))

/-- What a spec goes on with behind its field width. -/
def BehindWidth (rest : List UInt8) : Prop := ∃ c cs, rest = c :: cs ∧ (0x58 ≤ c ∨ c = 0x2E)

/-- What a spec goes on with behind its precision. -/
def BehindPrec (rest : List UInt8) : Prop := ∃ c cs, rest = c :: cs ∧ 0x58 ≤ c

theorem BehindPrec.width (h : BehindPrec rest) : BehindWidth rest := by
  obtain ⟨c, cs, e, hc⟩ := h
  exact ⟨c, cs, e, .inl hc⟩

theorem BehindWidth.flags (h : BehindWidth rest) : Behind rest := by
  obtain ⟨c, cs, e, hc | hc⟩ := h
  · exact ⟨c, cs, e, .inl hc⟩
  · exact ⟨c, cs, e, .inr (.inl hc)⟩

theorem behindWidth_chars (c : UInt8) (h : 0x58 ≤ c ∨ c = 0x2E) :
    fmtIsdigit c = false ∧ c ≠ 0x24 ∧ c ≠ 0x2A := by
  simp [fmtIsdigit, ← UInt8.toNat_inj, UInt8.le_iff_toNat_le] at h ⊢
  omega

theorem behindPrec_chars (c : UInt8) (h : 0x58 ≤ c) :
    fmtIsdigit c = false ∧ c ≠ 0x24 ∧ c ≠ 0x2A ∧ c ≠ 0x2E := by
  simp [fmtIsdigit, ← UInt8.toNat_inj, UInt8.le_iff_toNat_le] at h ⊢
  omega

theorem behind_chars (c : UInt8)
    (h : 0x58 ≤ c ∨ c = 0x2E ∨ c = 0x2A ∨ (fmtIsdigit c = true ∧ c ≠ 0x30)) :
    c ≠ 0x2D ∧ c ≠ 0x2B ∧ c ≠ 0x20 ∧ c ≠ 0x23 ∧ c ≠ 0x30 ∧ c ≠ 0x27 ∧ c ≠ 0x49 ∧ c ≠ 0x25 := by
  simp [fmtIsdigit, ← UInt8.toNat_inj, UInt8.le_iff_toNat_le] at h ⊢
  omega

theorem digit_ne_star : ∀ d : Fin 10, (0x30 + d.val).toUInt8 ≠ 0x2A := by
  decide

theorem digit_ne_escape : ∀ d : Fin 10, (0x30 + d.val).toUInt8 ≠ 0x25 := by
  decide

theorem digit_ne_zero : ∀ d : Fin 10, d ≠ 0 → (0x30 + d.val).toUInt8 ≠ 0x30 := by
  decide

theorem BehindWidth.noDigit (h : BehindWidth rest) : NoDigit rest := by
  obtain ⟨c, cs, rfl, hc⟩ := h
  exact (behindWidth_chars c hc).1

/-- The flags of a spec. -/
def FmtSpec.withFlags (spec : FmtSpec) (flags : List Flag) : FmtSpec :=
  { spec with
    zeropad := spec.zeropad || .zeropad ∈ flags
    plus := spec.plus || .plus ∈ flags
    space := spec.space || .space ∈ flags
    left := spec.left || .left ∈ flags
    special := spec.special || .special ∈ flags }

/-- The flags are read up to their end. -/
theorem fmtFlags_flags (flags : List Flag) (h : Behind rest) :
    fmtFlags spec (flags.map Flag.chr ++ rest) = (spec.withFlags flags, rest) := by
  induction flags generalizing spec with
  | nil =>
    obtain ⟨c, cs, rfl, hc⟩ := h
    obtain ⟨h1, h2, h3, h4, h5, h6, h7, -⟩ := behind_chars c hc
    rw [List.map_nil, List.nil_append, fmtFlags, if_neg h1, if_neg h2, if_neg h3, if_neg h4,
      if_neg h5, if_neg (by simp [h6, h7])]
    simp [FmtSpec.withFlags]
  | cons f flags ih =>
    rw [List.map_cons, List.cons_append, fmtFlags]
    cases f <;> simp [Flag.chr, ih, FmtSpec.withFlags]

/-- The name of an argument behind a `*`. -/
theorem fmtStar_name (p : Option Param) (h : BehindWidth rest) :
    fmtStar (nameText p ++ rest) params =
      ((numberArg params p).1, rest, (numberArg params p).2) := by
  unfold fmtStar
  cases p with
  | none =>
    rw [show nameText none ++ rest = rest from rfl, (takeWhile_noDigit h.noDigit).2]
    obtain ⟨c, cs, rfl, hc⟩ := h
    obtain ⟨-, h24, -⟩ := behindWidth_chars c hc
    split
    · rename_i e
      exact absurd (List.cons.inj e).1 h24
    · rfl
  | some p =>
    have hd : NoDigit (0x24 :: rest) := rfl
    rw [show nameText (some p) ++ rest = digitsText p.digits ++ (0x24 :: rest) by
      simp [nameText], (takeWhile_digits p.digits hd).2, fmtStrtol_digits p.digits hd]
    exact congrArg (·, rest, params) (digitsInt_param p)

/-- The field width of a spec. -/
def FmtSpec.withWidth (spec : FmtSpec) : Amount Leading Nat → FmtSpec
  | .none => spec
  | .lit n => { spec with fieldWidthUsr := true, fieldWidth := digitsInt n.digits }
  | .star p => { spec with fieldWidthUsr := true, fieldWidthParam := p }

/-- The precision of a spec. -/
def FmtSpec.withPrec (spec : FmtSpec) : Amount (List (Fin 10)) Nat → FmtSpec
  | .none => spec
  | .lit ds => { spec with precUsr := true, precision := digitsInt ds }
  | .star p => { spec with precUsr := true, precisionParam := p }

/-- The field width is read. -/
theorem fmtWidth_text (w : Amount Leading (Option Param)) (h : BehindWidth rest) :
    fmtWidth ⟨spec, widthText w ++ rest, params⟩ =
      ⟨spec.withWidth (w.number params).1, rest, (w.number params).2⟩ := by
  unfold fmtWidth
  dsimp only
  cases w with
  | none =>
    obtain ⟨c, cs, e, hc⟩ := h
    obtain ⟨h1, -, h3⟩ := behindWidth_chars c hc
    rw [show widthText .none ++ rest = rest from rfl, e]
    split
    · rename_i e'
      exact absurd (List.cons.inj e').1 h3
    · rw [if_neg (by simp [h1])]
      rfl
  | lit n =>
    obtain ⟨d, ds, e, -⟩ := n.lead
    have hcons : widthText (.lit n) ++ rest =
        (0x30 + d.val).toUInt8 :: (digitsText ds ++ rest) := by
      simp [widthText, e, digitsText]
    have hs := fmtStrtol_digits n.digits h.noDigit
    split
    · rename_i e'
      rw [hcons] at e'
      exact absurd (List.cons.inj e').1 (digit_ne_star d)
    · rw [if_pos (by rw [hcons]; exact fmtIsdigit_digit d),
        show widthText (.lit n) ++ rest = digitsText n.digits ++ rest from rfl, hs]
      rfl
  | star p =>
    rw [show widthText (.star p) ++ rest = 0x2A :: (nameText p ++ rest) from rfl]
    change (⟨{ spec with fieldWidthUsr := true, fieldWidthParam := (fmtStar _ params).1 },
      (fmtStar _ params).2.1, (fmtStar _ params).2.2⟩ : FmtRead) = _
    rw [fmtStar_name p h]
    rfl

/-- The precision is read. -/
theorem fmtPrecision_text (p : Amount (List (Fin 10)) (Option Param)) (h : BehindPrec rest) :
    fmtPrecision ⟨spec, precText p ++ rest, params⟩ =
      ⟨spec.withPrec (p.number params).1, rest, (p.number params).2⟩ := by
  unfold fmtPrecision
  dsimp only
  cases p with
  | none =>
    obtain ⟨c, cs, e, hc⟩ := h
    obtain ⟨-, -, -, h4⟩ := behindPrec_chars c hc
    rw [show precText .none ++ rest = rest from rfl, e]
    split
    · rename_i e'
      exact absurd (List.cons.inj e').1 h4
    · rename_i e'
      exact absurd (List.cons.inj e').1 h4
    · rfl
  | lit ds =>
    have hs := fmtStrtol_digits ds h.width.noDigit
    rw [show precText (.lit ds) ++ rest = 0x2E :: (digitsText ds ++ rest) from rfl]
    split
    · rename_i e'
      obtain ⟨c, cs, e, hc⟩ := h
      obtain ⟨-, -, h3, -⟩ := behindPrec_chars c hc
      have e2 := (List.cons.inj e').2
      cases ds with
      | nil =>
        rw [show digitsText [] ++ rest = rest from rfl, e] at e2
        exact absurd (List.cons.inj e2).1 h3
      | cons d ds =>
        exact absurd (List.cons.inj e2).1 (digit_ne_star d)
    · rename_i e'
      rw [← (List.cons.inj e').2, hs]
      rfl
    · rename_i hno
      exact absurd rfl (hno _)
  | star p =>
    rw [show precText (.star p) ++ rest = 0x2E :: 0x2A :: (nameText p ++ rest) from rfl]
    change (⟨{ spec with precUsr := true, precisionParam := (fmtStar _ params).1 },
      (fmtStar _ params).2.1, (fmtStar _ params).2.2⟩ : FmtRead) = _
    rw [fmtStar_name p h.width]
    rfl

/-! ## A spec -/

/-- Behind the precision there is a letter. -/
theorem behindPrec_code (d : Directive α) (rest : List UInt8) : BehindPrec (d.code ++ rest) := by
  obtain ⟨main, flags, width, prec, intType, conv⟩ := d
  have hc : 0x58 ≤ conv.chr := by
    cases conv <;> decide
  cases intType with
  | uint => exact ⟨_, _, rfl, hc⟩
  | _ => exact ⟨_, _, rfl, by decide⟩

theorem behindWidth_prec (p : Amount (List (Fin 10)) (Option Param)) (h : BehindPrec rest) :
    BehindWidth (precText p ++ rest) := by
  cases p with
  | none => exact h.width
  | lit ds => exact ⟨0x2E, _, rfl, .inr rfl⟩
  | star p => exact ⟨0x2E, _, rfl, .inr rfl⟩

theorem behind_width (w : Amount Leading (Option Param)) (h : BehindWidth rest) :
    Behind (widthText w ++ rest) := by
  cases w with
  | none => exact h.flags
  | lit n =>
    obtain ⟨d, ds, e, hd⟩ := n.lead
    refine ⟨(0x30 + d.val).toUInt8, digitsText ds ++ rest, by simp [widthText, e, digitsText],
      .inr (.inr (.inr ⟨fmtIsdigit_digit d, digit_ne_zero d hd⟩))⟩
  | star p => exact ⟨0x2A, _, rfl, .inr (.inr (.inl rfl))⟩

/-- A spec that does not name its argument has its flags first, if it has any. -/
theorem addFmtSpec_next (flags : List Flag) (w : Amount Leading (Option Param))
    (h : BehindWidth rest) :
    addFmtSpec (flags.map Flag.chr ++ (widthText w ++ rest)) params dollars =
      (fmtPrecision (fmtWidth ⟨fmtInitSpec.withFlags flags, widthText w ++ rest, params⟩),
        dollars) := by
  have hf : fmtFlags fmtInitSpec (flags.map Flag.chr ++ (widthText w ++ rest)) = _ :=
    fmtFlags_flags flags (behind_width w h)
  unfold addFmtSpec
  split
  · rename_i hhead
    cases flags with
    | cons f flags =>
      exfalso
      revert hhead
      cases f <;> simp [Flag.chr, fmtIsdigit]
    | nil =>
      rw [List.map_nil, List.nil_append] at hhead ⊢
      cases w with
      | lit n =>
        have hs := fmtStrtol_digits n.digits h.noDigit
        rw [show widthText (.lit n) ++ rest = digitsText n.digits ++ rest from rfl, hs]
        dsimp only
        obtain ⟨c, cs, e, hc⟩ := h
        split
        · exact absurd (List.cons.inj e).1.symm (behindWidth_chars c hc).2.1
        · rw [show fmtInitSpec.withFlags [] = fmtInitSpec from rfl]
      | none =>
        exfalso
        obtain ⟨c, cs, e, hc⟩ := h
        rw [show widthText .none ++ rest = rest from rfl, e] at hhead
        simp [(behindWidth_chars c hc).1] at hhead
      | star p =>
        exfalso
        simp [widthText, fmtIsdigit] at hhead
  · rw [hf]

/-- A spec that names its argument. -/
theorem addFmtSpec_named (p : Param) (flags : List Flag) (w : Amount Leading (Option Param))
    (h : BehindWidth rest) :
    addFmtSpec (nameText (some p) ++ (flags.map Flag.chr ++ (widthText w ++ rest))) params dollars =
      (fmtPrecision (fmtWidth ⟨{ fmtInitSpec with mainParam := digitsNum p.digits }.withFlags flags,
        widthText w ++ rest, params⟩), true) := by
  have hf : ∀ spec, fmtFlags spec (flags.map Flag.chr ++ (widthText w ++ rest)) =
      (spec.withFlags flags, widthText w ++ rest) := fun spec =>
    fmtFlags_flags flags (behind_width w h)
  have hd : NoDigit (0x24 :: (flags.map Flag.chr ++ (widthText w ++ rest))) := rfl
  obtain ⟨d, ds, e, hne⟩ := p.lead
  have htext : nameText (some p) ++ (flags.map Flag.chr ++ (widthText w ++ rest)) =
      digitsText p.digits ++ (0x24 :: (flags.map Flag.chr ++ (widthText w ++ rest))) := by
    simp [nameText]
  have hhead : (digitsText p.digits ++ (0x24 :: (flags.map Flag.chr ++
      (widthText w ++ rest)))).head?.any (fun c => fmtIsdigit c && c ≠ 0x30) = true := by
    have hc : (fmtIsdigit (0x30 + d.val).toUInt8 && decide ((0x30 + d.val).toUInt8 ≠ 0x30)) =
        true := by
      rw [fmtIsdigit_digit d, Bool.true_and]
      exact decide_eq_true (digit_ne_zero d hne)
    rw [e]
    exact hc
  unfold addFmtSpec
  rw [htext, if_pos hhead, fmtStrtol_digits p.digits hd, digitsInt_param]
  change (fmtPrecision (fmtWidth ⟨(fmtFlags _ _).1, (fmtFlags _ _).2, params⟩), true) = _
  rw [hf]

/-- The spec with its type. -/
theorem fmtIntType_code (d : Directive α) (rest : List UInt8) (h : spec.intType = .uint) :
    fmtIntType spec (d.code ++ rest) =
      ({ spec with intType := d.intType }, d.conv.chr :: rest) := by
  obtain ⟨main, flags, width, prec, intType, conv⟩ := d
  obtain ⟨⟩ := spec
  subst h
  cases intType <;> cases conv <;> rfl

/-- The spec with its conversion. -/
theorem fmtCode_chr (c : Conv) (hs : spec.sign = false) (hl : spec.large = false)
    (hb : spec.numBase = 10) :
    fmtCode spec c.chr = some { spec with
      fmtCode := c.chr
      sign := c.signed
      large := c = .hexLarge
      numBase := c.base } := by
  obtain ⟨⟩ := spec
  dsimp only at hs hl hb
  subst hs hl hb
  cases c <;> rfl

/-- Whether a conversion names its argument. -/
def Directive.named (d : Directive (Option Param)) : Bool := d.main.isSome

/-- The spec that is read before the type and the conversion. -/
def Directive.layoutSpec (params : Nat) (d : Directive (Option Param)) : FmtSpec :=
  (({ fmtInitSpec with
    mainParam := (d.main.map fun p : Param => digitsNum p.digits).getD 0 }.withFlags
    d.flags).withWidth (d.number params).1.width).withPrec (d.number params).1.prec

theorem layoutSpec_init (params : Nat) (d : Directive (Option Param)) :
    (d.layoutSpec params).intType = .uint ∧ (d.layoutSpec params).sign = false ∧
      (d.layoutSpec params).large = false ∧ (d.layoutSpec params).numBase = 10 := by
  have hw : ∀ (spec : FmtSpec) w, (spec.withWidth w).intType = spec.intType ∧
      (spec.withWidth w).sign = spec.sign ∧ (spec.withWidth w).large = spec.large ∧
      (spec.withWidth w).numBase = spec.numBase := fun spec w => by
    cases w <;> exact ⟨rfl, rfl, rfl, rfl⟩
  have hp : ∀ (spec : FmtSpec) p, (spec.withPrec p).intType = spec.intType ∧
      (spec.withPrec p).sign = spec.sign ∧ (spec.withPrec p).large = spec.large ∧
      (spec.withPrec p).numBase = spec.numBase := fun spec p => by
    cases p <;> exact ⟨rfl, rfl, rfl, rfl⟩
  unfold Directive.layoutSpec
  simp only [hw, hp]
  exact ⟨rfl, rfl, rfl, rfl⟩

/-- The beginning of a spec is read. -/
theorem addFmtSpec_text (d : Directive (Option Param)) (rest : List UInt8) :
    addFmtSpec (d.text ++ rest) params dollars =
      (⟨d.layoutSpec params, d.code ++ rest, (d.prec.number (d.width.number params).2).2⟩,
        dollars || d.named) := by
  have h3 := behindPrec_code d rest
  have h2 := behindWidth_prec d.prec h3
  have hw : ∀ spec, fmtPrecision (fmtWidth ⟨spec, widthText d.width ++
      (precText d.prec ++ (d.code ++ rest)), params⟩) =
      ⟨(spec.withWidth (d.width.number params).1).withPrec
        (d.prec.number (d.width.number params).2).1, d.code ++ rest,
        (d.prec.number (d.width.number params).2).2⟩ := fun spec => by
    rw [fmtWidth_text d.width h2, fmtPrecision_text d.prec h3]
  have htext : d.text ++ rest = nameText d.main ++ (d.flags.map Flag.chr ++ (widthText d.width ++
      (precText d.prec ++ (d.code ++ rest)))) := by
    simp [Directive.text]
  rw [htext]
  cases hm : d.main with
  | none =>
    have hn : d.named = false := by rw [Directive.named, hm]; rfl
    rw [show nameText none = [] from rfl, List.nil_append, addFmtSpec_next d.flags d.width h2, hw,
      hn,      Bool.or_false, Directive.layoutSpec, hm]
    rfl
  | some p =>
    have hn : d.named = true := by rw [Directive.named, hm]; rfl
    rw [addFmtSpec_named p d.flags d.width h2, hw, hn, Bool.or_true, Directive.layoutSpec, hm]
    rfl

/-- The spec of a conversion, from what is read. -/
theorem layoutSpec_spec (params : Nat) (d : Directive (Option Param)) :
    { d.layoutSpec params with
      intType := d.intType
      fmtCode := d.conv.chr
      sign := d.conv.signed
      large := d.conv = .hexLarge
      numBase := d.conv.base
      mainParam := (d.number params).1.main } = (d.number params).1.spec := by
  obtain ⟨main, flags, width, prec, intType, conv⟩ := d
  have hf : ∀ f : Flag, (false || decide (f ∈ flags)) = decide (f ∈ flags) := fun f =>
    Bool.false_or _
  unfold Directive.layoutSpec Directive.spec FmtSpec.withFlags fmtInitSpec
  dsimp only
  rw [hf, hf, hf, hf, hf]
  cases width <;> cases prec <;> rfl

theorem fmtMvSpec_next (h : spec.mainParam = 0) : fmtMvSpec ⟨spec, rest, params⟩ =
    ⟨{ spec with mainParam := params + 1 }, rest, params + 1⟩ := if_pos h

theorem fmtMvSpec_named (h : spec.mainParam ≠ 0) :
    fmtMvSpec ⟨spec, rest, params⟩ = ⟨spec, rest, params⟩ := if_neg h

/-- The end of a spec is read. -/
theorem fmtMvSpec_code (d : Directive (Option Param)) (rest : List UInt8) :
    fmtMvSpec ⟨{ d.layoutSpec params with
        intType := d.intType
        fmtCode := d.conv.chr
        sign := d.conv.signed
        large := d.conv = .hexLarge
        numBase := d.conv.base }, rest, (d.prec.number (d.width.number params).2).2⟩ =
      ⟨(d.number params).1.spec, rest, (d.number params).2⟩ := by
  have hm : (d.layoutSpec params).mainParam =
      (d.main.map fun p : Param => digitsNum p.digits).getD 0 := by
    unfold Directive.layoutSpec
    cases (d.number params).1.width <;> cases (d.number params).1.prec <;> rfl
  rw [← layoutSpec_spec]
  cases h : d.main with
  | none =>
    rw [h] at hm
    refine (fmtMvSpec_next ?_).trans ?_
    · exact hm
    unfold Directive.number
    rw [h]
    rfl
  | some p =>
    rw [h] at hm
    have hne := Nat.pos_iff_ne_zero.mp (digitsNum_pos p.toLeading)
    refine (fmtMvSpec_named ?_).trans ?_
    · exact fun h0 => hne (hm.symm.trans h0)
    unfold Directive.number
    rw [h]
    change _ = (⟨{ d.layoutSpec params with
      intType := d.intType
      fmtCode := d.conv.chr
      sign := d.conv.signed
      large := d.conv = .hexLarge
      numBase := d.conv.base
      mainParam := digitsNum p.digits }, _, _⟩ : FmtRead)
    rw [show digitsNum p.digits = (d.layoutSpec params).mainParam from hm.symm]
    rfl

/-! ## Text between conversions -/

/-- The specs of text: what is between the escapes, and one for each escape. -/
def textItems : List UInt8 → List FmtItem
  | [] => []
  | c :: t =>
    if c = 0x25 then .chr 0x25 :: textItems t
    else .str (c :: t.takeWhile (· ≠ 0x25)) :: textItems (t.dropWhile (· ≠ 0x25))
termination_by t => t.length
decreasing_by
  · exact Nat.lt_succ_self _
  · exact Nat.lt_succ_of_le ((List.dropWhile_suffix _).length_le)

theorem textItems_escape (t : List UInt8) : textItems (0x25 :: t) = .chr 0x25 :: textItems t := by
  rw [textItems, if_pos rfl]

theorem textItems_run {c : UInt8} (hc : c ≠ 0x25) (t : List UInt8) :
    textItems (c :: t) =
      .str (c :: t.takeWhile (· ≠ 0x25)) :: textItems (t.dropWhile (· ≠ 0x25)) := by
  rw [textItems, if_neg hc]

/-- The specs of text have no arguments. -/
theorem textItems_noNum (t : List UInt8) (spec : FmtSpec) : .num spec ∉ textItems t := by
  induction t using textItems.induct with
  | case1 => rw [textItems]; exact List.not_mem_nil
  | case2 t ih => simpa [textItems_escape] using ih
  | case3 c t hc ih => simpa [textItems_run hc] using ih

/-- The specs of text add the text. -/
theorem textItems_text (t : List UInt8) : (textItems t).flatMap FmtItem.text = t := by
  induction t using textItems.induct with
  | case1 => rw [textItems]; rfl
  | case2 t ih => rw [textItems_escape, List.flatMap_cons, ih]; rfl
  | case3 c t hc ih =>
    rw [textItems_run hc, List.flatMap_cons, ih]
    simp [FmtItem.text]

/-- The end of a format, or an escape. -/
def AtEscape (rest : List UInt8) : Prop := rest = [] ∨ ∃ cs, rest = 0x25 :: cs

/-- A stretch without escapes. -/
theorem takeWhile_escape (t : List UInt8) (h : AtEscape rest) :
    (escape t ++ rest).takeWhile (· ≠ 0x25) = t.takeWhile (· ≠ 0x25) ∧
      (escape t ++ rest).dropWhile (· ≠ 0x25) = escape (t.dropWhile (· ≠ 0x25)) ++ rest := by
  induction t with
  | nil =>
    rcases h with rfl | ⟨cs, rfl⟩
    · exact ⟨rfl, rfl⟩
    · exact ⟨by simp [escape], by simp [escape]⟩
  | cons c t ih =>
    by_cases hc : c = 0x25
    · subst hc
      exact ⟨by simp [escape], by simp [escape]⟩
    · have e : escape (c :: t) ++ rest = c :: (escape t ++ rest) := by
        simp [escape, hc]
      rw [e]
      simp only [List.takeWhile_cons, List.dropWhile_cons, ne_eq, hc, not_false_eq_true,
        decide_true, if_true]
      exact ⟨congrArg (c :: ·) ih.1, ih.2⟩

variable {fuel : Nat}

theorem addVfmtItems_nil (fuel params : Nat) (dollars : Bool) :
    addVfmtItems (fuel + 1) [] params dollars = some ([], dollars) := by
  rw [addVfmtItems]
  exact fun h => nomatch h

theorem addVfmtItems_escape (fuel params : Nat) (dollars : Bool) (fmt : List UInt8) :
    addVfmtItems (fuel + 1) (0x25 :: 0x25 :: fmt) params dollars =
      (addVfmtItems fuel fmt params dollars).map fun r => (.chr 0x25 :: r.1, r.2) := by
  rw [addVfmtItems]

theorem addVfmtItems_run {c : UInt8} (hc : c ≠ 0x25) (fuel params : Nat) (dollars : Bool)
    (fmt : List UInt8) :
    addVfmtItems (fuel + 1) (c :: fmt) params dollars =
      (addVfmtItems fuel (fmt.dropWhile (· ≠ 0x25)) params dollars).map fun r =>
        (.str (c :: fmt.takeWhile (· ≠ 0x25)) :: r.1, r.2) := by
  have e1 : (c :: fmt).dropWhile (fun x => decide (x ≠ 0x25)) =
      fmt.dropWhile (fun x => decide (x ≠ 0x25)) := by
    rw [List.dropWhile_cons, if_pos (decide_eq_true hc)]
  have e2 : (c :: fmt).takeWhile (fun x => decide (x ≠ 0x25)) =
      c :: fmt.takeWhile (fun x => decide (x ≠ 0x25)) := by
    rw [List.takeWhile_cons, if_pos (decide_eq_true hc)]
  rw [addVfmtItems, e1, e2]
  · exact fun h => List.cons_ne_nil _ _ h
  · exact fun _ h => hc (List.cons.inj h).1
  · exact fun _ h => hc (List.cons.inj h).1

/-- Text is read. -/
theorem addVfmtItems_text (t : List UInt8) (h : AtEscape rest)
    (hf : (escape t ++ rest).length < fuel) :
    ∃ fuel', rest.length < fuel' ∧ addVfmtItems fuel (escape t ++ rest) params dollars =
      (addVfmtItems fuel' rest params dollars).map fun r => (textItems t ++ r.1, r.2) := by
  induction t using textItems.induct generalizing fuel with
  | case1 =>
    refine ⟨fuel, hf, ?_⟩
    rw [textItems, show escape [] ++ rest = rest from rfl]
    exact Option.map_id'.symm
  | case2 t ih =>
    have e : escape (0x25 :: t) ++ rest = 0x25 :: 0x25 :: (escape t ++ rest) := by
      simp [escape]
    rw [e] at hf ⊢
    obtain ⟨k, rfl⟩ : ∃ k, fuel = k + 1 := ⟨fuel - 1, by omega⟩
    have hk : (escape t ++ rest).length < k := by
      simp only [List.length_cons] at hf
      omega
    obtain ⟨fuel', hf', hr⟩ := ih hk
    refine ⟨fuel', hf', ?_⟩
    rw [addVfmtItems_escape, hr, Option.map_map, textItems_escape]
    rfl
  | case3 c t hc ih =>
    have e : escape (c :: t) ++ rest = c :: (escape t ++ rest) := by
      simp [escape, hc]
    obtain ⟨htake, hdrop⟩ := takeWhile_escape t h
    rw [e] at hf ⊢
    obtain ⟨k, rfl⟩ : ∃ k, fuel = k + 1 := ⟨fuel - 1, by omega⟩
    have hlen : (escape (t.dropWhile (· ≠ 0x25)) ++ rest).length ≤ (escape t ++ rest).length := by
      rw [← hdrop]
      exact (List.dropWhile_suffix _).length_le
    have hk : (escape (t.dropWhile (· ≠ 0x25)) ++ rest).length < k := by
      simp only [List.length_cons] at hf
      omega
    obtain ⟨fuel', hf', hr⟩ := ih hk
    refine ⟨fuel', hf', ?_⟩
    rw [addVfmtItems_run hc, hdrop, htake, hr, Option.map_map, textItems_run hc]
    rfl

/-! ## A format -/

/-- A conversion does not begin with an escape. -/
theorem text_head (d : Directive (Option Param)) (rest : List UInt8) :
    ∃ c cs, d.text ++ rest = c :: cs ∧ c ≠ 0x25 := by
  have hb := behind_width d.width (behindWidth_prec d.prec (behindPrec_code d rest))
  have htext : d.text ++ rest = nameText d.main ++ (d.flags.map Flag.chr ++ (widthText d.width ++
      (precText d.prec ++ (d.code ++ rest)))) := by
    simp [Directive.text]
  rw [htext]
  cases d.main with
  | some p =>
    obtain ⟨x, ds, e, -⟩ := p.lead
    exact ⟨(0x30 + x.val).toUInt8, _, by rw [nameText, e]; rfl, digit_ne_escape x⟩
  | none =>
    rw [show nameText none = [] from rfl, List.nil_append]
    cases d.flags with
    | nil =>
      obtain ⟨c, cs, e, hc⟩ := hb
      exact ⟨c, cs, e, (behind_chars c hc).2.2.2.2.2.2.2⟩
    | cons f fs => exact ⟨f.chr, _, rfl, by cases f <;> decide⟩

/-- A conversion of a format is read. -/
theorem addVfmtItems_conv (d : Directive (Option Param)) (rest : List UInt8) (fuel params : Nat)
    (dollars : Bool) :
    addVfmtItems (fuel + 1) (0x25 :: (d.text ++ rest)) params dollars =
      (addVfmtItems fuel rest (d.number params).2 (dollars || d.named)).map fun r =>
        (.num (d.number params).1.spec :: r.1, r.2) := by
  obtain ⟨c, cs, e, hc⟩ := text_head d rest
  obtain ⟨h1, h2, h3, h4⟩ := layoutSpec_init params d
  have hspec : addFmtSpec (d.text ++ rest) params dollars = _ := addFmtSpec_text d rest
  have htype : fmtIntType (d.layoutSpec params) (d.code ++ rest) = _ := fmtIntType_code d rest h1
  have hcode : fmtCode { d.layoutSpec params with intType := d.intType } d.conv.chr = _ :=
    fmtCode_chr d.conv h2 h3 h4
  have hmv := @fmtMvSpec_code params d rest
  rw [e] at hspec ⊢
  rw [addVfmtItems]
  · rw [hspec]
    dsimp only
    rw [htype]
    dsimp only
    rw [hcode]
    dsimp only
    dsimp only at hmv
    rw [hmv]
  · exact fun _ h => hc (List.cons.inj h).1

/-- The specs of conversions with text behind them. -/
def convItems (cs : List (Directive Nat × List UInt8)) : List FmtItem :=
  cs.flatMap fun c => .num c.1.spec :: textItems c.2

/-- The conversions of a format are read. -/
theorem addVfmtItems_convs (cs : List (Directive (Option Param) × List UInt8))
    (hf : (cs.flatMap fun c => 0x25 :: c.1.text ++ escape c.2).length < fuel) :
    addVfmtItems fuel (cs.flatMap fun c => 0x25 :: c.1.text ++ escape c.2) params dollars =
      some (convItems (numberConvs params cs), dollars || cs.any fun c => c.1.named) := by
  induction cs generalizing fuel params dollars with
  | nil =>
    obtain ⟨k, rfl⟩ : ∃ k, fuel = k + 1 := ⟨fuel - 1, by simp at hf; omega⟩
    rw [List.flatMap_nil, addVfmtItems_nil, List.any_nil, Bool.or_false]
    rfl
  | cons c cs ih =>
    have hrest : AtEscape (cs.flatMap fun c => 0x25 :: c.1.text ++ escape c.2) := by
      cases cs with
      | nil => exact .inl rfl
      | cons c' cs' => exact .inr ⟨_, rfl⟩
    have e : (c :: cs).flatMap (fun c => 0x25 :: c.1.text ++ escape c.2) = 0x25 :: (c.1.text ++
        (escape c.2 ++ cs.flatMap fun c => 0x25 :: c.1.text ++ escape c.2)) := by
      simp
    rw [e] at hf ⊢
    obtain ⟨k, rfl⟩ : ∃ k, fuel = k + 1 := ⟨fuel - 1, by simp at hf; omega⟩
    rw [List.length_cons, List.length_append] at hf
    obtain ⟨fuel', hf', ht⟩ := @addVfmtItems_text (c.1.number params).2 (dollars || c.1.named) _ k
      c.2 hrest (by omega)
    rw [addVfmtItems_conv, ht, ih hf', Option.map_some, Option.map_some, List.any_cons,
      Bool.or_assoc]
    rfl

/-- The specs of a format. -/
def Format.items (F : Format (Option Param)) : List FmtItem :=
  textItems F.head ++ convItems (numberConvs 0 F.convs)

/-- Whether a format names arguments. -/
def Format.named (F : Format (Option Param)) : Bool := F.convs.any fun c => c.1.named

/-- **The text of a format is read.** -/
theorem read_format (F : Format (Option Param)) :
    addVfmtItems (F.text.length + 1) F.text 0 false = some (F.items, F.named) := by
  have hrest : AtEscape (F.convs.flatMap fun c => 0x25 :: c.1.text ++ escape c.2) := by
    cases F.convs with
    | nil => exact .inl rfl
    | cons c cs => exact .inr ⟨_, rfl⟩
  obtain ⟨fuel', hf', ht⟩ := @addVfmtItems_text 0 false _ (F.text.length + 1) F.head hrest
    (Nat.lt_succ_self _)
  rw [show addVfmtItems (F.text.length + 1) F.text 0 false = _ from ht,
    addVfmtItems_convs F.convs hf', Option.map_some, Bool.false_or]
  rfl

end Vstr.Fmt
