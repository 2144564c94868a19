import Vstr.Fmt.C99

/-!
# Numbers of type ptrdiff_t

A `ptrdiff_t` is looked at as a signed number whatever the conversion: the text of an unsigned
conversion is the one of the absolute value.
-/

namespace Vstr.Fmt

variable {α : Type} {d d' : Directive Int} {large : Bool} {b n n' k k' : Nat}

/-! ## What a text tells -/

/-- The digit of a character. -/
def chrDigit (large : Bool) (c : UInt8) : Nat := (c99Chrs large).idxOf c

theorem chrDigit_c99Chrs (large : Bool) {m : Nat} (hm : m < 16) :
    chrDigit large ((c99Chrs large).getD m 0) = m := by
  have h : ∀ large, ∀ m : Fin 16, chrDigit large ((c99Chrs large).getD m.val 0) = m.val := by
    decide
  exact h large ⟨m, hm⟩

/-- The digits of a text. -/
theorem map_chrDigit (hb : 1 < b) (hb' : b ≤ 16) (k n : Nat) :
    (List.replicate k 0x30 ++ c99Numeral large b n).map (chrDigit large) =
      List.replicate k 0 ++ (Nat.digits b n).reverse := by
  have hz : chrDigit large 0x30 = 0 := by
    revert large
    decide
  unfold c99Numeral
  rw [List.map_append, List.map_replicate, hz, List.map_map]
  refine congrArg _ ?_
  conv_rhs => rw [← List.map_id (Nat.digits b n).reverse]
  refine List.map_congr_left fun m hm => ?_
  have := Nat.digits_lt_base hb (List.mem_reverse.mp hm)
  exact chrDigit_c99Chrs large (by omega)

/-- A number with zeros in front of it is known from its digits. -/
theorem c99Numeral_inj (hb : 1 < b) (hb' : b ≤ 16)
    (h : List.replicate k 0x30 ++ c99Numeral large b n =
      List.replicate k' 0x30 ++ c99Numeral large b n') : n = n' := by
  have hd := congrArg (List.map (chrDigit large)) h
  rw [map_chrDigit hb hb', map_chrDigit hb hb'] at hd
  have hv := congrArg (Numeral.value b) hd
  rwa [Numeral.value_zeros, Numeral.value_zeros, Numeral.value_reverse, Numeral.value_reverse,
    Nat.ofDigits_digits, Nat.ofDigits_digits] at hv

/-- The digits are zeros and the number. -/
theorem c99Digits_eq (d : Directive Int) (least : Nat) :
    ∃ k, d.c99Digits least = List.replicate k 0x30 ++ d.numeral := by
  unfold Directive.c99Digits Directive.numeral
  dsimp only
  split
  · exact ⟨_ + 1, rfl⟩
  · exact ⟨_, rfl⟩

/-- A field without its spaces. -/
theorem filter_field (width : Nat) (left zero : Bool) (sgn pre ds : List UInt8)
    (hds : ∀ c ∈ ds, c ≠ 0x20) :
    ∃ k, (field width left zero sgn pre ds).filter (· ≠ 0x20) =
      sgn.filter (· ≠ 0x20) ++ pre.filter (· ≠ 0x20) ++ (List.replicate k 0x30 ++ ds) := by
  have hr : ∀ n, (List.replicate n (0x20 : UInt8)).filter (· ≠ 0x20) = [] := fun n =>
    List.filter_eq_nil_iff.mpr fun c hc => by simp [List.eq_of_mem_replicate hc]
  have hz : ∀ n, (List.replicate n (0x30 : UInt8)).filter (· ≠ 0x20) = List.replicate n 0x30 :=
    fun n => List.filter_eq_self.mpr fun c hc => by
      rw [List.eq_of_mem_replicate hc]
      decide
  have hd : ds.filter (· ≠ 0x20) = ds :=
    List.filter_eq_self.mpr fun c hc => decide_eq_true (hds c hc)
  unfold field
  dsimp only
  split
  · exact ⟨0, by simp only [List.filter_append, hr, hd, List.append_nil, List.replicate_zero,
      List.nil_append]⟩
  · split
    · exact ⟨_, by simp only [List.filter_append, hz, hd, List.append_assoc]; rfl⟩
    · exact ⟨0, by simp only [List.filter_append, hr, hd, List.nil_append, List.replicate_zero,
        List.append_assoc]⟩

theorem base_bounds (c : Conv) : 1 < c.base ∧ c.base ≤ 16 := by
  cases c <;> decide

/-- A text tells the absolute value of the number, if the sign and the prefix are the same. -/
theorem natAbs_of_textWith {width width' : Nat} {prec prec' : Option Nat} (hc : d.conv = d'.conv)
    (hs : d.c99Sign = d'.c99Sign) (hp : d.c99Prefix = d'.c99Prefix)
    (h : d.textWith width prec = d'.textWith width' prec') :
    d.value.natAbs = d'.value.natAbs := by
  have hno : ∀ (d : Directive Int) least, ∀ c ∈ d.c99Digits least, c ≠ 0x20 := fun d least c hc =>
    of_decide_eq_true (List.countP_eq_length.mp (countP_c99Digits d least) c hc)
  obtain ⟨k1, e1⟩ := filter_field width d.isLeft (.zeropad ∈ d.flags && prec.isNone) d.c99Sign
    d.c99Prefix (d.c99Digits (prec.getD 1)) (hno _ _)
  obtain ⟨k2, e2⟩ := filter_field width' d'.isLeft (.zeropad ∈ d'.flags && prec'.isNone) d'.c99Sign
    d'.c99Prefix (d'.c99Digits (prec'.getD 1)) (hno _ _)
  obtain ⟨m1, f1⟩ := c99Digits_eq d (prec.getD 1)
  obtain ⟨m2, f2⟩ := c99Digits_eq d' (prec'.getD 1)
  have hf := congrArg (List.filter (· ≠ 0x20)) h
  unfold Directive.textWith at hf
  rw [e1, e2, hs, hp, f1, f2] at hf
  have hd := List.append_cancel_left hf
  rw [← List.append_assoc, ← List.append_assoc, List.replicate_append_replicate,
    List.replicate_append_replicate] at hd
  unfold Directive.numeral at hd
  rw [← hc] at hd
  exact c99Numeral_inj (base_bounds d.conv).1 (base_bounds d.conv).2 hd

/-! ## The absolute value -/

/-- A conversion of another type. -/
def Directive.ofType (d : Directive Int) (ty : IntType) : Directive Int := { d with intType := ty }

/-- A conversion of another argument. -/
def Directive.ofArg (d : Directive Int) (v : Int) : Directive Int := { d with main := v }

/-- A sign that is not written does not matter. -/
theorem addFmtNumber_negative {spec : FmtSpec} (h : spec.sign = false) (neg : Bool) :
    addFmtNumber { spec with numIsNegative := neg } = addFmtNumber spec := by
  have hs : fmtSign { spec with numIsNegative := neg } = fmtSign spec := by
    unfold fmtSign
    rw [h]
    rfl
  have hw : fmtSignWidth { spec with numIsNegative := neg } = fmtSignWidth spec := by
    unfold fmtSignWidth
    rw [hs]
  unfold addFmtNumber
  rw [hs, hw]
  rfl

/-- The sign does not matter for the text of an unsigned conversion. -/
theorem addFmtNumber_specWith (h : d.conv.signed = false) (n : Nat) (zero neg : Bool)
    (ty : IntType) :
    addFmtNumber (d.specWith n zero neg ty) = addFmtNumber (d.specWith n zero false ty) :=
  @addFmtNumber_negative (d.specWith n zero false ty) h neg

/-- A signed number of 64 bits. -/
theorem signedArg_64 (v : Int) : -2 ^ 63 ≤ signedArg 64 v ∧ signedArg 64 v < 2 ^ 63 ∧
    v % 2 ^ 64 = if signedArg 64 v < 0 then signedArg 64 v + 2 ^ 64 else signedArg 64 v := by
  have hb := signedArg_bounds 64 v
  have hm : (signedArg 64 v - v) % 2 ^ 64 = 0 := by
    have h := Int.bmod_emod (x := v) (m := 2 ^ 64)
    unfold signedArg
    rw [Int.sub_emod]
    rw [show ((2 : Int) ^ 64) = ((2 ^ 64 : Nat) : Int) by norm_num, h, Int.sub_self]
    rfl
  refine ⟨by omega, by omega, ?_⟩
  split <;> omega

theorem layout_type (d : Directive Int) (v : Int) (ty : IntType) :
    ((d.ofArg v).ofType ty).layout.intType = ty ∧
      ((d.ofArg v).ofType ty).layout.sign = d.conv.signed := by
  rw [layout_spec]
  exact ⟨rfl, rfl⟩

theorem specWith_same (d : Directive Int) (v : Int) (ty ty' : IntType) (n : Nat)
    (zero neg : Bool) :
    ((d.ofArg v).ofType ty).specWith n zero neg ty' = d.specWith n zero neg ty' := rfl

theorem argData_signed {spec : FmtSpec} (h : spec.isSigned) {v : Int} :
    argData spec v = (signedArg spec.intType.width v).natAbs := if_pos h

theorem argData_unsigned {spec : FmtSpec} (h : ¬ spec.isSigned) {v : Int} :
    argData spec v = (v % 2 ^ spec.intType.width).toNat := if_neg h

/-- A conversion of a `ptrdiff_t`. -/
theorem printed_ptrdiff (d : Directive Int) : ∃ neg, (d.ofType .ptrdiffT).printed =
    d.ints.specWith (signedArg 64 d.main).natAbs ((signedArg 64 d.main).natAbs = 0) neg
      .uintmaxT := by
  obtain ⟨ht, -⟩ := layout_type d.ints d.ints.main .ptrdiffT
  have hdata := argData_signed (.inr ht) (v := d.main)
  have hspec := setMain_none ((d.ints.ofArg d.ints.main).ofType .ptrdiffT) d.main
  rw [hdata, ht, specWith_same] at hspec
  exact ⟨_, hspec⟩

/-- A conversion of an `uintmax_t`. -/
theorem printed_uintmax (h : d.conv.signed = false) {v : Int} (h0 : 0 ≤ v) (hv : v < 2 ^ 64) :
    ∃ neg, ((d.ofArg v).ofType .uintmaxT).printed =
      d.ints.specWith v.natAbs (v.natAbs = 0) neg .uintmaxT := by
  obtain ⟨ht, hs⟩ := layout_type d.ints (signedArg 32 v) .uintmaxT
  have hsig : ¬ ((d.ints.ofArg (signedArg 32 v)).ofType .uintmaxT).layout.isSigned := by
    rintro (hc | hc)
    · exact absurd (h.symm.trans (hs.symm.trans hc)) Bool.false_ne_true
    · rw [ht] at hc
      cases hc
  have hdata := argData_unsigned hsig (v := v)
  have hmod : (v % 2 ^ IntType.uintmaxT.width).toNat = v.natAbs := by
    change (v % 2 ^ 64).toNat = v.natAbs
    rw [Int.emod_eq_of_lt h0 hv]
    omega
  have hspec := setMain_none ((d.ints.ofArg (signedArg 32 v)).ofType .uintmaxT) v
  rw [hdata, ht, hmod, specWith_same] at hspec
  exact ⟨_, hspec⟩

/-- A `ptrdiff_t` in an unsigned conversion is printed as its absolute value. -/
theorem added_ptrdiff (h : d.conv.signed = false) :
    (d.ofType .ptrdiffT).added =
      ((d.ofArg (signedArg 64 d.main).natAbs).ofType .uintmaxT).added := by
  obtain ⟨hlo, hhi, -⟩ := signedArg_64 d.main
  obtain ⟨neg, e1⟩ := printed_ptrdiff d
  obtain ⟨neg', e2⟩ := printed_uintmax h (v := (signedArg 64 d.main).natAbs) (by omega) (by omega)
  rw [Int.natAbs_natCast] at e2
  have hi : d.ints.conv.signed = false := h
  generalize d.ints = d' at e1 e2 hi
  unfold Directive.added FmtItem.text
  dsimp only
  rw [e1, e2, addFmtNumber_specWith hi, addFmtNumber_specWith hi _ _ neg']

/-- What a conversion adds depends on the value. -/
theorem added_of_value {ty : IntType} {v : Int} (h : d.Standard)
    (h' : ((d.ofArg v).ofType ty).Standard) (hv : ((d.ofArg v).ofType ty).value = d.value) :
    ((d.ofArg v).ofType ty).added = d.added := by
  rw [added_eq h, added_eq h']
  have hs : ((d.ofArg v).ofType ty).c99Sign = d.c99Sign := by
    unfold Directive.c99Sign
    rw [hv]
    rfl
  have hp : ((d.ofArg v).ofType ty).c99Prefix = d.c99Prefix := by
    unfold Directive.c99Prefix
    rw [hv]
    rfl
  have hd : ∀ least, ((d.ofArg v).ofType ty).c99Digits least = d.c99Digits least := fun least => by
    unfold Directive.c99Digits
    rw [hv]
    rfl
  have hw : ((d.ofArg v).ofType ty).keptFieldWidth = d.keptFieldWidth := by
    unfold Directive.keptFieldWidth
    rw [hs]
    rfl
  unfold Directive.textWith
  rw [hs, hp, hd, hw]
  rfl

/-- With `t` and with `j` the text is the same for a signed conversion, and for an argument that
is not negative or the least one. -/
theorem added_ptrdiff_iff (d : Directive Int) :
    (d.ofType .ptrdiffT).added = (d.ofType .uintmaxT).added ↔
      d.conv.signed = true ∨ 0 ≤ signedArg 64 d.main ∨ signedArg 64 d.main = -2 ^ 63 := by
  have hj : ∀ v, ((d.ofArg v).ofType .uintmaxT).Standard := fun v hv => by cases hv
  by_cases hs : d.conv.signed = true
  · refine iff_of_true ?_ (.inl hs)
    exact @added_of_value (d.ofType .uintmaxT) .ptrdiffT d.main (hj d.main) (fun _ => hs) rfl
  · have hs' : d.conv.signed = false := by simpa using hs
    obtain ⟨hlo, hhi, hmod⟩ := signedArg_64 d.main
    have hv : (d.ofType .uintmaxT).value = d.main % 2 ^ 64 := if_neg hs
    have hv' : ((d.ofArg (signedArg 64 d.main).natAbs).ofType .uintmaxT).value =
        (signedArg 64 d.main).natAbs := by
      have he : ((signedArg 64 d.main).natAbs : Int) % 2 ^ 64 = (signedArg 64 d.main).natAbs :=
        Int.emod_eq_of_lt (by omega) (by omega)
      exact (if_neg hs).trans he
    rw [added_ptrdiff hs']
    constructor
    · intro e
      refine .inr ?_
      rw [added_eq (hj _), added_eq (show (d.ofType .uintmaxT).Standard from hj d.main)] at e
      have hsign : ((d.ofArg (signedArg 64 d.main).natAbs).ofType .uintmaxT).c99Sign =
          (d.ofType .uintmaxT).c99Sign := (if_neg hs).trans (if_neg hs).symm
      have hpre : ((d.ofArg (signedArg 64 d.main).natAbs).ofType .uintmaxT).c99Prefix =
          (d.ofType .uintmaxT).c99Prefix := by
        unfold Directive.c99Prefix
        rw [hv, hv', hmod]
        refine if_congr (and_congr_right fun _ => not_congr ?_) rfl rfl
        split <;> omega
      have := @natAbs_of_textWith ((d.ofArg (signedArg 64 d.main).natAbs).ofType .uintmaxT)
        (d.ofType .uintmaxT) _ _ _ _ rfl hsign hpre e
      rw [hv, hv', hmod] at this
      split at this <;> omega
    · intro hc
      have hcase : 0 ≤ signedArg 64 d.main ∨ signedArg 64 d.main = -2 ^ 63 :=
        hc.resolve_left hs
      refine @added_of_value (d.ofType .uintmaxT) .uintmaxT _ (hj d.main) (hj _) ?_
      refine hv'.trans (Eq.trans ?_ hv.symm)
      rw [hmod]
      split <;> omega

/-! ## Calls -/

/-- A format of one conversion, with text around it. -/
def Directive.between (d : Directive α) (t t' : List UInt8) : Format α := ⟨t, [(d, t')]⟩

theorem addFmt_between (d : Directive Int) (t t' : List UInt8) :
    addFmt (d.between t t').next.text d.args = some (t ++ (d.added ++ t')) := by
  have h := addFmt_next (d.between t t')
  have ha : (d.between t t').args = d.args := List.append_nil _
  have ht : (d.between t t').added = t ++ (d.added ++ t') :=
    congrArg (t ++ ·) (List.append_nil _)
  rwa [ha, ht] at h

/-- **Numbers of type ptrdiff_t.** With `t` the text is the one with `j` for a signed conversion,
and for an argument that is not negative or the least one. -/
theorem ptrdiff_iff (d : Directive Int) (t t' : List UInt8) :
    addFmt ((d.ofType .ptrdiffT).between t t').next.text d.args =
        addFmt ((d.ofType .uintmaxT).between t t').next.text d.args ↔
      d.conv.signed = true ∨ 0 ≤ signedArg 64 d.main ∨ signedArg 64 d.main = -2 ^ 63 := by
  have h1 := addFmt_between (d.ofType .ptrdiffT) t t'
  have h2 := addFmt_between (d.ofType .uintmaxT) t t'
  rw [show (d.ofType .ptrdiffT).args = d.args from rfl] at h1
  rw [show (d.ofType .uintmaxT).args = d.args from rfl] at h2
  rw [h1, h2, Option.some.injEq, List.append_cancel_left_eq, List.append_cancel_right_eq]
  exact added_ptrdiff_iff d

/-- `%x` of -1. -/
def minusHex : Directive Int where
  main := -1
  flags := []
  width := .none
  prec := .none
  intType := .uint
  conv := .hex

/-- `%tx` and `%jx` of -1. -/
theorem ptrdiff_minus :
    addFmt [0x25, 0x74, 0x78] [-1] = some [0x31] ∧
    addFmt [0x25, 0x6A, 0x78] [-1] = some (List.replicate 16 0x66) ∧
    ¬ ∀ (d : Directive Int) (t t' : List UInt8),
      addFmt ((d.ofType .ptrdiffT).between t t').next.text d.args =
        addFmt ((d.ofType .uintmaxT).between t t').next.text d.args := by
  obtain ⟨h1, h2⟩ : addFmt [0x25, 0x74, 0x78] [-1] = some [0x31] ∧
      addFmt [0x25, 0x6A, 0x78] [-1] = some (List.replicate 16 0x66) := by decide +kernel
  refine ⟨h1, h2, fun hall => ?_⟩
  have h := hall minusHex [] []
  rw [show ((minusHex.ofType .ptrdiffT).between [] []).next.text = [0x25, 0x74, 0x78] by decide,
    show ((minusHex.ofType .uintmaxT).between [] []).next.text = [0x25, 0x6A, 0x78] by decide,
    show minusHex.args = [-1] from rfl, h1, h2] at h
  exact absurd h (by decide)

end Vstr.Fmt
