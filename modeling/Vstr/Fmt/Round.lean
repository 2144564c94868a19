import Vstr.Fmt.Sequential
import Vstr.Parse.Prefix

/-!
# Printing and parsing

The text that a number is printed as is parsed to the number again: in decimal with its sign,
in the forms with a prefix, and in every base.
-/

namespace Vstr.Fmt

open Splice Query

variable {E : Env} {P : Own} {s : St} {pos w b n : Nat} {fl : ParseNumFlags} {ds : List UInt8}

/-! ## Digits -/

/-- The text of a number in a base. -/
def numChrs (b n : Nat) : List UInt8 := if n = 0 then [0x30] else addFmtNum false b n

theorem chrsBase_toNat {d : Nat} (hd : d < 36) :
    (chrsBase false d).toNat = if d < 10 then 0x30 + d else 0x61 + (d - 10) := by
  have h : ∀ d : Fin 36, (chrsBase false d).toNat =
      if d.val < 10 then 0x30 + d.val else 0x61 + (d.val - 10) := by decide
  exact h ⟨d, hd⟩

/-- The parser knows the characters of the digits. -/
theorem asciiDigit_chrsBase (loc : Bool) {d : Nat} (hb : b ≤ 36) (hd : d < b) :
    asciiDigit loc b (chrsBase false d) = some d := by
  rw [asciiDigit_eq hb]
  have hc := chrsBase_toNat (show d < 36 by omega)
  unfold asciiDigit
  rw [if_neg Bool.false_ne_true]
  dsimp only
  rw [hc]
  by_cases hten : d < 10
  · rw [if_pos hten, if_neg (by omega), if_pos (by split <;> omega)]
    congr 1
    omega
  · have hb10 : ¬ b ≤ 10 := by omega
    have hb11 : b > 10 := by omega
    rw [if_neg hten, if_neg (by omega)]
    simp only [hb10, hb11, if_true, if_false]
    rw [if_neg (by omega), if_neg (by omega), if_pos (by omega)]
    congr 1
    omega

theorem digits_lt (hb : 2 ≤ b) {d : Nat} (hd : d ∈ digitList b n) : d < b :=
  Nat.digits_lt_base (by omega) (List.mem_reverse.mp hd)

/-- The digits of a number are read back. -/
theorem addFmtNum_digits (hb : 2 ≤ b) (hb' : b ≤ 36) (loc : Bool) (n : Nat) :
    AllDigits loc b (addFmtNum false b n) ∧ digitsVal loc b (addFmtNum false b n) = n := by
  have hone : ∀ d ∈ digitList b n, asciiDigit loc b (chrsBase false d) = some d :=
    fun d hd => asciiDigit_chrsBase loc hb' (digits_lt hb hd)
  refine ⟨fun c hc => ?_, ?_⟩
  · obtain ⟨d, hd, rfl⟩ := List.mem_map.mp hc
    rw [hone d hd]
    rfl
  · have hmap : (addFmtNum false b n).map (fun c => (asciiDigit loc b c).getD 0) =
        digitList b n := by
      unfold addFmtNum
      rw [List.map_map]
      conv_rhs => rw [← List.map_id (digitList b n)]
      refine List.map_congr_left fun d hd => ?_
      rw [Function.comp_apply, hone d hd]
      rfl
    unfold digitsVal
    rw [hmap, value_digitList]

/-- A number does not begin with a zero. -/
theorem addFmtNum_head (hb : 2 ≤ b) (hb' : b ≤ 36) (hn : n ≠ 0) :
    ∃ c cs, addFmtNum false b n = c :: cs ∧ c ≠ 0x30 := by
  have hne : digitList b n ≠ [] := by
    simpa [digitList, Nat.digits_eq_nil_iff_eq_zero] using hn
  obtain ⟨d, ls, e⟩ := List.exists_cons_of_ne_nil hne
  have hd := head_digitList hn (show (digitList b n).head? = some d by rw [e]; rfl)
  have hlt := digits_lt hb (show d ∈ digitList b n by simp [e])
  refine ⟨chrsBase false d, ls.map (chrsBase false), ?_, fun hc => ?_⟩
  · unfold addFmtNum
    rw [show (Nat.digits b n).reverse = d :: ls from e, List.map_cons]
  · have h := chrsBase_toNat (show d < 36 by omega)
    rw [hc] at h
    have h30 : (0x30 : UInt8).toNat = 0x30 := rfl
    rw [h30] at h
    split at h <;> omega

/-- The text of a number, for the parser. -/
theorem numChrs_digits (hb : 2 ≤ b) (hb' : b ≤ 36) (loc : Bool) (n : Nat) :
    AllDigits loc b (numChrs b n) ∧ digitsVal loc b (numChrs b n) = n ∧ numChrs b n ≠ [] ∧
      ¬ LooksPrefixed b (numChrs b n) := by
  unfold numChrs
  by_cases hn : n = 0
  · rw [if_pos hn]
    have hz := asciiDigit_zero loc (show 1 ≤ b by omega)
    refine ⟨fun c hc => ?_, ?_, List.cons_ne_nil _ _, ?_⟩
    · obtain rfl := List.mem_singleton.mp hc
      rw [hz]
      rfl
    · unfold digitsVal
      rw [List.map_cons, hz, hn]
      simp [Numeral.value]
    · rintro ⟨-, c, es, e, -⟩
      cases e
  · rw [if_neg hn]
    obtain ⟨c, cs, e, hc⟩ := addFmtNum_head hb hb' hn
    obtain ⟨h1, h2⟩ := addFmtNum_digits hb hb' loc n
    refine ⟨h1, h2, by rw [e]; exact List.cons_ne_nil _ _, ?_⟩
    rintro ⟨-, c', es, e', -⟩
    rw [e] at e'
    exact hc (List.cons.inj e').1

/-! ## Parsing -/

/-- The flags that a number is parsed with: the base; the sign and the zeros are allowed. -/
structure ReadsBase (fl : ParseNumFlags) (base : Nat) : Prop where
  /-- The base, or 0. -/
  base : fl.base = base
  /-- A sign. -/
  noBegPm : fl.noBegPm = false
  /-- A minus. -/
  noNegative : fl.noNegative = false
  /-- Zeros. -/
  noBegZero : fl.noBegZero = false

theorem ReadsBase.based (h : ReadsBase fl b) (hb : 2 ≤ b) (hb' : b ≤ 36) : Based fl b := by
  refine ⟨?_, ?_, hb, hb'⟩
  · rw [numBase_eq (.inr (by rw [h.base]; omega)), h.base]
  · rw [h.base]
    omega

/-- An unsigned number in a base. -/
theorem ufuncOf_numChrs (h : ReadsBase fl b) (hb : 2 ≤ b) (hb' : b ≤ 36)
    (hw : w = 16 ∨ w = 32 ∨ w = 64) (hn : n < 2 ^ w) (pos : Nat) :
    ufuncOf w fl pos ((numChrs b n).map some) = ⟨n, (numChrs b n).length, .none⟩ := by
  obtain ⟨h1, h2, h3, h4⟩ := numChrs_digits hb hb' fl.loc n
  obtain ⟨hnum, hlen, herr⟩ := ufuncOf_all (h.based hb hb') h.noBegZero h1 h4 hw h3 pos
  rw [h2, Nat.mod_eq_of_lt hn] at hnum
  rw [h2] at herr
  exact ParsedNum.ext hnum hlen (herr hn)

/-- A signed number in decimal. -/
theorem sfuncOf_numChrs (h : ReadsBase fl 10) (hw : w = 16 ∨ w = 32 ∨ w = 64) (neg : Bool)
    (hn : n ≤ 2 ^ (w - 1) - 1 + neg.toNat) (h0 : neg = true → n ≠ 0) (pos : Nat) :
    sfuncOf w fl pos (((if neg then [0x2D] else []) ++ numChrs 10 n).map some) =
      ⟨if neg then -(n : Int) else n, (if neg then 1 else 0) + (numChrs 10 n).length, .none⟩ := by
  obtain ⟨h1, h2, h3, h4⟩ := numChrs_digits (show 2 ≤ 10 by decide) (by decide) fl.loc n
  have hlt : n < 2 ^ w := by
    rcases hw with rfl | rfl | rfl <;> cases neg <;> simp at hn <;> omega
  have hover : parseNumOver w neg n = false := by
    rw [← Bool.not_eq_true]
    rcases hw with hw | hw
    · rw [hw, parseNumOver_short]
      rw [hw] at hn
      omega
    · rw [parseNumOver_wide hw hlt]
      rintro (⟨h, h'⟩ | h)
      · exact h0 h h'
      · omega
  have hsgn : ∀ neg : Bool, decide ((if neg then [0x2D] else [] : List UInt8) = [0x2D]) = neg := by
    decide
  have hcase : (if neg then [0x2D] else [] : List UInt8) = [] ∨ fl.noBegPm = false ∧
      ((if neg then [0x2D] else [] : List UInt8) = [0x2B] ∨
        (if neg then [0x2D] else [] : List UInt8) = [0x2D]) := by
    cases neg with
    | false => exact .inl rfl
    | true => exact .inr ⟨h.noBegPm, .inr rfl⟩
  obtain ⟨hnum, hlen, herr⟩ := sfuncOf_all (if neg then [0x2D] else []) (h.based (by decide)
    (by decide)) h.noBegZero h1 h4 hw h3 hcase (fun hc => by simp [h.noNegative] at hc)
    (fun hc => by
      rw [h2]
      refine h0 ?_
      rw [← hsgn neg, hc]
      rfl) pos
  rw [hsgn, h2] at hnum herr
  have hno : ¬ (fl.overflow = true ∧ parseNumOver w neg (n % 2 ^ w) = true) := by
    rw [Nat.mod_eq_of_lt hlt, hover]
    simp
  rw [if_neg hno, Nat.mod_eq_of_lt hlt, signedNum_eq hw hn] at hnum
  rw [List.map_append]
  refine ParsedInt.ext hnum ?_ (herr hlt hover)
  rw [hlen]
  cases neg <;> rfl

/-- A number without a sign whose base comes from its prefix. -/
theorem ufuncOf_prefixed {pre : List UInt8} (p' : Nat) (hb : 2 ≤ b) (hb' : b ≤ 36)
    (hw : w = 16 ∨ w = 32 ∨ w = 64) (hn : n < 2 ^ w)
    (hbeg : numBegOf fl pos ((pre ++ addFmtNum false b n).map some) =
      .digits b p' (addFmtNum false b n).length false true) :
    ufuncOf w fl pos ((pre ++ addFmtNum false b n).map some) =
      ⟨n, (pre ++ addFmtNum false b n).length, .none⟩ := by
  obtain ⟨h1, h2⟩ := addFmtNum_digits hb hb' fl.loc n
  have hr : AllRead fl w _ _ := numLoopOf_all hb hb' h1 hw true
  have hdrop : ((pre ++ addFmtNum false b n).map some : List (Option UInt8)).drop
      (((pre ++ addFmtNum false b n).map some : List (Option UInt8)).length -
        (addFmtNum false b n).length) = (addFmtNum false b n).map some := by
    rw [List.map_append]
    refine List.drop_left' ?_
    rw [List.length_append, List.length_map, List.length_map, Nat.add_sub_cancel]
  unfold ufuncOf
  rw [hbeg]
  dsimp only
  rw [if_neg (by decide), hdrop, hr.len, hr.ret, if_neg (by simp), h2, Nat.mod_eq_of_lt hn,
    hr.err (by rw [h2]; exact hn), List.length_map, Nat.sub_zero]

/-- A text that begins with a zero, in automatic base. -/
theorem numBegOf_auto (h : ReadsBase fl 0) {c : UInt8} {cs : List UInt8} (hc : c ≠ 0x30)
    (pos : Nat) : numBegOf fl pos ((0x30 :: c :: cs).map some) =
      prefixOf fl 0 (pos + 1) ((c :: cs).map some) false := by
  have hspace : 0 = spanOf [0x20] ((0x30 :: c :: cs).map some) := rfl
  have hsign : signOf ((0x30 :: c :: cs).map some) = some (0, false) := rfl
  have hnb : fl.numBase = 0 := by
    rw [numBase_eq (.inl h.base), h.base]
  have hone : spanOf [0x30] ((0x30 :: c :: cs).map some) = 1 := by
    refine spanOf_one.mpr ⟨0x30, (c :: cs).map some, rfl, by decide, fun c' hc' hin => ?_⟩
    obtain rfl := Option.some.inj (Option.some.inj hc')
    exact hc (List.mem_singleton.mp hin)
  have hdig : digitsOf fl pos ((0x30 :: c :: cs).map some) false =
      prefixOf fl 0 (pos + 1) ((c :: cs).map some) false := by
    unfold digitsOf
    rw [if_neg (by simp), hone, if_pos ⟨rfl, .inl hnb⟩, hnb]
    rfl
  have hsigned : signedOf fl pos ((0x30 :: c :: cs).map some) =
      prefixOf fl 0 (pos + 1) ((c :: cs).map some) false := by
    unfold signedOf
    rw [h.noBegPm, if_neg (by decide), hsign]
    exact hdig
  unfold numBegOf
  rw [← hspace]
  split
  · rw [if_neg (by simp)]
    exact hsigned
  · exact hsigned

/-- A zero in automatic base. -/
theorem ufuncOf_auto_zero (h : ReadsBase fl 0) (w pos : Nat) :
    ufuncOf w fl pos (([0x30] : List UInt8).map some) = ⟨0, 1, .none⟩ := by
  have hnb : fl.numBase = 0 := by
    rw [numBase_eq (.inl h.base), h.base]
  have hdig : digitsOf fl pos (([0x30] : List UInt8).map some) false = .zero 0 .none := by
    have hone : spanOf [0x30] (([0x30] : List UInt8).map some) = 1 := rfl
    unfold digitsOf
    rw [if_neg (by simp), hone, if_pos ⟨rfl, .inl hnb⟩]
    rfl
  have hsigned : signedOf fl pos (([0x30] : List UInt8).map some) = .zero 0 .none := by
    have hsign : signOf (([0x30] : List UInt8).map some) = some (0, false) := rfl
    unfold signedOf
    rw [h.noBegPm, if_neg (by decide), hsign]
    exact hdig
  have hbeg : numBegOf fl pos (([0x30] : List UInt8).map some) = .zero 0 .none := by
    have hspace : 0 = spanOf [0x20] (([0x30] : List UInt8).map some) := rfl
    unfold numBegOf
    rw [← hspace]
    split
    · rw [if_neg (by simp)]
      exact hsigned
    · exact hsigned
  unfold ufuncOf
  rw [hbeg]
  rfl

/-- The digits of a number are none of these characters. -/
theorem notAmong_addFmtNum (hb : 2 ≤ b) (hb' : b ≤ 36) (n : Nat) {chrs : List UInt8}
    (hc : ∀ c ∈ chrs, asciiDigit false b c = none) :
    NotAmong chrs ((addFmtNum false b n).map some) := by
  intro c hhead hin
  have h1 := (addFmtNum_digits hb hb' false n).1
  cases hl : addFmtNum false b n with
  | nil =>
    rw [hl] at hhead
    cases hhead
  | cons d cs =>
    rw [hl] at hhead h1
    obtain rfl : d = c := by simpa using hhead
    have := h1 d List.mem_cons_self
    rw [hc d hin] at this
    cases this

/-- The form of `%#x`. -/
theorem ufuncOf_hex (h : ReadsBase fl 0) (hw : w = 16 ∨ w = 32 ∨ w = 64) (hn : n < 2 ^ w)
    (h0 : n ≠ 0) (pos : Nat) :
    ufuncOf w fl pos (([0x30, 0x78] ++ addFmtNum false 16 n).map some) =
      ⟨n, ([0x30, 0x78] ++ addFmtNum false 16 n).length, .none⟩ := by
  obtain ⟨c, cs, e, hc⟩ := addFmtNum_head (show 2 ≤ 16 by decide) (by decide) h0
  have hx : spanOf [0x78, 0x58] ((0x78 :: addFmtNum false 16 n).map some) = 1 :=
    spanOf_one.mpr ⟨0x78, _, rfl, by simp,
      notAmong_addFmtNum (by simp) (by simp) n (by simp [asciiDigit])⟩
  have hz : spanOf [0x30] ((addFmtNum false 16 n).map some) = 0 := by
    refine (spanOf_zero fun c' hc' hin => ?_).symm
    rw [e] at hc'
    obtain rfl := Option.some.inj (Option.some.inj hc')
    exact hc (List.mem_singleton.mp hin)
  have hlen : (addFmtNum false 16 n).length ≠ 0 := by
    rw [e]
    exact Nat.succ_ne_zero _
  refine ufuncOf_prefixed (pos + 1 + 1) (by decide) (by decide) hw hn ?_
  rw [show [0x30, 0x78] ++ addFmtNum false 16 n = 0x30 :: 0x78 :: addFmtNum false 16 n from rfl,
    numBegOf_auto h (by decide)]
  unfold prefixOf letterOf parseNumZeros
  rw [hx, if_neg (by simp), if_neg (by decide), if_pos rfl, List.map_cons, List.length_cons,
    Nat.add_sub_cancel, List.length_map, if_neg hlen, List.drop_one, List.tail_cons, hz,
    if_neg (by simp), if_neg (by omega), if_pos h.base]
  rfl

/-- The form of `%#o`. -/
theorem ufuncOf_oct (h : ReadsBase fl 0) (hw : w = 16 ∨ w = 32 ∨ w = 64) (hn : n < 2 ^ w)
    (h0 : n ≠ 0) (pos : Nat) :
    ufuncOf w fl pos (([0x30] ++ addFmtNum false 8 n).map some) =
      ⟨n, ([0x30] ++ addFmtNum false 8 n).length, .none⟩ := by
  obtain ⟨c, cs, e, hc⟩ := addFmtNum_head (show 2 ≤ 8 by decide) (by decide) h0
  have hx : 0 = spanOf [0x78, 0x58] ((addFmtNum false 8 n).map some) :=
    spanOf_zero (notAmong_addFmtNum (by simp) (by simp) n (by simp [asciiDigit]))
  have hb : 0 = spanOf [0x62, 0x42] ((addFmtNum false 8 n).map some) :=
    spanOf_zero (notAmong_addFmtNum (by simp) (by simp) n (by simp [asciiDigit]))
  have hlen : (addFmtNum false 8 n).length ≠ 0 := by
    rw [e]
    exact Nat.succ_ne_zero _
  refine ufuncOf_prefixed (pos + 1) (by decide) (by decide) hw hn ?_
  rw [show [0x30] ++ addFmtNum false 8 n = 0x30 :: c :: cs by rw [e]; rfl, numBegOf_auto h hc, ← e]
  unfold prefixOf parseNumZeros
  rw [← hx, ← hb, List.length_map, if_neg hlen, if_neg (by decide), if_neg (by decide),
    if_neg (by decide), if_neg (by decide), if_pos h.base, if_neg (by simp), if_neg (by omega)]
  rfl

/-! ## Printing -/

/-- The length modifier of a type. -/
def modifier : NumType → List UInt8
  | .short | .ushort => [0x68]
  | .int | .uint => []
  | .long | .ulong => [0x6C]
  | .intmax | .uintmax => [0x6A]

/-- The argument type of a modifier. -/
def intTypeOf : NumType → IntType
  | .short | .ushort => .ushort
  | .int | .uint => .uint
  | .long | .ulong => .ulong
  | .intmax | .uintmax => .uintmaxT

theorem width_intTypeOf (T : NumType) :
    (intTypeOf T).width = T.width ∧ intTypeOf T ≠ .ptrdiffT := by
  cases T <;> exact ⟨rfl, by decide⟩

/-- A way to print a number. -/
inductive Print where
  /-- `%d` or `%u`, with the modifier of the type. -/
  | decimal
  /-- `%#x`, with the modifier of the type. -/
  | hex
  /-- `%#o`, with the modifier of the type. -/
  | oct
  /-- `vstr_sc_conv_num_*` in a base, into a buffer. -/
  | conv (numBase len : Nat)
  deriving DecidableEq, Repr

/-- The text of a number. -/
def Print.text (T : NumType) (v : Int) : Print → List UInt8
  | decimal => addFmtInt (modifier T ++ [if T.signed then 0x64 else 0x75]) v
  | hex => addFmtInt (0x23 :: (modifier T ++ [0x78])) v
  | oct => addFmtInt (0x23 :: (modifier T ++ [0x6F])) v
  | conv numBase len => (scConvNum len v.toNat numBase).2

/-- The base that the text is parsed in; 0 for the base of its prefix. -/
def Print.base : Print → Nat
  | decimal => 10
  | hex => 0
  | oct => 0
  | conv numBase _ => numBase

/-- The ways that there are for a type: prefixes and bases are for unsigned types, and the
buffer has room for the digits of the number and the zero byte behind them. -/
def Print.Has (T : NumType) (v : Int) : Print → Prop
  | decimal => True
  | hex => T.signed = false
  | oct => T.signed = false
  | conv numBase len => T.signed = false ∧ 2 ≤ numBase ∧ numBase ≤ 36 ∧
    2 ≤ len ∧ v.toNat < numBase ^ (len - 1)

/-- What `vstr_sc_conv_num_*` returns: the number of characters, and there are some. -/
def Print.Succeeds (T : NumType) (v : Int) : Print → Prop
  | conv numBase len => (scConvNum len v.toNat numBase).1 =
      ((Print.conv numBase len).text T v).length ∧ (Print.conv numBase len).text T v ≠ []
  | _ => True

/-- A spec without field width, precision and flags for the layout. -/
def plainSpec (data : Nat) (code : UInt8) (numBase : Nat) (intType : IntType)
    (sign special numIsZero numIsNegative : Bool) : FmtSpec :=
  { fmtInitSpec with
    data := data
    fmtCode := code
    numBase := numBase
    intType := intType
    sign := sign
    special := special
    numIsZero := numIsZero
    numIsNegative := numIsNegative }

theorem addFmtNum_zero (b : Nat) : addFmtNum false b 0 = [] := by
  unfold addFmtNum
  rw [Nat.digits_zero]
  rfl

theorem addFmtNum_ne_nil (b : Nat) (hn : n ≠ 0) : addFmtNum false b n ≠ [] := by
  unfold addFmtNum
  simpa [Nat.digits_eq_nil_iff_eq_zero] using hn

/-- A number that fits its type is the one that is printed. -/
theorem fmtMember_plain {ty : IntType} (ht : ty ≠ .ptrdiffT) (hn : n < 2 ^ ty.width)
    (code : UInt8) (b : Nat) (sign special zero neg : Bool) :
    fmtMember (plainSpec n code b ty sign special zero neg) = n := by
  unfold fmtMember plainSpec
  rw [if_neg ht]
  exact Nat.mod_eq_of_lt hn

/-- Without a field width there is none. -/
theorem fmtSignWidth_plain (n : Nat) (code : UInt8) (b : Nat) (ty : IntType)
    (sign special zero neg : Bool) :
    fmtSignWidth (plainSpec n code b ty sign special zero neg) = 0 := by
  cases sign <;> cases neg <;> rfl

/-- The pieces of a number without a prefix. -/
theorem addFmtNumber_plain {ty : IntType} (ht : ty ≠ .ptrdiffT) (hlt : n < 2 ^ ty.width)
    (code : UInt8) (b : Nat) (sign neg : Bool) :
    (addFmtNumber (plainSpec n code b ty sign false (n = 0) neg)).flatMap FmtPiece.text =
      (if sign ∧ neg then [0x2D] else []) ++ numChrs b n := by
  unfold addFmtNumber
  rw [fmtMember_plain ht hlt, fmtSignWidth_plain]
  unfold plainSpec fmtSign fmtInitSpec numChrs
  dsimp only
  by_cases hn : n = 0
  · subst hn
    cases sign <;> cases neg <;> simp [addFmtNum_zero, FmtPiece.text]
  · have h1 := addFmtNum_ne_nil b hn
    cases sign <;> cases neg <;> simp [h1, hn, FmtPiece.text]

/-- The pieces of `%#x`. -/
theorem addFmtNumber_hex {ty : IntType} (ht : ty ≠ .ptrdiffT) (hlt : n < 2 ^ ty.width)
    (code : UInt8) (neg : Bool) :
    (addFmtNumber (plainSpec n code 16 ty false true (n = 0) neg)).flatMap FmtPiece.text =
      if n = 0 then [0x30] else [0x30, 0x78] ++ addFmtNum false 16 n := by
  have hchr : chrsBase false 33 = 0x78 := by decide
  unfold addFmtNumber
  rw [fmtMember_plain ht hlt, fmtSignWidth_plain]
  unfold plainSpec fmtSign fmtInitSpec
  dsimp only
  by_cases hn : n = 0
  · subst hn
    simp [addFmtNum_zero, FmtPiece.text]
  · simp [addFmtNum_ne_nil 16 hn, hn, hchr, FmtPiece.text]

/-- The pieces of `%#o`. -/
theorem addFmtNumber_oct {ty : IntType} (ht : ty ≠ .ptrdiffT) (hlt : n < 2 ^ ty.width)
    (code : UInt8) (neg : Bool) :
    (addFmtNumber (plainSpec n code 8 ty false true (n = 0) neg)).flatMap FmtPiece.text =
      if n = 0 then [0x30] else [0x30] ++ addFmtNum false 8 n := by
  unfold addFmtNumber
  rw [fmtMember_plain ht hlt, fmtSignWidth_plain]
  unfold plainSpec fmtSign fmtInitSpec
  dsimp only
  by_cases hn : n = 0
  · subst hn
    simp [addFmtNum_zero, FmtPiece.text]
  · have h2 : 1 ≤ (addFmtNum false 8 n).length :=
      List.length_pos_iff.mpr (addFmtNum_ne_nil 8 hn)
    simp [addFmtNum_ne_nil 8 hn, h2, hn, FmtPiece.text]

/-- A signed number of a type as an argument. -/
theorem signedArg_of_holds {T : NumType} (hs : T.signed = true) {v : Int} (hv : T.Holds v) :
    signedArg (intTypeOf T).width v = v := by
  rw [NumType.Holds, if_pos hs] at hv
  rw [(width_intTypeOf T).1]
  unfold signedArg
  refine Int.bmod_eq_of_le_mul_two ?_ ?_
  all_goals
    rcases T.width_cases with hw | hw | hw <;> rw [hw] at hv ⊢ <;> norm_num at hv ⊢ <;> omega

/-- A number with a flag or none, and its argument. -/
def plainDirective (ty : IntType) (conv : Conv) (flags : List Flag) (v : Int) : Directive Int :=
  { main := v, flags := flags, width := .none, prec := .none, intType := ty, conv := conv }

/-- The spec of a number with its argument. -/
theorem printed_plain {ty : IntType} (ht : ty ≠ .ptrdiffT) {conv : Conv} (hc : conv ≠ .hexLarge)
    (special : Bool) (v : Int) (n : Nat) (neg : Bool)
    (hn : n = if conv.signed then (signedArg ty.width v).natAbs else (v % 2 ^ ty.width).toNat)
    (hneg : neg = (conv.signed && signedArg ty.width v < 0)) :
    (plainDirective ty conv (if special then [.special] else []) v).printed =
      plainSpec n conv.chr conv.base ty conv.signed special (n = 0) neg := by
  have hd : ∀ spec : FmtSpec, spec.intType = ty → spec.sign = conv.signed →
      argData spec v = n ∧ argNeg spec v = neg := fun spec h1 h2 => by
    have hs : spec.isSigned ↔ conv.signed = true := by
      unfold FmtSpec.isSigned
      rw [h1, h2]
      simp [ht]
    unfold argData argNeg
    rw [h1, hn, hneg]
    cases hsig : conv.signed with
    | true => simp [hs, hsig]
    | false => simp [hs, hsig]
  obtain ⟨h1, h2⟩ := hd ((plainDirective ty conv (if special then [.special] else []) v).map
    (signedArg 32)).layout rfl rfl
  unfold Directive.printed setMain
  dsimp only
  rw [show (plainDirective ty conv (if special then [Flag.special] else []) v).main = v from rfl,
    h1, h2]
  unfold plainDirective plainSpec Directive.layout
  cases special <;> simp [Directive.map, Directive.spec, Amount.map, fmtInitSpec, hc, ht]

/-- A call with a format that is one number without field width and precision. -/
theorem addFmtInt_eq (ty : IntType) (conv : Conv) (flags : List Flag) (v : Int) :
    addFmtInt (flags.map Flag.chr ++ ty.text ++ [conv.chr]) v =
      (plainDirective ty conv flags v).added := by
  have h := addFmt_next ⟨[], [(plainDirective ty conv flags v, [])]⟩
  have ht : (Format.next ⟨[], [(plainDirective ty conv flags v, [])]⟩).text =
      0x25 :: (flags.map Flag.chr ++ ty.text ++ [conv.chr]) := by
    simp [Format.next, Format.map, Format.text, Directive.text, plainDirective, Directive.map,
      Amount.map, nameText, widthText, precText, escape, Directive.code]
  have ha : Format.added ⟨[], [(plainDirective ty conv flags v, [])]⟩ =
      (plainDirective ty conv flags v).added := by
    simp [Format.added, Format.withTexts]
  rw [ht, ha] at h
  unfold addFmtInt
  rw [show [v] = Format.args ⟨[], [(plainDirective ty conv flags v, [])]⟩ from rfl, h]
  rfl

/-- An unsigned number of a type as an argument. -/
theorem unsignedArg_of_holds {T : NumType} (hs : T.signed = false) {v : Int} (hv : T.Holds v) :
    (v % 2 ^ (intTypeOf T).width).toNat = v.toNat ∧ 0 ≤ v ∧ v.toNat < 2 ^ (intTypeOf T).width := by
  rw [NumType.Holds, if_neg (by simp [hs])] at hv
  rw [(width_intTypeOf T).1, Int.emod_eq_of_lt hv.1 hv.2]
  refine ⟨rfl, hv.1, ?_⟩
  zify
  rw [Int.toNat_of_nonneg hv.1]
  exact hv.2

/-- The absolute value of a signed number fits its type. -/
theorem natAbs_lt_of_holds {T : NumType} (hs : T.signed = true) {v : Int} (hv : T.Holds v) :
    v.natAbs < 2 ^ (intTypeOf T).width := by
  rw [NumType.Holds, if_pos hs] at hv
  rw [(width_intTypeOf T).1]
  rcases T.width_cases with hw | hw | hw <;> rw [hw] at hv ⊢ <;> norm_num at hv ⊢ <;> omega

theorem modifier_eq (T : NumType) : modifier T = (intTypeOf T).text := by
  cases T <;> rfl

/-- The text of a number in decimal. -/
theorem decimal_text {T : NumType} {v : Int} (hv : T.Holds v) :
    Print.decimal.text T v = (if v < 0 then [0x2D] else []) ++ numChrs 10 v.natAbs := by
  have hp := (width_intTypeOf T).2
  unfold Print.text
  rw [modifier_eq]
  by_cases hs : T.signed = true
  · have hv' := signedArg_of_holds hs hv
    have h := addFmtInt_eq (intTypeOf T) .dec [] v
    rw [if_pos hs]
    have hpr : (plainDirective (intTypeOf T) .dec [] v).printed = _ :=
      printed_plain hp (by decide) false v v.natAbs (decide (v < 0)) (by rw [hv']; rfl)
        (by rw [hv']; rfl)
    have hadd := addFmtNumber_plain hp (natAbs_lt_of_holds hs hv) Conv.dec.chr Conv.dec.base
      Conv.dec.signed (decide (v < 0))
    refine h.trans ?_
    unfold Directive.added
    rw [hpr]
    refine hadd.trans ?_
    simp [Conv.signed, Conv.base]
  · have hs' : T.signed = false := by simpa using hs
    obtain ⟨hv', h0, hlt⟩ := unsignedArg_of_holds hs' hv
    have h := addFmtInt_eq (intTypeOf T) .udec [] v
    rw [if_neg hs]
    have hpr : (plainDirective (intTypeOf T) .udec [] v).printed = _ :=
      printed_plain hp (by decide) false v v.toNat false hv'.symm rfl
    have hadd := addFmtNumber_plain hp hlt Conv.udec.chr Conv.udec.base Conv.udec.signed false
    refine h.trans ?_
    unfold Directive.added
    rw [hpr]
    refine hadd.trans ?_
    rw [if_neg (by simp [Conv.signed]), if_neg (by omega), show v.natAbs = v.toNat by omega]
    rfl

/-- The text of an unsigned number with a prefix. -/
theorem prefixed_text {T : NumType} (hs : T.signed = false) {v : Int} (hv : T.Holds v) :
    Print.hex.text T v = (if v.toNat = 0 then [0x30] else
      [0x30, 0x78] ++ addFmtNum false 16 v.toNat) ∧
    Print.oct.text T v = (if v.toNat = 0 then [0x30] else
      [0x30] ++ addFmtNum false 8 v.toNat) := by
  have hp := (width_intTypeOf T).2
  obtain ⟨hv', h0, hlt⟩ := unsignedArg_of_holds hs hv
  unfold Print.text
  rw [modifier_eq]
  refine ⟨(addFmtInt_eq (intTypeOf T) .hex [.special] v).trans ?_,
    (addFmtInt_eq (intTypeOf T) .oct [.special] v).trans ?_⟩
  · have hpr : (plainDirective (intTypeOf T) .hex [.special] v).printed = _ :=
      printed_plain hp (by decide) true v v.toNat false hv'.symm rfl
    unfold Directive.added
    rw [hpr]
    exact addFmtNumber_hex hp hlt _ _
  · have hpr : (plainDirective (intTypeOf T) .oct [.special] v).printed = _ :=
      printed_plain hp (by decide) true v v.toNat false hv'.symm rfl
    unfold Directive.added
    rw [hpr]
    exact addFmtNumber_oct hp hlt _ _

/-- A buffer that has room for the digits gets the text. -/
theorem scConvNum_room {len v b : Nat} (hb : 2 ≤ b) (hl : 2 ≤ len) (hv : v < b ^ (len - 1)) :
    scConvNum len v b = ((numChrs b v).length, numChrs b v) := by
  unfold scConvNum numChrs
  rw [if_neg (by omega), if_neg (by omega)]
  by_cases h0 : v = 0
  · rw [if_pos h0, if_pos h0]
    rfl
  · have hlen : (addFmtNum false b v).length ≤ len - 1 := by
      unfold addFmtNum
      rw [List.length_map, List.length_reverse]
      exact (Nat.digits_length_le_iff (by omega) v).mpr hv
    rw [if_neg h0, if_neg h0]
    dsimp only
    rw [if_neg (by omega)]

/-- `vstr_sc_conv_num_*` succeeds. -/
theorem Print.Has.succeeds {T : NumType} {v : Int} {m : Print} (hm : m.Has T v) :
    m.Succeeds T v := by
  cases m with
  | decimal => trivial
  | hex => trivial
  | oct => trivial
  | conv numBase len =>
    obtain ⟨-, hb, hb', hl, hv⟩ := hm
    have h := scConvNum_room hb hl hv
    change (scConvNum len v.toNat numBase).1 = (scConvNum len v.toNat numBase).2.length ∧
      (scConvNum len v.toNat numBase).2 ≠ []
    rw [h]
    exact ⟨rfl, (numChrs_digits hb hb' false _).2.2.1⟩

/-- What the parser of an unsigned type makes of the text of a number. -/
theorem parseOf_unsigned {T : NumType} (hs : T.signed = false) {v : Int} (hv : T.Holds v)
    {m : Print} (hm : m.Has T v) (h : ReadsBase fl m.base) (pos : Nat) :
    ufuncOf T.width fl pos ((m.text T v).map some) = ⟨v.toNat, (m.text T v).length, .none⟩ := by
  have hlt : v.toNat < 2 ^ T.width ∧ 0 ≤ v := by
    rw [NumType.Holds, if_neg (by simp [hs])] at hv
    refine ⟨?_, hv.1⟩
    have h2 := hv.2
    zify
    rw [Int.toNat_of_nonneg hv.1]
    exact h2
  cases m with
  | decimal =>
    have hd := decimal_text hv
    rw [if_neg (by omega), List.nil_append, show v.natAbs = v.toNat by omega] at hd
    rw [hd]
    exact ufuncOf_numChrs h (by decide) (by decide) T.width_cases hlt.1 pos
  | hex =>
    rw [(prefixed_text hs hv).1]
    by_cases h0 : v.toNat = 0
    · rw [if_pos h0, h0]
      exact ufuncOf_auto_zero h _ pos
    · rw [if_neg h0]
      exact ufuncOf_hex h T.width_cases hlt.1 h0 pos
  | oct =>
    rw [(prefixed_text hs hv).2]
    by_cases h0 : v.toNat = 0
    · rw [if_pos h0, h0]
      exact ufuncOf_auto_zero h _ pos
    · rw [if_neg h0]
      exact ufuncOf_oct h T.width_cases hlt.1 h0 pos
  | conv numBase len =>
    obtain ⟨-, hb, hb', hl, hroom⟩ := hm
    have ht : (Print.conv numBase len).text T v = numChrs numBase v.toNat :=
      congrArg Prod.snd (scConvNum_room hb hl hroom)
    rw [ht]
    exact ufuncOf_numChrs h hb hb' T.width_cases hlt.1 pos

/-- The parsers of all types, on the texts that numbers are printed as. -/
theorem parse_printed {T : NumType} {v : Int} (hv : T.Holds v) {m : Print} (hm : m.Has T v)
    (h : ReadsBase fl m.base)
    (wd : Window E P s pos (m.text T v).length ((m.text T v).map some)) :
    (T.parse fl pos (m.text T v).length s).1 = ⟨v, (m.text T v).length, .none⟩ := by
  have hy : (T.parse fl pos (m.text T v).length s).1 = T.parseOf fl pos ((m.text T v).map some) :=
    (parse_yields wd T fl).1
  rw [hy]
  unfold NumType.parseOf
  by_cases hs : T.signed = true
  · have hdec : m = .decimal := by
      cases m with
      | decimal => rfl
      | hex => exact absurd hm (by simp [Print.Has, hs])
      | oct => exact absurd hm (by simp [Print.Has, hs])
      | conv numBase len => exact absurd hm.1 (by simp [hs])
    subst hdec
    have hrange := hv
    rw [NumType.Holds, if_pos hs] at hrange
    have hle : v.natAbs ≤ 2 ^ (T.width - 1) - 1 + (decide (v < 0)).toNat := by
      by_cases h0 : v < 0
      · rw [decide_eq_true h0, Bool.toNat_true]
        rcases T.width_cases with hw | hw | hw <;> rw [hw] at hrange ⊢ <;>
          norm_num at hrange ⊢ <;> omega
      · rw [decide_eq_false h0, Bool.toNat_false]
        rcases T.width_cases with hw | hw | hw <;> rw [hw] at hrange ⊢ <;>
          norm_num at hrange ⊢ <;> omega
    have hsf := sfuncOf_numChrs h T.width_cases (decide (v < 0)) hle
      (fun h0 => by
        have := of_decide_eq_true h0
        omega) pos
    have htext : Print.decimal.text T v =
        (if decide (v < 0) = true then [0x2D] else []) ++ numChrs 10 v.natAbs := by
      rw [decimal_text hv]
      simp
    rw [if_pos hs, htext, hsf]
    by_cases h0 : v < 0
    · rw [decide_eq_true h0]
      refine ParsedInt.ext ?_ ?_ rfl
      · change -(v.natAbs : Int) = v
        omega
      · rw [List.length_append]
        rfl
    · rw [decide_eq_false h0]
      refine ParsedInt.ext ?_ ?_ rfl
      · change (v.natAbs : Int) = v
        omega
      · rw [List.length_append]
        rfl
  · have hs' : T.signed = false := by simpa using hs
    have h0 : 0 ≤ v := by
      rw [NumType.Holds, if_neg hs] at hv
      exact hv.1
    rw [if_neg hs, parseOf_unsigned hs' hv hm h pos]
    refine ParsedInt.ext ?_ rfl rfl
    exact Int.toNat_of_nonneg h0

/-- **Printing and parsing.** Every number of every type is printed, in a buffer that has room
for it, and parsed from its text again, wherever the text is in a string and however it is cut
into nodes. -/
theorem print_parse {T : NumType} {v : Int} (hv : T.Holds v) {m : Print} (hm : m.Has T v)
    (h : ReadsBase fl m.base)
    (wd : Window E P s pos (m.text T v).length ((m.text T v).map some)) :
    m.Succeeds T v ∧
      (T.parse fl pos (m.text T v).length s).1 = ⟨v, (m.text T v).length, .none⟩ :=
  ⟨hm.succeeds, parse_printed hv hm h wd⟩

/-- Flags that ask for a base and for overflows. -/
def overflowIn (base : Nat) : ParseNumFlags where
  base := base
  loc := false
  sep := false
  overflow := true
  space := false
  noBegZero := false
  noBegPm := false

/-- The least `short`, a number with the digit `b` behind a prefix, and the greatest `ulong` in
base 36 in a buffer without a byte to spare. -/
theorem print_parse_extremes :
    (Print.decimal.text .short (-32768) = [0x2D, 0x33, 0x32, 0x37, 0x36, 0x38] ∧
      (NumType.short.parse (overflowIn 10) 1 (Print.decimal.text .short (-32768)).length
        (written (Print.decimal.text .short (-32768)))).1 = ⟨-32768, 6, .none⟩) ∧
    (Print.hex.text .uint 177 = [0x30, 0x78, 0x62, 0x31] ∧
      (NumType.uint.parse (overflowIn 0) 1 (Print.hex.text .uint 177).length
        (written (Print.hex.text .uint 177))).1 = ⟨177, 4, .none⟩) ∧
    (scConvNum 14 18446744073709551615 36).1 = 13 ∧
      (NumType.ulong.parse (overflowIn 36) 1
        ((Print.conv 36 14).text .ulong 18446744073709551615).length
        (written ((Print.conv 36 14).text .ulong 18446744073709551615))).1 =
          ⟨18446744073709551615, 13, .none⟩ := by
  have hs : NumType.short.Holds (-32768) := by
    unfold NumType.Holds
    decide
  have hu : NumType.uint.Holds 177 := by
    unfold NumType.Holds
    decide
  have hl : NumType.ulong.Holds 18446744073709551615 := by
    unfold NumType.Holds
    decide
  have hroom : (Print.conv 36 14).Has .ulong 18446744073709551615 :=
    ⟨rfl, by decide, by decide, by decide, by decide⟩
  have h10 : ReadsBase (overflowIn 10) 10 := ⟨rfl, rfl, rfl, rfl⟩
  have h0 : ReadsBase (overflowIn 0) 0 := ⟨rfl, rfl, rfl, rfl⟩
  have h36 : ReadsBase (overflowIn 36) 36 := ⟨rfl, rfl, rfl, rfl⟩
  have hdec : Print.decimal.text .short (-32768) = [0x2D, 0x33, 0x32, 0x37, 0x36, 0x38] := by
    rw [decimal_text hs]
    norm_num [numChrs, addFmtNum]
    decide
  have hhex : Print.hex.text .uint 177 = [0x30, 0x78, 0x62, 0x31] := by
    rw [(prefixed_text rfl hu).1]
    norm_num [addFmtNum]
    decide
  have hconv : ((Print.conv 36 14).text .ulong 18446744073709551615).length = 13 := by
    have h : (Print.conv 36 14).text .ulong 18446744073709551615 =
        numChrs 36 18446744073709551615 :=
      congrArg Prod.snd (scConvNum_room (by decide) (by decide) (by decide))
    rw [h]
    norm_num [numChrs, addFmtNum]
  obtain ⟨P, wd⟩ := window_text (Print.decimal.text .short (-32768))
  obtain ⟨P', wd'⟩ := window_text (Print.hex.text .uint 177)
  obtain ⟨P'', wd''⟩ := window_text ((Print.conv 36 14).text .ulong 18446744073709551615)
  have h1 := print_parse hs (m := .decimal) trivial h10 wd
  have h2 := print_parse hu (m := .hex) rfl h0 wd'
  obtain ⟨hret, h3⟩ := print_parse hl (m := .conv 36 14) hroom h36 wd''
  refine ⟨⟨hdec, h1.2.trans ?_⟩, ⟨hhex, h2.2.trans ?_⟩, ?_, h3.trans ?_⟩
  · rw [hdec]
    rfl
  · rw [hhex]
    rfl
  · exact hret.1.trans hconv
  · rw [hconv]

end Vstr.Fmt
