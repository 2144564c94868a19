import Vstr.Fmt.Read

/-!
# The arguments of a format

The rounds of `vstr__fmt_fillin_spec` in closed form: every argument is taken by the first spec
that names it, and the later specs get a copy of what the first one has made of it.
-/

namespace Vstr.Fmt

variable {i j k N c : Nat} {u : Nat → Option Nat} {x : Nat → Int} {spec : FmtSpec} {args : List Int}

/-! ## One spec -/

/-- An argument as an `int`. -/
def rawInt (x : Int) : Nat := (x % 2 ^ 32).toNat

/-- The parameters of a spec. -/
def FmtSpec.params (spec : FmtSpec) : List Nat :=
  [spec.fieldWidthParam, spec.precisionParam, spec.mainParam]

/-- The number that is looked at as a signed one. -/
def FmtSpec.isSigned (spec : FmtSpec) : Prop := spec.sign = true ∨ spec.intType = .ptrdiffT

instance (spec : FmtSpec) : Decidable spec.isSigned := inferInstanceAs (Decidable (_ ∨ _))

/-- The argument in a signed type of `w` bits. -/
@[irreducible] def signedArg (w : Nat) (x : Int) : Int := Int.bmod x (2 ^ w)

/-- What is made of an argument. -/
def argData (spec : FmtSpec) (x : Int) : Nat :=
  if spec.isSigned then (signedArg spec.intType.width x).natAbs
  else (x % 2 ^ spec.intType.width).toNat

/-- Whether the argument is negative. -/
def argNeg (spec : FmtSpec) (x : Int) : Bool :=
  spec.isSigned && signedArg spec.intType.width x < 0

theorem signedArg_bounds (w : Nat) (x : Int) :
    -(2 ^ w) < 2 * signedArg w x + 1 ∧ 2 * signedArg w x < 2 ^ w := by
  have hm : 0 < 2 ^ w := Nat.two_pow_pos w
  have h1 := Int.le_bmod (x := x) hm
  have h2 := Int.bmod_lt (x := x) hm
  unfold signedArg
  push_cast at h1 h2 ⊢
  omega

/-- The absolute value in an unsigned type. -/
theorem absNum_eq {m s : Int} (h1 : -m < s) (h2 : s < m) :
    (s < 0 → (-(s % m) % m).toNat = s.natAbs) ∧ (¬ s < 0 → (s % m).toNat = s.natAbs) := by
  refine ⟨fun h => ?_, fun h => ?_⟩
  · have e : s % m = s + m := by
      rw [← Int.add_emod_right, Int.emod_eq_of_lt (by omega) (by omega)]
    rw [e, ← Int.add_emod_right, show -(s + m) + m = -s by omega,
      Int.emod_eq_of_lt (by omega) (by omega)]
    omega
  · rw [Int.emod_eq_of_lt (by omega) h2]
    omega

/-- `VSTR__FMT_ABS_NUM` in closed form. -/
theorem fmtAbsNum_eq (spec : FmtSpec) {w : Nat} {s : Int} (h1 : -(2 ^ w) < s) (h2 : s < 2 ^ w) :
    fmtAbsNum spec w s =
      { spec with data := s.natAbs, numIsNegative := spec.numIsNegative || s < 0 } := by
  obtain ⟨hneg, hpos⟩ := absNum_eq h1 h2
  unfold fmtAbsNum
  by_cases h : s < 0
  · rw [if_pos h, hneg h, decide_eq_true h, Bool.or_true]
  · rw [if_neg h, hpos h, decide_eq_false h, Bool.or_false]

/-- `VSTR__FMT_ARG_NUM` in closed form. -/
theorem fmtArgNum_eq (spec : FmtSpec) (x : Int) :
    fmtArgNum spec x = { spec with
      data := argData spec x
      numIsZero := argData spec x = 0
      numIsNegative := spec.numIsNegative || argNeg spec x
      intType := if spec.intType = .ptrdiffT then .uintmaxT else spec.intType } := by
  have hb := signedArg_bounds spec.intType.width x
  have h := fmtAbsNum_eq spec (w := spec.intType.width) (s := signedArg spec.intType.width x)
    (by omega) (by omega)
  unfold fmtArgNum argData argNeg
  dsimp only
  by_cases hs : spec.isSigned
  · rw [if_pos hs, if_pos (show spec.sign = true ∨ spec.intType = .ptrdiffT from hs),
      decide_eq_true hs, Bool.true_and]
    rw [show x.bmod (2 ^ spec.intType.width) = signedArg spec.intType.width x by rw [signedArg],
      h]
  · rw [if_neg hs, if_neg (show ¬ (spec.sign = true ∨ spec.intType = .ptrdiffT) from hs),
      decide_eq_false hs, Bool.false_and, Bool.or_false]

/-! ## What is set -/

/-- The field width for an `int`. -/
def setWidth (spec : FmtSpec) (t : Int) : FmtSpec :=
  if t < 0 then { spec with left := true, fieldWidth := (-t).toNat, fieldWidthParam := 0 }
  else { spec with fieldWidth := t.toNat, fieldWidthParam := 0 }

/-- The precision for an `int`. -/
def setPrecision (spec : FmtSpec) (t : Int) : FmtSpec :=
  if t < 0 then { spec with precUsr := false, precisionParam := 0 }
  else { spec with precision := t.toNat, precisionParam := 0 }

/-- The number of a spec, from what has been made of its argument before. -/
def setMain (spec : FmtSpec) (t : Option Nat) (x : Int) : FmtSpec :=
  match t with
  | some u => { spec with data := u, mainParam := 0 }
  | none => { spec with
      data := argData spec x
      numIsZero := argData spec x = 0
      numIsNegative := spec.numIsNegative || argNeg spec x
      intType := if spec.intType = .ptrdiffT then .uintmaxT else spec.intType
      mainParam := 0 }

theorem fillWidth_eq (spec : FmtSpec) (v : Nat) :
    fillWidth spec v = setWidth spec (signedArg 32 v) := by
  rw [signedArg]
  rfl

theorem fillPrecision_eq (spec : FmtSpec) (v : Nat) :
    fillPrecision spec v = setPrecision spec (signedArg 32 v) := by
  rw [signedArg]
  rfl

theorem setWidth_fields (spec : FmtSpec) (t : Int) :
    (setWidth spec t).fieldWidthParam = 0 ∧
      (setWidth spec t).precisionParam = spec.precisionParam ∧
      (setWidth spec t).mainParam = spec.mainParam := by
  unfold setWidth
  split <;> exact ⟨rfl, rfl, rfl⟩

theorem setPrecision_fields (spec : FmtSpec) (t : Int) :
    (setPrecision spec t).fieldWidthParam = spec.fieldWidthParam ∧
      (setPrecision spec t).precisionParam = 0 ∧
      (setPrecision spec t).mainParam = spec.mainParam := by
  unfold setPrecision
  split <;> exact ⟨rfl, rfl, rfl⟩

theorem setMain_fields (spec : FmtSpec) (t : Option Nat) (x : Int) :
    (setMain spec t x).fieldWidthParam = spec.fieldWidthParam ∧
      (setMain spec t x).precisionParam = spec.precisionParam ∧
      (setMain spec t x).mainParam = 0 := by
  cases t <;> exact ⟨rfl, rfl, rfl⟩

theorem setWidth_arg (spec : FmtSpec) (t x : Int) :
    argData (setWidth spec t) x = argData spec x ∧ argNeg (setWidth spec t) x = argNeg spec x := by
  unfold setWidth
  split <;> exact ⟨rfl, rfl⟩

theorem setPrecision_arg (spec : FmtSpec) (t x : Int) :
    argData (setPrecision spec t) x = argData spec x ∧
      argNeg (setPrecision spec t) x = argNeg spec x := by
  unfold setPrecision
  split <;> exact ⟨rfl, rfl⟩

theorem setWidth_setPrecision (spec : FmtSpec) (t t' : Int) :
    setWidth (setPrecision spec t) t' = setPrecision (setWidth spec t') t := by
  unfold setWidth setPrecision
  split <;> split <;> rfl

theorem setWidth_setMain (spec : FmtSpec) (t : Int) (t' : Option Nat) (x : Int) :
    setWidth (setMain spec t' x) t = setMain (setWidth spec t) t' x := by
  cases t' with
  | some u =>
    unfold setWidth setMain
    dsimp only
    split <;> rfl
  | none =>
    unfold setMain
    dsimp only
    rw [(setWidth_arg spec t x).1, (setWidth_arg spec t x).2]
    unfold setWidth
    split <;> rfl

theorem setPrecision_setMain (spec : FmtSpec) (t : Int) (t' : Option Nat) (x : Int) :
    setPrecision (setMain spec t' x) t = setMain (setPrecision spec t) t' x := by
  cases t' with
  | some u =>
    unfold setPrecision setMain
    dsimp only
    split <;> rfl
  | none =>
    unfold setMain
    dsimp only
    rw [(setPrecision_arg spec t x).1, (setPrecision_arg spec t x).2]
    unfold setPrecision
    split <;> rfl

/-! ## One spec -/

/-- What a spec makes of an argument that it is the first to name. -/
def FmtSpec.takes (spec : FmtSpec) (c : Nat) (x : Int) : Option Nat :=
  if c = spec.fieldWidthParam ∨ c = spec.precisionParam then some (rawInt x)
  else if c = spec.mainParam then some (argData spec x) else none

/-- A field width or a precision, from what has been made of its argument before. -/
def intTaken (u : Nat → Option Nat) (x : Nat → Int) (c : Nat) : Int :=
  signedArg 32 ((u c).getD (rawInt (x c)))

/-- What has been made of the number of a spec before, also by the field width and the precision
of the spec itself. -/
def mainTaken (u : Nat → Option Nat) (x : Nat → Int) (spec : FmtSpec) : Option Nat :=
  (u spec.mainParam).or (if spec.mainParam = spec.fieldWidthParam ∨
    spec.mainParam = spec.precisionParam then some (rawInt (x spec.mainParam)) else none)

/-- The field width of a spec, if its parameter is up to `k`. -/
def widthUpTo (k : Nat) (u : Nat → Option Nat) (x : Nat → Int) (spec s : FmtSpec) : FmtSpec :=
  if 1 ≤ spec.fieldWidthParam ∧ spec.fieldWidthParam ≤ k then
    setWidth s (intTaken u x spec.fieldWidthParam) else s

/-- The precision of a spec, if its parameter is up to `k`. -/
def precUpTo (k : Nat) (u : Nat → Option Nat) (x : Nat → Int) (spec s : FmtSpec) : FmtSpec :=
  if 1 ≤ spec.precisionParam ∧ spec.precisionParam ≤ k then
    setPrecision s (intTaken u x spec.precisionParam) else s

/-- The number of a spec, if its parameter is up to `k`. -/
def mainUpTo (k : Nat) (u : Nat → Option Nat) (x : Nat → Int) (spec s : FmtSpec) : FmtSpec :=
  if 1 ≤ spec.mainParam ∧ spec.mainParam ≤ k then
    setMain s (mainTaken u x spec) (x spec.mainParam) else s

/-- A spec with its arguments, each up to a parameter. -/
def fillTo (i j k : Nat) (u : Nat → Option Nat) (x : Nat → Int) (spec : FmtSpec) : FmtSpec :=
  mainUpTo k u x spec (precUpTo j u x spec (widthUpTo i u x spec spec))

theorem setWidth_mainUpTo (s : FmtSpec) (t : Int) :
    setWidth (mainUpTo k u x spec s) t = mainUpTo k u x spec (setWidth s t) := by
  unfold mainUpTo
  split
  · exact setWidth_setMain _ _ _ _
  · rfl

theorem setWidth_precUpTo (s : FmtSpec) (t : Int) :
    setWidth (precUpTo k u x spec s) t = precUpTo k u x spec (setWidth s t) := by
  unfold precUpTo
  split
  · exact setWidth_setPrecision _ _ _
  · rfl

theorem setPrecision_mainUpTo (s : FmtSpec) (t : Int) :
    setPrecision (mainUpTo k u x spec s) t = mainUpTo k u x spec (setPrecision s t) := by
  unfold mainUpTo
  split
  · exact setPrecision_setMain _ _ _ _
  · rfl

theorem widthUpTo_succ (s : FmtSpec) : widthUpTo (k + 1) u x spec s =
    if k + 1 = spec.fieldWidthParam then setWidth s (intTaken u x (k + 1))
    else widthUpTo k u x spec s := by
  unfold widthUpTo
  by_cases h : k + 1 = spec.fieldWidthParam
  · rw [if_pos h, if_pos (by omega), h]
  · rw [if_neg h]
    exact if_congr (by omega) rfl rfl

theorem precUpTo_succ (s : FmtSpec) : precUpTo (k + 1) u x spec s =
    if k + 1 = spec.precisionParam then setPrecision s (intTaken u x (k + 1))
    else precUpTo k u x spec s := by
  unfold precUpTo
  by_cases h : k + 1 = spec.precisionParam
  · rw [if_pos h, if_pos (by omega), h]
  · rw [if_neg h]
    exact if_congr (by omega) rfl rfl

theorem mainUpTo_succ (s : FmtSpec) : mainUpTo (k + 1) u x spec s =
    if k + 1 = spec.mainParam then setMain s (mainTaken u x spec) (x (k + 1))
    else mainUpTo k u x spec s := by
  unfold mainUpTo
  by_cases h : k + 1 = spec.mainParam
  · rw [if_pos h, if_pos (by omega), h]
  · rw [if_neg h]
    exact if_congr (by omega) rfl rfl

/-- A parameter that is left. -/
def paramLeft (k p : Nat) : Nat := if p ≤ k then 0 else p

theorem paramLeft_of (k p : Nat) : (if 1 ≤ p ∧ p ≤ k then 0 else p) = paramLeft k p := by
  unfold paramLeft
  split <;> split <;> omega

/-- The parameters that are left. -/
theorem fillTo_fields (i j k : Nat) (u : Nat → Option Nat) (x : Nat → Int) (spec : FmtSpec) :
    (fillTo i j k u x spec).fieldWidthParam = paramLeft i spec.fieldWidthParam ∧
      (fillTo i j k u x spec).precisionParam = paramLeft j spec.precisionParam ∧
      (fillTo i j k u x spec).mainParam = paramLeft k spec.mainParam := by
  have hw := setWidth_fields spec (intTaken u x spec.fieldWidthParam)
  have hp : ∀ s, _ := fun s => setPrecision_fields s (intTaken u x spec.precisionParam)
  have hm : ∀ s, _ := fun s => setMain_fields s (mainTaken u x spec) (x spec.mainParam)
  unfold fillTo mainUpTo precUpTo widthUpTo
  rw [← paramLeft_of, ← paramLeft_of, ← paramLeft_of]
  refine ⟨?_, ?_, ?_⟩
  all_goals
    split <;> split <;> split <;> simp [*]

theorem succ_eq_paramLeft (k p : Nat) : k + 1 = paramLeft k p ↔ k + 1 = p := by
  unfold paramLeft
  split <;> omega

/-- The arguments that are left in the round for the parameter `k + 1`, when it has been taken as
`t`. -/
def argsOf (args : List Int) (k : Nat) (t : Option Nat) : FmtArgs :=
  ⟨t, args.drop (if t.isSome then k + 1 else k)⟩

/-- The argument of a parameter. -/
def argAt (args : List Int) (c : Nat) : Int := args.getD (c - 1) 0

theorem argsOf_int (args : List Int) (k : Nat) (t : Option Nat) :
    (argsOf args k t).int = (t.getD (rawInt (argAt args (k + 1))),
      argsOf args k (some (t.getD (rawInt (argAt args (k + 1)))))) := by
  cases t with
  | some v => rfl
  | none =>
    unfold argsOf FmtArgs.int argAt rawInt
    simp [List.headD_eq_head?_getD, List.getD_eq_getElem?_getD, List.tail_drop]

/-- The number of a spec is taken. -/
theorem fillMain_eq (spec : FmtSpec) (args : List Int) (k : Nat) (t : Option Nat) :
    fillMain spec (argsOf args k t) = (setMain spec t (argAt args (k + 1)),
      argsOf args k (some (t.getD (argData spec (argAt args (k + 1)))))) := by
  cases t with
  | some v => rfl
  | none =>
    have hx : (args.drop k).headD 0 = argAt args (k + 1) := by
      unfold argAt
      simp [List.headD_eq_head?_getD, List.getD_eq_getElem?_getD]
    unfold fillMain argsOf
    dsimp only
    rw [if_neg (by simp), hx, fmtArgNum_eq]
    simp [setMain, List.tail_drop]

theorem some_getD (t : Option Nat) (v : Nat) : some (t.getD v) = t.or (some v) := by
  cases t <;> rfl

/-- The field width in the round for the parameter `k + 1`. -/
theorem fillWidth_step (args : List Int) (t : Option Nat) (ht : u (k + 1) = t)
    (hx : x (k + 1) = argAt args (k + 1)) :
    (if k + 1 = paramLeft k spec.fieldWidthParam then
      (fillWidth (fillTo k j i u x spec) (argsOf args k t).int.1, (argsOf args k t).int.2)
      else (fillTo k j i u x spec, argsOf args k t)) =
      (fillTo (k + 1) j i u x spec, argsOf args k (t.or (if k + 1 = spec.fieldWidthParam then
        some (rawInt (x (k + 1))) else none))) := by
  by_cases hA : k + 1 = spec.fieldWidthParam
  · have he : widthUpTo k u x spec spec = spec := if_neg (by omega)
    rw [if_pos ((succ_eq_paramLeft _ _).mpr hA), if_pos hA, argsOf_int, ← hx, ← some_getD]
    rw [Prod.mk.injEq]
    refine ⟨?_, rfl⟩
    rw [fillWidth_eq, fillTo, setWidth_mainUpTo, setWidth_precUpTo, he, fillTo, widthUpTo_succ,
      if_pos hA, intTaken, ht]
  · rw [if_neg (fun h => hA ((succ_eq_paramLeft _ _).mp h)), if_neg hA, Option.or_none, fillTo,
      fillTo, widthUpTo_succ, if_neg hA]

/-- The precision in the round for the parameter `k + 1`. -/
theorem fillPrecision_step (args : List Int) (t : Option Nat)
    (ht : (u (k + 1)).getD (rawInt (x (k + 1))) = t.getD (rawInt (x (k + 1))))
    (hx : x (k + 1) = argAt args (k + 1)) :
    (if k + 1 = paramLeft k spec.precisionParam then
      (fillPrecision (fillTo j k i u x spec) (argsOf args k t).int.1, (argsOf args k t).int.2)
      else (fillTo j k i u x spec, argsOf args k t)) =
      (fillTo j (k + 1) i u x spec, argsOf args k (t.or (if k + 1 = spec.precisionParam then
        some (rawInt (x (k + 1))) else none))) := by
  by_cases hB : k + 1 = spec.precisionParam
  · have he : ∀ s, precUpTo k u x spec s = s := fun s => if_neg (by omega)
    rw [if_pos ((succ_eq_paramLeft _ _).mpr hB), if_pos hB, argsOf_int, ← hx, ← some_getD]
    rw [Prod.mk.injEq]
    refine ⟨?_, rfl⟩
    rw [fillPrecision_eq, fillTo, setPrecision_mainUpTo, he, fillTo, precUpTo_succ,
      if_pos hB, intTaken, ht]
  · rw [if_neg (fun h => hB ((succ_eq_paramLeft _ _).mp h)), if_neg hB, Option.or_none, fillTo,
      fillTo, precUpTo_succ, if_neg hB]

theorem fillTo_argData (i j : Nat) (spec : FmtSpec) (v : Int) :
    argData (precUpTo j u x spec (widthUpTo i u x spec spec)) v = argData spec v := by
  have hw := setWidth_arg spec (intTaken u x spec.fieldWidthParam) v
  have hp : ∀ s, _ := fun s => setPrecision_arg s (intTaken u x spec.precisionParam) v
  unfold precUpTo widthUpTo
  split <;> split <;> simp [*]

/-- The number in the round for the parameter `k + 1`. -/
theorem fillMain_step (args : List Int) (t : Option Nat)
    (ht : k + 1 = spec.mainParam → mainTaken u x spec = t) (hx : x (k + 1) = argAt args (k + 1)) :
    (if k + 1 = paramLeft k spec.mainParam then
      ((fillMain (fillTo i j k u x spec) (argsOf args k t)).1,
        (fillMain (fillTo i j k u x spec) (argsOf args k t)).2, false)
      else (fillTo i j k u x spec, argsOf args k t, false)) =
      (fillTo i j (k + 1) u x spec, argsOf args k (t.or (if k + 1 = spec.mainParam then
        some (argData spec (x (k + 1))) else none)), false) := by
  by_cases hC : k + 1 = spec.mainParam
  · have he : ∀ s, mainUpTo k u x spec s = s := fun s => if_neg (by omega)
    rw [if_pos ((succ_eq_paramLeft _ _).mpr hC), if_pos hC, fillMain_eq, ← hx, fillTo, he,
      fillTo_argData, some_getD, fillTo, mainUpTo_succ, if_pos hC, ht hC]
  · rw [if_neg (fun h => hC ((succ_eq_paramLeft _ _).mp h)), if_neg hC, Option.or_none, fillTo,
      fillTo, mainUpTo_succ, if_neg hC]

/-- The first of the fields of a spec that name a parameter takes its argument. -/
theorem takes_eq (spec : FmtSpec) (c : Nat) (x : Int) : spec.takes c x =
    (if c = spec.fieldWidthParam then some (rawInt x) else none).or
      ((if c = spec.precisionParam then some (rawInt x) else none).or
        (if c = spec.mainParam then some (argData spec x) else none)) := by
  unfold FmtSpec.takes
  by_cases hA : c = spec.fieldWidthParam
  · rw [if_pos hA, if_pos (.inl hA)]
    rfl
  · by_cases hB : c = spec.precisionParam
    · rw [if_neg hA, if_pos hB, if_pos (.inr hB)]
      rfl
    · rw [if_neg hA, if_neg hB, if_neg (by simp [hA, hB])]
      rfl

/-- One spec in the round for the parameter `k + 1`. -/
theorem fillSpec_eq (k : Nat) (u : Nat → Option Nat) (args : List Int) (spec : FmtSpec)
    (hx : x (k + 1) = argAt args (k + 1)) :
    fillSpec (k + 1) true (fillTo k k k u x spec) (argsOf args k (u (k + 1))) =
      (fillTo (k + 1) (k + 1) (k + 1) u x spec, argsOf args k ((u (k + 1)).or
        (spec.takes (k + 1) (x (k + 1)))), false) := by
  obtain ⟨hfw, hpp, hmp⟩ := fillTo_fields k k k u x spec
  have h1 := @fillWidth_step k k k u x spec args (u (k + 1)) rfl hx
  have h2 := @fillPrecision_step k (k + 1) k u x spec args
    ((u (k + 1)).or (if k + 1 = spec.fieldWidthParam then some (rawInt (x (k + 1))) else none))
    (by cases u (k + 1) <;> split <;> rfl) hx
  have h3 := @fillMain_step (k + 1) (k + 1) k u x spec args
    (((u (k + 1)).or (if k + 1 = spec.fieldWidthParam then some (rawInt (x (k + 1))) else none)).or
      (if k + 1 = spec.precisionParam then some (rawInt (x (k + 1))) else none))
    (fun hC => by
      unfold mainTaken
      rw [← hC, Option.or_assoc]
      congr 1
      split <;> split <;> split <;> first | rfl | omega) hx
  unfold fillSpec
  dsimp only
  rw [hfw, hpp, hmp, h1, if_neg (by simp)]
  dsimp only
  rw [h2, if_neg (by simp)]
  dsimp only
  rw [Bool.not_true, h3]
  rw [Prod.mk.injEq, Prod.mk.injEq]
  refine ⟨rfl, congrArg (argsOf args k) ?_, rfl⟩
  rw [Option.or_assoc, Option.or_assoc, takes_eq]

/-! ## A round -/

variable {items : List FmtItem}

/-- What has been made of the arguments behind a spec. -/
def takenBy (u : Nat → Option Nat) (x : Nat → Int) : FmtItem → Nat → Option Nat
  | .num spec => fun c => (u c).or (spec.takes c (x c))
  | _ => u

/-- Specs with their arguments up to the parameter `k`. -/
def fillItems (k : Nat) (x : Nat → Int) : (Nat → Option Nat) → List FmtItem → List FmtItem
  | _, [] => []
  | u, .num spec :: items =>
    .num (fillTo k k k u x spec) :: fillItems k x (takenBy u x (.num spec)) items
  | u, item :: items => item :: fillItems k x u items

/-- What has been made of the arguments behind specs. -/
def takenAll (x : Nat → Int) (u : Nat → Option Nat) (items : List FmtItem) : Nat → Option Nat :=
  items.foldl (takenBy · x) u

/-- The parameters of specs. -/
def allParams (items : List FmtItem) : List Nat :=
  items.flatMap fun
    | .num spec => spec.params
    | _ => []

/-- The round for the parameter `k + 1`, with named parameters. -/
theorem fillRound_named (k : Nat) (args : List Int) (hx : x (k + 1) = argAt args (k + 1)) :
    fillRound (k + 1) true (fillItems k x u items) (argsOf args k (u (k + 1))) =
      (fillItems (k + 1) x u items, argsOf args k (takenAll x u items (k + 1))) := by
  induction items generalizing u with
  | nil => rfl
  | cons item items ih =>
    cases item with
    | str t =>
      change (_, _) = (_, _)
      rw [ih]
      rfl
    | chr c =>
      change (_, _) = (_, _)
      rw [ih]
      rfl
    | num spec =>
      have hs := fillSpec_eq k u args spec hx
      rw [fillItems, fillRound, hs]
      dsimp only
      rw [if_neg (by simp)]
      rw [show (u (k + 1)).or (spec.takes (k + 1) (x (k + 1))) =
        takenBy u x (.num spec) (k + 1) from rfl, ih]
      rfl

/-- A spec that does not name the parameter. -/
theorem fillSpec_other {spec : FmtSpec} (h : c ∉ spec.params) (dollars : Bool) (a : FmtArgs) :
    fillSpec c dollars spec a = (spec, a, false) := by
  simp only [FmtSpec.params, List.mem_cons, List.not_mem_nil, or_false, not_or] at h
  obtain ⟨h1, h2, h3⟩ := h
  unfold fillSpec
  rw [if_neg h1, if_neg (by simp [h1]), if_neg h2, if_neg (by simp [h2]), if_neg h3]

/-- Specs that do not name the parameter. -/
theorem fillRound_other (h : c ∉ allParams items) (dollars : Bool) (a : FmtArgs) :
    fillRound c dollars items a = (items, a) := by
  induction items with
  | nil => rfl
  | cons item items ih =>
    rw [allParams, List.flatMap_cons, List.mem_append, not_or] at h
    have hr := ih h.2
    cases item with
    | str t =>
      change (_, _) = (_, _)
      rw [hr]
    | chr t =>
      change (_, _) = (_, _)
      rw [hr]
    | num spec =>
      have hs := fillSpec_other (show c ∉ spec.params from h.1) dollars a
      rw [fillRound, hs]
      dsimp only
      rw [if_neg (by simp), hr]

/-- With named parameters a round goes on to the end. -/
theorem fillSpec_named (c : Nat) (spec : FmtSpec) (a : FmtArgs) :
    (fillSpec c true spec a).2.2 = false := by
  unfold fillSpec
  dsimp only
  rw [if_neg (by simp), if_neg (by simp)]
  split <;> rfl

/-- One spec that names the parameter once: without named parameters the round ends there. -/
theorem fillSpec_next {spec : FmtSpec} (h : spec.params.count c ≤ 1) (a : FmtArgs) :
    fillSpec c false spec a = ((fillSpec c true spec a).1, (fillSpec c true spec a).2.1,
      decide (c ∈ spec.params)) := by
  have hmem : c ∈ spec.params ↔
      c = spec.fieldWidthParam ∨ c = spec.precisionParam ∨ c = spec.mainParam := by
    simp [FmtSpec.params]
  simp only [FmtSpec.params, List.count_cons, List.count_nil, beq_iff_eq] at h
  unfold fillSpec
  by_cases hA : c = spec.fieldWidthParam
  · have hB : ¬ c = spec.precisionParam := fun hB => by
      rw [if_pos hA.symm, if_pos hB.symm] at h
      omega
    have hC : ¬ c = spec.mainParam := fun hC => by
      rw [if_pos hA.symm, if_pos hC.symm] at h
      omega
    simp [hmem, ← hA, hB, hC]
  · by_cases hB : c = spec.precisionParam
    · have hC : ¬ c = spec.mainParam := fun hC => by
        rw [if_pos hB.symm, if_pos hC.symm] at h
        omega
      simp [hmem, hA, ← hB, hC]
    · by_cases hC : c = spec.mainParam
      · simp [hmem, hA, hB, ← hC]
      · simp [hmem, hA, hB, hC]

/-- A parameter that is named once: the round is the same with and without named parameters. -/
theorem fillRound_next (h : (allParams items).count c ≤ 1) (a : FmtArgs) :
    fillRound c false items a = fillRound c true items a := by
  induction items generalizing a with
  | nil => rfl
  | cons item items ih =>
    rw [allParams, List.flatMap_cons, List.count_append] at h
    change _ + (allParams items).count c ≤ 1 at h
    have hr := fun a => ih (by omega) a
    cases item with
    | str t =>
      change (_, _) = (_, _)
      rw [hr]
    | chr t =>
      change (_, _) = (_, _)
      rw [hr]
    | num spec =>
      change spec.params.count c + _ ≤ 1 at h
      have hs := fillSpec_next (show spec.params.count c ≤ 1 by omega) a
      have hend : (fillSpec c true spec a).2.2 = false := fillSpec_named c spec a
      rw [fillRound, fillRound, hs, hend]
      dsimp only
      rw [if_neg Bool.false_ne_true]
      by_cases hm : c ∈ spec.params
      · have h1 : 1 ≤ spec.params.count c := List.count_pos_iff.mpr hm
        have hno : c ∉ allParams items := fun hin => by
          have := List.count_pos_iff.mpr hin
          omega
        rw [if_pos (decide_eq_true hm), fillRound_other hno]
      · rw [if_neg (by simp [hm]), hr]

/-! ## All rounds -/

theorem fillTo_zero (u : Nat → Option Nat) (x : Nat → Int) (spec : FmtSpec) :
    fillTo 0 0 0 u x spec = spec := by
  unfold fillTo mainUpTo precUpTo widthUpTo
  rw [if_neg (by omega), if_neg (by omega), if_neg (by omega)]

theorem fillItems_zero (x : Nat → Int) (u : Nat → Option Nat) (items : List FmtItem) :
    fillItems 0 x u items = items := by
  induction items generalizing u with
  | nil => rfl
  | cons item items ih =>
    cases item with
    | str t => exact congrArg (FmtItem.str t :: ·) (ih u)
    | chr c => exact congrArg (FmtItem.chr c :: ·) (ih u)
    | num spec => rw [fillItems, fillTo_zero, ih]

/-- The parameters that are left. -/
theorem allParams_fillItems (k : Nat) (x : Nat → Int) (u : Nat → Option Nat)
    (items : List FmtItem) :
    allParams (fillItems k x u items) = (allParams items).map (paramLeft k) := by
  induction items generalizing u with
  | nil => rfl
  | cons item items ih =>
    cases item with
    | str t => exact ih u
    | chr c => exact ih u
    | num spec =>
      obtain ⟨h1, h2, h3⟩ := fillTo_fields k k k u x spec
      have h := ih (takenBy u x (.num spec))
      change FmtSpec.params _ ++ allParams _ = (FmtSpec.params _ ++ allParams _).map _
      rw [h, List.map_append]
      unfold FmtSpec.params
      rw [h1, h2, h3]
      rfl

theorem count_paramLeft (k : Nat) (ps : List Nat) :
    (ps.map (paramLeft k)).count (k + 1) = ps.count (k + 1) := by
  rw [List.count_eq_countP, List.count_eq_countP, List.countP_map]
  refine List.countP_congr fun p _ => ?_
  rw [Function.comp_apply, beq_iff_eq, beq_iff_eq, eq_comm, succ_eq_paramLeft, eq_comm]

/-- The specs have all their arguments when no parameter is left. -/
theorem all_filled (items : List FmtItem) :
    items.all FmtItem.filled = true ↔ ∀ p ∈ allParams items, p = 0 := by
  rw [List.all_eq_true]
  unfold allParams
  simp only [List.mem_flatMap, forall_exists_index, and_imp]
  constructor
  · intro h p item hitem hp
    have hf := h item hitem
    cases item with
    | str t => exact absurd hp List.not_mem_nil
    | chr c => exact absurd hp List.not_mem_nil
    | num spec =>
      simp only [FmtItem.filled, Bool.and_eq_true, decide_eq_true_eq] at hf
      simp only [FmtSpec.params, List.mem_cons, List.not_mem_nil, or_false] at hp
      omega
  · intro h item hitem
    cases item with
    | str t => rfl
    | chr c => rfl
    | num spec =>
      have hp := fun p hp => h p (.num spec) hitem hp
      simp only [FmtSpec.params, List.mem_cons, List.not_mem_nil, or_false, forall_eq_or_imp,
        forall_eq] at hp
      simp [FmtItem.filled, hp]

theorem takenAll_of_some (h : (u c).isSome) : (takenAll x u items c).isSome := by
  induction items generalizing u with
  | nil => exact h
  | cons item items ih =>
    refine ih (u := takenBy u x item) ?_
    cases item with
    | str t => exact h
    | chr t => exact h
    | num spec =>
      change ((u c).or _).isSome
      rw [Option.isSome_or, h, Bool.true_or]

/-- A parameter that is named is taken. -/
theorem takenAll_isSome (h : c ∈ allParams items) : (takenAll x u items c).isSome := by
  induction items generalizing u with
  | nil => exact absurd h List.not_mem_nil
  | cons item items ih =>
    rw [allParams, List.flatMap_cons, List.mem_append] at h
    rcases h with h | h
    · refine takenAll_of_some (u := takenBy u x item) ?_
      cases item with
      | str t => exact absurd h List.not_mem_nil
      | chr t => exact absurd h List.not_mem_nil
      | num spec =>
        change c ∈ [_, _, _] at h
        simp only [List.mem_cons, List.not_mem_nil, or_false] at h
        change ((u c).or (spec.takes c (x c))).isSome
        rw [Option.isSome_or, Bool.or_eq_true]
        refine .inr ?_
        unfold FmtSpec.takes
        split
        · rfl
        · rw [if_pos (by omega)]
          rfl
    · exact ih h

/-- The parameters `1` to `N` are all named, and no others; without named parameters each of
them is counted once. -/
structure Params (dollars : Bool) (N : Nat) (items : List FmtItem) : Prop where
  /-- There are no others. -/
  le : ∀ p ∈ allParams items, p ≤ N
  /-- Each is named. -/
  used : ∀ c, 1 ≤ c → c ≤ N → c ∈ allParams items
  /-- Without names each is named once. -/
  once : dollars = false → ∀ c, 1 ≤ c → (allParams items).count c ≤ 1

variable {dollars : Bool} {fuel : Nat}

/-- **The rounds of `vstr__fmt_fillin_spec`.** -/
theorem fillinSpec_eq (h : Params dollars N items) (hk : k ≤ N) (hf : N - k < fuel) :
    fillinSpec dollars fuel (k + 1) (fillItems k (argAt args) (fun _ => none) items)
      (args.drop k) = some (fillItems N (argAt args) (fun _ => none) items) := by
  induction fuel generalizing k with
  | zero => omega
  | succ fuel ih =>
    have hall := all_filled (fillItems k (argAt args) (fun _ => none) items)
    rw [allParams_fillItems] at hall
    rw [fillinSpec]
    by_cases hlt : k < N
    · have huse := h.used (k + 1) (by omega) (by omega)
      rw [if_neg]
      · have hround : fillRound (k + 1) dollars
            (fillItems k (argAt args) (fun _ => none) items) ⟨none, args.drop k⟩ =
            fillRound (k + 1) true
              (fillItems k (argAt args) (fun _ => none) items) (argsOf args k none) := by
          cases hd : dollars with
          | true => rfl
          | false =>
            refine fillRound_next ?_ _
            rw [allParams_fillItems, count_paramLeft]
            exact h.once hd (k + 1) (by omega)
        have hsome := takenAll_isSome (x := argAt args) (u := fun _ => none) huse
        obtain ⟨v, hv⟩ := Option.isSome_iff_exists.mp hsome
        have hr := @fillRound_named (fun _ => none) (argAt args) items k args rfl
        rw [hround, hr, hv]
        exact ih (by omega) (by omega)
      · intro hc
        have := hall.mp hc (paramLeft k (k + 1)) (List.mem_map_of_mem huse)
        unfold paramLeft at this
        rw [if_neg (by omega)] at this
        omega
    · obtain rfl : k = N := by omega
      rw [if_pos]
      refine hall.mpr fun p hp => ?_
      obtain ⟨q, hq, rfl⟩ := List.mem_map.mp hp
      exact if_pos (h.le q hq)

end Vstr.Fmt
