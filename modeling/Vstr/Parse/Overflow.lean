import Vstr.Parse.Number

/-!
# Overflow of a number

The parsers multiply, add and divide again to see whether a digit was too much. An `int`
is wide enough for that when the type is a `short`; for the wider types a carry that comes
from the addition alone is not seen.
-/

namespace Vstr

open Splice Query

/-- The types that there is a parser for. -/
inductive NumType where
  | short
  | ushort
  | int
  | uint
  | long
  | ulong
  | intmax
  | uintmax
  deriving DecidableEq, Repr

namespace NumType

/-- The bits of a type. -/
def width : NumType → Nat
  | short | ushort => 16
  | int | uint => 32
  | long | ulong | intmax | uintmax => 64

/-- Does the type have negative numbers? -/
def signed : NumType → Bool
  | short | int | long | intmax => true
  | ushort | uint | ulong | uintmax => false

/-- The number is one of the type. -/
def Holds (T : NumType) (v : Int) : Prop :=
  if T.signed then -(2 ^ (T.width - 1)) ≤ v ∧ v < 2 ^ (T.width - 1) else 0 ≤ v ∧ v < 2 ^ T.width

/-- The answer of a parser for an unsigned type. -/
def unsigned (f : ParseNumFlags → Nat → Nat → StateM St ParsedNum) (fl : ParseNumFlags)
    (pos len : Nat) : StateM St ParsedInt := do
  let r ← f fl pos len
  return ⟨r.num, r.len, r.err⟩

/-- `vstr_parse_short` to `vstr_parse_uintmax`. -/
def parse : NumType → ParseNumFlags → Nat → Nat → StateM St ParsedInt
  | short => parseShort
  | ushort => unsigned parseUshort
  | int => parseInt
  | uint => unsigned parseUint
  | long => parseLong
  | ulong => unsigned parseUlong
  | intmax => parseIntmax
  | uintmax => unsigned parseUintmax

/-- The parser of a type on bytes. -/
def parseOf (T : NumType) (fl : ParseNumFlags) (pos : Nat) (xs : List (Option UInt8)) :
    ParsedInt :=
  if T.signed then sfuncOf T.width fl pos xs
  else
    let r := ufuncOf T.width fl pos xs
    ⟨r.num, r.len, r.err⟩

theorem width_cases (T : NumType) : T.width = 16 ∨ T.width = 32 ∨ T.width = 64 := by
  cases T <;> simp [width]

end NumType

variable {E : Env} {P : Own} {s : St} {pos len w b : Nat} {xs : List (Option UInt8)}
  {fl : ParseNumFlags}

theorem unsigned_yields (wd : Window E P s pos len xs) (w : Nat) (fl : ParseNumFlags) :
    Yields Reads (NumType.unsigned (parseNumUfunc w) fl pos len) s
      ⟨(ufuncOf w fl pos xs).num, (ufuncOf w fl pos xs).len, (ufuncOf w fl pos xs).err⟩ :=
  (parseNumUfunc_yields wd w fl).bind fun _ _ => .pure _ _

/-- Every parser answers from the bytes of the slice. -/
theorem parse_yields (wd : Window E P s pos len xs) (T : NumType) (fl : ParseNumFlags) :
    Yields Reads (T.parse fl pos len) s (T.parseOf fl pos xs) := by
  cases T with
  | short => exact parseNumSfunc_yields wd 16 fl
  | int => exact parseNumSfunc_yields wd 32 fl
  | long => exact parseNumSfunc_yields wd 64 fl
  | intmax => exact parseNumSfunc_yields wd 64 fl
  | ushort => exact unsigned_yields wd 16 fl
  | uint => exact unsigned_yields wd 32 fl
  | ulong => exact unsigned_yields wd 64 fl
  | uintmax => exact unsigned_yields wd 64 fl

/-! ## What the beginning of a number leaves -/

/-- No overflow is reported, and the base is one that there are digits for. -/
def NumBeg.Fine : NumBeg → Prop
  | .bad err => err ≠ .overflow
  | .zero _ err => err ≠ .overflow
  | .digits b _ _ _ _ => 2 ≤ b ∧ b ≤ 36

theorem parseNumZeros_fine (fl : ParseNumFlags) (hb : 2 ≤ b ∧ b ≤ 36) (pos len tmp : Nat)
    (isNeg isZeroed : Bool) : (parseNumZeros fl b pos len tmp isNeg isZeroed).Fine := by
  unfold parseNumZeros
  split
  · change (if _ then _ else _) ≠ _
    split <;> simp
  · split
    · exact fun h => by cases h
    · exact hb

theorem letterOf_fine (fl : ParseNumFlags) {base : Nat} (hbase : 2 ≤ base ∧ base ≤ 36)
    (hb : fl.base ≠ 0 → 2 ≤ b ∧ b ≤ 36) (pos : Nat) (xs : List (Option UInt8)) (isNeg : Bool) :
    (letterOf fl base b pos xs isNeg).Fine := by
  unfold letterOf
  split
  · exact fun h => by cases h
  · refine parseNumZeros_fine fl ?_ _ _ _ _ _
    split
    · exact hbase
    · rename_i h
      exact hb h

theorem prefixOf_fine (fl : ParseNumFlags) (hb : fl.base ≠ 0 → 2 ≤ b ∧ b ≤ 36) (pos : Nat)
    (xs : List (Option UInt8)) (isNeg : Bool) : (prefixOf fl b pos xs isNeg).Fine := by
  unfold prefixOf
  split
  · exact fun h => by cases h
  · split
    · exact fun h => by cases h
    · split
      · exact letterOf_fine fl (by decide) hb pos xs isNeg
      · split
        · exact fun h => by cases h
        · split
          · exact letterOf_fine fl (by decide) hb pos xs isNeg
          · refine parseNumZeros_fine fl ?_ _ _ _ _ _
            split
            · decide
            · rename_i h
              exact hb h

theorem numBase_fine (fl : ParseNumFlags) (h : fl.base ≠ 0) :
    2 ≤ fl.numBase ∧ fl.numBase ≤ 36 := by
  unfold ParseNumFlags.numBase
  rw [if_neg h]
  split
  · decide
  · split
    · decide
    · omega

theorem digitsOf_fine (fl : ParseNumFlags) (pos : Nat) (xs : List (Option UInt8)) (isNeg : Bool) :
    (digitsOf fl pos xs isNeg).Fine := by
  unfold digitsOf
  split
  · exact fun h => by cases h
  · split
    · exact prefixOf_fine fl (numBase_fine fl) _ _ _
    · split
      · exact parseNumZeros_fine fl (by decide) _ _ _ _ _
      · refine parseNumZeros_fine fl ?_ _ _ _ _ _
        split
        · decide
        · rename_i h
          refine numBase_fine fl fun h0 => h ?_
          rw [ParseNumFlags.numBase, if_pos h0]

theorem numBegOf_fine (fl : ParseNumFlags) (pos : Nat) (xs : List (Option UInt8)) :
    (numBegOf fl pos xs).Fine := by
  have signed : ∀ pos xs, (signedOf fl pos xs).Fine := by
    intro pos xs
    unfold signedOf
    split
    · exact digitsOf_fine fl _ _ _
    · cases signOf xs with
      | none => exact fun h => by cases h
      | some p => exact digitsOf_fine fl _ _ _
  unfold numBegOf
  split
  · split
    · exact fun h => by cases h
    · exact signed _ _
  · exact signed _ _

/-! ## The test for an overflow -/

/-- The test of `VSTR__PARSE_NUM_BIN_CALC_NUM` says that `add` was too much. -/
def Noticed (w b old add : Nat) : Prop :=
  ((old * b + add) % 2 ^ w + 2 ^ max w 32 - add) % 2 ^ max w 32 / b ≠ old

instance (w b old add : Nat) : Decidable (Noticed w b old add) :=
  inferInstanceAs (Decidable (_ ≠ _))

/-- Taking away what was added. -/
theorem add_mod_sub_mod {a c m : Nat} (hc : c ≤ m) : ((a + c) % m + m - c) % m = a % m := by
  have h := Nat.mod_add_div (a + c) m
  have e : (a + c) % m + m - c + m * ((a + c) / m) = a + m := by omega
  rw [← Nat.add_mul_mod_self_left _ m ((a + c) / m), e, Nat.add_mod_right]

/-- In a wide type only the carry of the multiplication is seen. -/
theorem noticed_wide {old add : Nat} (hw : 32 ≤ w) (hb : 1 ≤ b) (hadd : add < 36) :
    Noticed w b old add ↔ 2 ^ w ≤ old * b := by
  have hm : max w 32 = w := Nat.max_eq_left hw
  have hpow : 2 ^ 32 ≤ 2 ^ w := Nat.pow_le_pow_right (by decide) hw
  unfold Noticed
  rw [hm, add_mod_sub_mod (by omega)]
  constructor
  · intro h
    by_contra hlt
    rw [Nat.mod_eq_of_lt (by omega), Nat.mul_div_cancel _ hb] at h
    exact h rfl
  · intro h e
    have hlt : old * b % 2 ^ w < old * b := Nat.lt_of_lt_of_le (Nat.mod_lt _ (by omega)) h
    rw [Nat.mul_comm old b] at hlt
    have := Nat.div_lt_of_lt_mul hlt
    rw [Nat.mul_comm b old] at this
    omega

/-- In a `short` every carry is seen. -/
theorem noticed_short {old add : Nat} (hb : 1 ≤ b) (hb' : b ≤ 36) (hold : old < 2 ^ 16)
    (hadd : add < 36) : Noticed 16 b old add ↔ 2 ^ 16 ≤ old * b + add := by
  have hm : max 16 32 = 32 := rfl
  have hmul : old * b ≤ old * 36 := Nat.mul_le_mul_left old hb'
  unfold Noticed
  rw [hm]
  generalize hv : old * b = v at *
  constructor
  · intro h
    by_contra hlt
    have hsub : ((v + add) % 2 ^ 16 + 2 ^ 32 - add) % 2 ^ 32 = v := by omega
    rw [hsub, ← hv, Nat.mul_div_cancel _ hb] at h
    exact h rfl
  · intro h e
    by_cases hle : add ≤ (v + add) % 2 ^ 16
    · have hsub : ((v + add) % 2 ^ 16 + 2 ^ 32 - add) % 2 ^ 32 = (v + add) % 2 ^ 16 - add := by
        omega
      have hlt : (v + add) % 2 ^ 16 - add < b * old := by
        rw [Nat.mul_comm, hv]
        omega
      rw [hsub] at e
      have := Nat.div_lt_of_lt_mul hlt
      omega
    · have hsub : ((v + add) % 2 ^ 16 + 2 ^ 32 - add) % 2 ^ 32 =
          (v + add) % 2 ^ 16 + 2 ^ 32 - add := by omega
      have hge : 2 ^ 16 * b ≤ (v + add) % 2 ^ 16 + 2 ^ 32 - add := by
        have := Nat.mul_le_mul_left (2 ^ 16) hb'
        omega
      rw [hsub] at e
      have := (Nat.le_div_iff_mul_le hb).mpr hge
      omega

/-- The number that a machine of `w` bits has after the digits. -/
def machineValue (w b : Nat) (ds : List Nat) : Nat := Numeral.value b ds % 2 ^ w

/-- Some digit is noticed. -/
def NoticedIn (w b : Nat) (ds : List Nat) : Prop :=
  ∃ p d q, ds = p ++ d :: q ∧ Noticed w b (machineValue w b p) d

theorem noticedIn_append_singleton {ds : List Nat} {d : Nat} :
    NoticedIn w b (ds ++ [d]) ↔ NoticedIn w b ds ∨ Noticed w b (machineValue w b ds) d := by
  constructor
  · rintro ⟨p, e, q, h, hn⟩
    rcases List.eq_nil_or_concat q with rfl | ⟨q, f, rfl⟩
    · obtain ⟨rfl, h2⟩ := List.append_inj' h rfl
      obtain ⟨rfl, -⟩ := List.cons.inj h2
      exact .inr hn
    · refine .inl ⟨p, e, q, ?_, hn⟩
      have h' : ds ++ [d] = (p ++ e :: q) ++ [f] := by simpa using h
      exact (List.append_inj' h' rfl).1
  · rintro (⟨p, e, q, rfl, hn⟩ | hn)
    · exact ⟨p, e, q ++ [d], by simp, hn⟩
    · exact ⟨ds, d, [], rfl, hn⟩

/-- What is noticed is an overflow. -/
theorem NoticedIn.le_value {ds : List Nat} (hw : 32 ≤ w) (hb : 1 ≤ b) (hds : ∀ d ∈ ds, d < 36)
    (h : NoticedIn w b ds) : 2 ^ w ≤ Numeral.value b ds := by
  obtain ⟨p, d, q, rfl, hn⟩ := h
  have hle := (noticed_wide hw hb (hds d (by simp))).mp hn
  have hmod : machineValue w b p ≤ Numeral.value b p := Nat.mod_le _ _
  have hext := Numeral.value_le_append hb (p ++ [d]) q
  rw [List.append_assoc, List.singleton_append, Numeral.value_append_singleton] at hext
  have := Nat.mul_le_mul_right b hmod
  omega

/-- A `short` that overflows is noticed. -/
theorem noticedIn_short {ds : List Nat} (hb : 1 ≤ b) (hb' : b ≤ 36) (hds : ∀ d ∈ ds, d < 36) :
    NoticedIn 16 b ds ↔ 2 ^ 16 ≤ Numeral.value b ds := by
  induction ds using List.reverseRecOn with
  | nil =>
    constructor
    · rintro ⟨p, d, q, h, -⟩
      simp at h
    · intro h
      simp at h
  | append_singleton ds d ih =>
    have hlt : machineValue 16 b ds < 2 ^ 16 := Nat.mod_lt _ (by decide)
    have ih := ih fun e he => hds e (by simp [he])
    rw [noticedIn_append_singleton, ih, noticed_short hb hb' hlt (hds d (by simp)),
      Numeral.value_append_singleton]
    unfold machineValue
    constructor
    · rintro (h | h)
      · have := Nat.le_mul_of_pos_right (Numeral.value b ds) hb
        omega
      · have := Nat.mul_le_mul_right b (Nat.mod_le (Numeral.value b ds) (2 ^ 16))
        omega
    · intro h
      by_cases hv : 2 ^ 16 ≤ Numeral.value b ds
      · exact .inl hv
      · rw [Nat.mod_eq_of_lt (by omega)]
        exact .inr h

/-! ## The digits that are read -/

/-- The digits that the loop reads. -/
def digitsRead (fl : ParseNumFlags) (b : Nat) : List (Option UInt8) → Bool → List Nat
  | [], _ => []
  | x :: xs, doneOnce =>
    if doneOnce ∧ x.getD 0 = 0x5F then
      if ¬ fl.sep then [] else digitsRead fl b xs doneOnce
    else
      match asciiDigit fl.loc b (x.getD 0) with
      | none => []
      | some d => d :: digitsRead fl b xs true

/-- There are ten figures and twenty-six letters. -/
theorem asciiDigit_lt {loc : Bool} {c : UInt8} {d : Nat} (hb : b ≤ 36)
    (h : asciiDigit loc b c = some d) : d < 36 := by
  rw [asciiDigit_eq hb] at h
  unfold asciiDigit at h
  rw [if_neg Bool.false_ne_true] at h
  dsimp only at h
  have hnum : (if b ≤ 10 then 0x30 + b - 1 else 0x39) ≤ 0x39 := by
    split <;> omega
  have hlow : (if b > 10 then 0x61 + (b - 11) else 0x7A) ≤ 0x7A := by
    split <;> omega
  have hhigh : (if b > 10 then 0x41 + (b - 11) else 0x5A) ≤ 0x5A := by
    split <;> omega
  generalize (if b ≤ 10 then 0x30 + b - 1 else 0x39) = numEnd at h hnum
  generalize (if b > 10 then 0x61 + (b - 11) else 0x7A) = lowEnd at h hlow
  generalize (if b > 10 then 0x41 + (b - 11) else 0x5A) = highEnd at h hhigh
  split at h
  · cases h
  · split at h
    · cases h
      omega
    · split at h
      · cases h
      · split at h
        · cases h
          omega
        · split at h
          · cases h
            omega
          · cases h

theorem digitsRead_lt (fl : ParseNumFlags) (hb : b ≤ 36) (xs : List (Option UInt8))
    (doneOnce : Bool) :
    ∀ d ∈ digitsRead fl b xs doneOnce, d < 36 := by
  induction xs generalizing doneOnce with
  | nil => exact fun d hd => by cases hd
  | cons x xs ih =>
    unfold digitsRead
    split
    · split
      · exact fun d hd => by cases hd
      · exact ih doneOnce
    · cases hx : asciiDigit fl.loc b (x.getD 0) with
      | none => exact fun d hd => by cases hd
      | some e =>
        intro d hd
        rcases List.mem_cons.mp hd with rfl | hd
        · exact asciiDigit_lt hb hx
        · exact ih true d hd

/-- The loop has read some digits: the value is the one of a machine, and the error says
whether a digit was noticed. -/
structure HasRead (fl : ParseNumFlags) (w b : Nat) (ds : List Nat) (r : NumLoop) : Prop where
  /-- The value. -/
  ret : r.ret = machineValue w b ds
  /-- An overflow is reported if it is noticed. -/
  overflow : r.err = .overflow ↔ fl.overflow = true ∧ NoticedIn w b ds
  /-- Nothing else is reported. -/
  other : r.err = .overflow ∨ r.err = .none

/-- One more digit. -/
theorem HasRead.calc {ds : List Nat} {r : NumLoop} (h : HasRead fl w b ds r) (d : Nat) :
    HasRead fl w b (ds ++ [d]) (parseNumCalc fl w b d r) := by
  have herr : (parseNumCalc fl w b d r).err =
      if fl.overflow = true ∧ Noticed w b (machineValue w b ds) d then .overflow else r.err := by
    rw [← h.ret]
    rfl
  refine ⟨?_, ?_, ?_⟩
  · change (r.ret * b + d) % 2 ^ w = machineValue w b (ds ++ [d])
    rw [h.ret, machineValue, machineValue, Numeral.value_append_singleton, Nat.add_mod,
      Nat.mod_mul_mod, ← Nat.add_mod]
  · rw [herr, noticedIn_append_singleton]
    split
    · rename_i hn
      exact ⟨fun _ => ⟨hn.1, .inr hn.2⟩, fun _ => rfl⟩
    · rename_i hn
      rw [h.overflow]
      constructor
      · rintro ⟨ho, hin⟩
        exact ⟨ho, .inl hin⟩
      · rintro ⟨ho, hin | hin⟩
        · exact ⟨ho, hin⟩
        · exact absurd ⟨ho, hin⟩ hn
  · rw [herr]
    split
    · exact .inl rfl
    · exact h.other

/-- The loop reads its digits. -/
theorem numLoopOf_hasRead {ds : List Nat} {r : NumLoop} (h : HasRead fl w b ds r)
    (xs : List (Option UInt8)) (doneOnce : Bool) :
    HasRead fl w b (ds ++ digitsRead fl b xs doneOnce) (numLoopOf fl w b xs doneOnce r) := by
  induction xs generalizing ds r doneOnce with
  | nil =>
    rw [digitsRead, List.append_nil]
    exact h
  | cons x xs ih =>
    unfold digitsRead numLoopOf
    split
    · split
      · rw [List.append_nil]
        exact h
      · have h' : HasRead fl w b ds { r with len := r.len - 1 } := ⟨h.ret, h.overflow, h.other⟩
        exact ih h' doneOnce
    · cases asciiDigit fl.loc b (x.getD 0) with
      | none =>
        rw [List.append_nil]
        exact h
      | some d =>
        have := ih (h.calc d) true
        rwa [List.append_assoc, List.singleton_append] at this

theorem hasRead_nil (fl : ParseNumFlags) (w b len : Nat) :
    HasRead fl w b [] ⟨0, len, .none⟩ := by
  refine ⟨(Nat.zero_mod _).symm, ?_, .inr rfl⟩
  constructor
  · intro h
    cases h
  · rintro ⟨-, p, d, q, h, -⟩
    simp at h

/-- What is reported at the end. -/
theorem oob_eq_overflow (len : Nat) (err : ParseNumErr) :
    (if len ≠ 0 ∧ err = .none then .oob else err) = ParseNumErr.overflow ↔ err = .overflow := by
  split
  · rename_i h
    rw [h.2]
    simp
  · rfl

/-- The sign, the base and the digits that are read. -/
structure NumRead where
  /-- There is a minus sign. -/
  neg : Bool
  /-- The base. -/
  base : Nat
  /-- The digits, without the zeros that the beginning skips. -/
  digits : List Nat

/-- The number that the digits denote, without the sign. -/
def NumRead.magnitude (r : NumRead) : Nat := Numeral.value r.base r.digits

/-- The number that is read. -/
def NumRead.value (r : NumRead) : Int := if r.neg then -(r.magnitude : Int) else r.magnitude

/-- What a parser reads: nothing if it stops at the beginning, if there are only zeros, or if
it refuses the sign. -/
def NumType.read (T : NumType) (fl : ParseNumFlags) (pos : Nat) (xs : List (Option UInt8)) :
    Option NumRead :=
  match numBegOf fl pos xs with
  | .digits b _ len isNeg isZeroed =>
    if isNeg ∧ (¬ T.signed ∨ fl.noNegative) then none
    else some ⟨isNeg, b, digitsRead fl b (xs.drop (xs.length - len)) isZeroed⟩
  | _ => none

/-- The mathematical value of what a parser reads. -/
def NumType.readValue (T : NumType) (fl : ParseNumFlags) (pos : Nat)
    (xs : List (Option UInt8)) : Int := ((T.read fl pos xs).map NumRead.value).getD 0

/-- The kinds of numbers that are misjudged. -/
inductive NumSlips (T : NumType) (r : NumRead) : Prop where
  /-- The number is too large for the type, but no carry comes from a multiplication, and what
  is left of it looks like a number of the type. -/
  | carry (hw : 32 ≤ T.width) (hbig : 2 ^ T.width ≤ r.magnitude)
    (hmul : ∀ p d q, r.digits = p ++ d :: q →
      Numeral.value r.base p % 2 ^ T.width * r.base < 2 ^ T.width)
    (hfits : T.signed = true → (r.magnitude % 2 ^ T.width + 2 ^ T.width - r.neg.toNat) %
      2 ^ T.width ≤ 2 ^ (T.width - 1) - 1)
  /-- There is a minus sign, and no digit or only zeros behind it. -/
  | minus (hw : 32 ≤ T.width) (hs : T.signed = true) (hneg : r.neg = true)
    (hzero : r.magnitude = 0)

/-- A parser reports an overflow exactly if there is one, and else returns the number. -/
structure OverflowExact (T : NumType) (v : Int) (r : ParsedInt) : Prop where
  /-- An overflow is reported if the number is not one of the type. -/
  reports : r.err = .overflow ↔ ¬ T.Holds v
  /-- If none is reported, the number is returned. -/
  returns : r.err ≠ .overflow → r.num = v

/-! ## The two kinds of types -/

/-- A type that is not narrower than an `int` only sees the carries of multiplications. -/
theorem not_noticedIn_wide {ds : List Nat} (hw : 32 ≤ w) (hb : 1 ≤ b) (hds : ∀ d ∈ ds, d < 36) :
    ¬ NoticedIn w b ds ↔
      ∀ p d q, ds = p ++ d :: q → Numeral.value b p % 2 ^ w * b < 2 ^ w := by
  constructor
  · intro h p d q e
    by_contra hge
    exact h ⟨p, d, q, e, (noticed_wide hw hb (hds d (by simp [e]))).mpr (Nat.le_of_not_lt hge)⟩
  · rintro h ⟨p, d, q, e, hn⟩
    have h1 := (noticed_wide hw hb (hds d (by simp [e]))).mp hn
    have h2 := h p d q e
    unfold machineValue at h1
    omega

/-- The end of an unsigned parser. -/
theorem overflowExact_unsigned {T : NumType} (hs : T.signed = false) {r : NumRead}
    (hn : r.neg = false) (hb : 2 ≤ r.base ∧ r.base ≤ 36) (hds : ∀ d ∈ r.digits, d < 36)
    {p : ParsedInt} (hnum : p.num = (machineValue T.width r.base r.digits : Nat))
    (herr : p.err = .overflow ↔ NoticedIn T.width r.base r.digits) :
    OverflowExact T r.value p ↔ ¬ NumSlips T r := by
  have hval : r.value = (r.magnitude : Int) := by
    unfold NumRead.value
    rw [hn, if_neg (by decide)]
  have hholds : T.Holds r.value ↔ r.magnitude < 2 ^ T.width := by
    unfold NumType.Holds
    rw [hs, hval, if_neg (by decide)]
    constructor
    · rintro ⟨-, h⟩
      exact_mod_cast h
    · intro h
      exact ⟨Int.natCast_nonneg _, by exact_mod_cast h⟩
  have hexact : OverflowExact T r.value p ↔
      (NoticedIn T.width r.base r.digits ↔ 2 ^ T.width ≤ r.magnitude) := by
    constructor
    · intro h
      rw [← herr, h.reports, hholds, Nat.not_lt]
    · intro h
      refine ⟨by rw [herr, h, hholds, Nat.not_lt], fun hne => ?_⟩
      rw [ne_eq, herr, h, Nat.not_le] at hne
      rw [hnum, hval, machineValue]
      exact_mod_cast Nat.mod_eq_of_lt hne
  have hb1 : 1 ≤ r.base := by omega
  rw [hexact]
  by_cases hw : 32 ≤ T.width
  · have hle : NoticedIn T.width r.base r.digits → 2 ^ T.width ≤ r.magnitude :=
      NoticedIn.le_value hw hb1 hds
    constructor
    · rintro h (⟨-, hbig, hmul, -⟩ | ⟨-, hs', -, -⟩)
      · exact (not_noticedIn_wide hw hb1 hds).mpr hmul (h.mpr hbig)
      · rw [hs] at hs'
        cases hs'
    · intro h
      refine ⟨hle, fun hbig => ?_⟩
      by_contra hno
      exact h (.carry hw hbig ((not_noticedIn_wide hw hb1 hds).mp hno) fun h => by
        rw [hs] at h
        cases h)
  · have h16 : T.width = 16 := by
      rcases T.width_cases with h | h | h
      · exact h
      all_goals omega
    rw [h16]
    refine ⟨fun _ => ?_, fun _ => noticedIn_short hb1 hb.2 hds⟩
    rintro (⟨h, -⟩ | ⟨h, -⟩) <;> exact hw h

/-- A number of a signed type is returned as it is. -/
theorem signedNum_eq (hw : w = 16 ∨ w = 32 ∨ w = 64) {neg : Bool} {n : Nat}
    (h : n ≤ 2 ^ (w - 1) - 1 + neg.toNat) : signedNum w neg n = if neg then -(n : Int) else n := by
  unfold signedNum
  apply Int.bmod_eq_of_le_mul_two
  all_goals
    rcases hw with rfl | rfl | rfl <;> cases neg <;> simp at h ⊢ <;> omega

/-- The test at the end of a `short`. -/
theorem parseNumOver_short (neg : Bool) (n : Nat) :
    parseNumOver 16 neg n = true ↔ 2 ^ 15 - 1 + neg.toNat < n := by
  unfold parseNumOver
  rw [if_pos (by decide), decide_eq_true_iff]
  omega

/-- The test at the end of a wider type takes a zero with a minus sign for an overflow. -/
theorem parseNumOver_wide (hw : w = 32 ∨ w = 64) {neg : Bool} {n : Nat} (hn : n < 2 ^ w) :
    parseNumOver w neg n = true ↔ (neg = true ∧ n = 0) ∨ 2 ^ (w - 1) - 1 + neg.toNat < n := by
  unfold parseNumOver
  rcases hw with rfl | rfl <;> rw [if_neg (by decide), decide_eq_true_iff] <;>
    cases neg <;> simp only [Bool.toNat_false, Bool.toNat_true, Bool.false_eq_true, false_and,
      true_and, false_or] <;> omega

/-- The numbers of a signed type. -/
theorem holds_signed {T : NumType} (hs : T.signed = true) (r : NumRead) :
    T.Holds r.value ↔ r.magnitude ≤ 2 ^ (T.width - 1) - 1 + r.neg.toNat := by
  unfold NumType.Holds NumRead.value
  rw [hs, if_pos rfl]
  rcases T.width_cases with h | h | h <;> rw [h] <;> cases r.neg <;> simp <;> omega

/-- A parser of signed numbers is exact if it reports what is too large for the sign. -/
theorem overflowExact_iff_reports {T : NumType} (hs : T.signed = true) {r : NumRead}
    {p : ParsedInt}
    (hnum : p.err ≠ .overflow →
      p.num = signedNum T.width r.neg (machineValue T.width r.base r.digits)) :
    OverflowExact T r.value p ↔
      (p.err = .overflow ↔ 2 ^ (T.width - 1) - 1 + r.neg.toNat < r.magnitude) := by
  have hhalf : 2 ^ T.width = 2 * 2 ^ (T.width - 1) ∧ 2 ≤ 2 ^ (T.width - 1) := by
    rcases T.width_cases with h | h | h <;> rw [h] <;> decide
  have hneg : r.neg.toNat ≤ 1 := Bool.toNat_le _
  constructor
  · intro h
    rw [h.reports, holds_signed hs, Nat.not_le]
  · intro h
    refine ⟨by rw [h, holds_signed hs, Nat.not_le], fun hne => ?_⟩
    have hle := hne
    rw [ne_eq, h, Nat.not_lt] at hle
    have hm : machineValue T.width r.base r.digits = r.magnitude :=
      Nat.mod_eq_of_lt (show r.magnitude < 2 ^ T.width by omega)
    rw [hnum hne, hm, signedNum_eq T.width_cases hle]
    rfl

/-- What an `int` and the wider types report. -/
theorem reports_wide {T : NumType} (hs : T.signed = true) {r : NumRead}
    (hb : 1 ≤ r.base) (hds : ∀ d ∈ r.digits, d < 36) (hw : 32 ≤ T.width) :
    ((NoticedIn T.width r.base r.digits ∨
        parseNumOver T.width r.neg (machineValue T.width r.base r.digits) = true) ↔
      2 ^ (T.width - 1) - 1 + r.neg.toNat < r.magnitude) ↔ ¬ NumSlips T r := by
  have hhalf : 2 ^ T.width = 2 * 2 ^ (T.width - 1) ∧ 2 ≤ 2 ^ (T.width - 1) := by
    rcases T.width_cases with h | h | h <;> rw [h] <;> decide
  have hneg : r.neg.toNat ≤ 1 := Bool.toNat_le _
  have hwide : T.width = 32 ∨ T.width = 64 := by
    rcases T.width_cases with h | h
    · omega
    · exact h
  have hle : NoticedIn T.width r.base r.digits → 2 ^ T.width ≤ r.magnitude :=
    NoticedIn.le_value hw hb hds
  have hlt : machineValue T.width r.base r.digits < 2 ^ T.width := Nat.mod_lt _ (by omega)
  have hsmall : r.magnitude < 2 ^ T.width →
      machineValue T.width r.base r.digits = r.magnitude := Nat.mod_eq_of_lt
  have hover : parseNumOver T.width r.neg _ = true ↔ _ := parseNumOver_wide hwide hlt
  rw [hover]
  constructor
  · rintro h (⟨-, hbig, hmul, hfits⟩ | ⟨-, -, hn, hzero⟩)
    · rcases h.mpr (by omega) with hin | hov
      · exact (not_noticedIn_wide hw hb hds).mpr hmul hin
      · have hov := hover.mpr hov
        unfold parseNumOver at hov
        rw [if_neg (by omega), decide_eq_true_iff] at hov
        have := hfits hs
        unfold machineValue at hov
        exact absurd hov (Nat.not_lt.mpr this)
    · have h0 := hsmall (by omega)
      have := h.mp (.inr (.inl ⟨hn, by rw [h0, hzero]⟩))
      omega
  · intro hno
    constructor
    · rintro (hin | ⟨hn, h0⟩ | hov)
      · have := hle hin
        omega
      · by_contra hc
        have := hsmall (by omega)
        exact hno (.minus hw hs hn (by omega))
      · have : machineValue T.width r.base r.digits ≤ r.magnitude := Nat.mod_le _ _
        omega
    · intro hbig
      by_contra hc
      simp only [not_or, not_and, Nat.not_lt] at hc
      obtain ⟨hin, h0, hov⟩ := hc
      by_cases hM : r.magnitude < 2 ^ T.width
      · rw [hsmall hM] at hov
        omega
      · refine hno (.carry hw (by omega) ((not_noticedIn_wide hw hb hds).mp hin) fun _ => ?_)
        by_contra hfit
        have hov' : parseNumOver T.width r.neg (machineValue T.width r.base r.digits) = true := by
          unfold parseNumOver
          rw [if_neg (by omega), decide_eq_true_iff]
          exact Nat.lt_of_not_le hfit
        rcases hover.mp hov' with ⟨hn, hz⟩ | h
        · exact h0 hn hz
        · omega

/-- What a `short` reports. -/
theorem reports_short {r : NumRead} (hb : 2 ≤ r.base ∧ r.base ≤ 36)
    (hds : ∀ d ∈ r.digits, d < 36) :
    (NoticedIn 16 r.base r.digits ∨
        parseNumOver 16 r.neg (machineValue 16 r.base r.digits) = true) ↔
      2 ^ 15 - 1 + r.neg.toNat < r.magnitude := by
  have hneg : r.neg.toNat ≤ 1 := Bool.toNat_le _
  rw [noticedIn_short (show 1 ≤ r.base by omega) hb.2 hds, parseNumOver_short]
  change 2 ^ 16 ≤ r.magnitude ∨ 2 ^ 15 - 1 + r.neg.toNat < r.magnitude % 2 ^ 16 ↔ _
  constructor
  · rintro (h | h)
    · omega
    · have := Nat.mod_le r.magnitude (2 ^ 16)
      omega
  · intro h
    by_cases hM : 2 ^ 16 ≤ r.magnitude
    · exact .inl hM
    · rw [Nat.mod_eq_of_lt (by omega)]
      exact .inr h

/-- The end of a signed parser. -/
theorem overflowExact_signed {T : NumType} (hs : T.signed = true) {r : NumRead}
    (hb : 2 ≤ r.base ∧ r.base ≤ 36) (hds : ∀ d ∈ r.digits, d < 36) {p : ParsedInt}
    (hnum : p.err ≠ .overflow →
      p.num = signedNum T.width r.neg (machineValue T.width r.base r.digits))
    (herr : p.err = .overflow ↔ NoticedIn T.width r.base r.digits ∨
      parseNumOver T.width r.neg (machineValue T.width r.base r.digits) = true) :
    OverflowExact T r.value p ↔ ¬ NumSlips T r := by
  rw [overflowExact_iff_reports hs hnum, herr]
  by_cases hw : 32 ≤ T.width
  · exact reports_wide hs (by omega) hds hw
  · have h16 : T.width = 16 := by
      rcases T.width_cases with h | h | h
      · exact h
      all_goals omega
    rw [h16]
    refine ⟨fun _ => ?_, fun _ => reports_short hb hds⟩
    rintro (⟨h, -⟩ | ⟨h, -⟩) <;> exact hw h

/-- Nothing is read. -/
theorem overflowExact_zero (T : NumType) {p : ParsedInt} (hnum : p.num = 0)
    (herr : p.err ≠ .overflow) : OverflowExact T 0 p := by
  have h0 : T.Holds 0 := by
    cases T <;> simp [NumType.Holds, NumType.signed, NumType.width]
  exact ⟨⟨fun h => absurd h herr, fun h => absurd h0 h⟩, fun _ => hnum⟩

/-- The parsers of unsigned numbers, behind the beginning. -/
theorem ufuncOf_digits {pos' len' : Nat} {isZeroed : Bool}
    (hb : numBegOf fl pos xs = .digits b pos' len' false isZeroed) (ho : fl.overflow = true) :
    (ufuncOf w fl pos xs).num =
        machineValue w b (digitsRead fl b (xs.drop (xs.length - len')) isZeroed) ∧
      ((ufuncOf w fl pos xs).err = .overflow ↔
        NoticedIn w b (digitsRead fl b (xs.drop (xs.length - len')) isZeroed)) := by
  have h := numLoopOf_hasRead (hasRead_nil fl w b len') (xs.drop (xs.length - len')) isZeroed
  rw [List.nil_append] at h
  unfold ufuncOf
  rw [hb]
  dsimp only
  rw [if_neg (by decide), oob_eq_overflow, h.overflow, ho]
  exact ⟨h.ret, by simp⟩

/-- The parsers of signed numbers, behind the beginning. -/
theorem sfuncOf_digits {pos' len' : Nat} {isNeg isZeroed : Bool}
    (hb : numBegOf fl pos xs = .digits b pos' len' isNeg isZeroed) (ho : fl.overflow = true)
    (hneg : ¬ (isNeg = true ∧ fl.noNegative = true)) :
    ((sfuncOf w fl pos xs).err ≠ .overflow → (sfuncOf w fl pos xs).num = signedNum w isNeg
        (machineValue w b (digitsRead fl b (xs.drop (xs.length - len')) isZeroed))) ∧
      ((sfuncOf w fl pos xs).err = .overflow ↔
        NoticedIn w b (digitsRead fl b (xs.drop (xs.length - len')) isZeroed) ∨
        parseNumOver w isNeg
          (machineValue w b (digitsRead fl b (xs.drop (xs.length - len')) isZeroed)) = true) := by
  have h := numLoopOf_hasRead (hasRead_nil fl w b len') (xs.drop (xs.length - len')) isZeroed
  rw [List.nil_append] at h
  unfold sfuncOf
  rw [hb]
  dsimp only
  rw [if_neg hneg]
  unfold parseNumEndS
  dsimp only
  rw [h.ret]
  by_cases hov : parseNumOver w isNeg
      (machineValue w b (digitsRead fl b (xs.drop (xs.length - len')) isZeroed)) = true
  · have hboth := And.intro ho hov
    rw [if_pos hboth, oob_eq_overflow]
    exact ⟨fun hne => absurd ((oob_eq_overflow _ _).mpr rfl) hne, fun _ => .inr hov, fun _ => rfl⟩
  · have hnot := fun hc : fl.overflow = true ∧ _ => hov hc.2
    rw [if_neg hnot, oob_eq_overflow, h.overflow, h.ret]
    exact ⟨fun _ => rfl, fun hc => .inl hc.2, fun hc => ⟨ho, hc.resolve_right hov⟩⟩

/-- On bytes, overflow is judged rightly but for the numbers of two kinds. -/
theorem parseOf_exact_iff (T : NumType) (ho : fl.overflow = true) (pos : Nat)
    (xs : List (Option UInt8)) :
    OverflowExact T (T.readValue fl pos xs) (T.parseOf fl pos xs) ↔
      ∀ r, T.read fl pos xs = some r → ¬ NumSlips T r := by
  have hfine := numBegOf_fine fl pos xs
  unfold NumType.readValue NumType.read
  cases hb : numBegOf fl pos xs with
  | bad err =>
    rw [hb] at hfine
    have hp : T.parseOf fl pos xs = ⟨0, 0, err⟩ := by
      unfold NumType.parseOf sfuncOf ufuncOf
      rw [hb]
      split <;> rfl
    rw [hp]
    exact ⟨(fun _ r hr => by cases hr), fun _ => overflowExact_zero T rfl hfine⟩
  | zero left err =>
    rw [hb] at hfine
    have hp : T.parseOf fl pos xs = ⟨0, xs.length - left, err⟩ := by
      unfold NumType.parseOf sfuncOf ufuncOf
      rw [hb]
      split <;> rfl
    rw [hp]
    exact ⟨(fun _ r hr => by cases hr), fun _ => overflowExact_zero T rfl hfine⟩
  | digits b pos' len' isNeg isZeroed =>
    rw [hb] at hfine
    have hds := digitsRead_lt fl hfine.2 (xs.drop (xs.length - len')) isZeroed
    dsimp only
    by_cases hno : isNeg = true ∧ (¬ T.signed = true ∨ fl.noNegative = true)
    · have hp : T.parseOf fl pos xs = ⟨0, 0, .negative⟩ := by
        unfold NumType.parseOf sfuncOf ufuncOf
        rw [hb]
        obtain ⟨h1, h2 | h2⟩ := hno <;> simp [h1, h2]
      rw [if_pos hno, hp]
      exact ⟨(fun _ r hr => by cases hr), fun _ => overflowExact_zero T rfl (by decide)⟩
    · rw [if_neg hno]
      have hone : ∀ r : NumRead,
          (∀ r', some r = some r' → ¬ NumSlips T r') ↔ ¬ NumSlips T r := by
        intro r
        exact ⟨fun h => h r rfl, fun h r' hr => Option.some.inj hr ▸ h⟩
      rw [hone]
      simp only [Option.map_some, Option.getD_some]
      unfold NumType.parseOf
      by_cases hs : T.signed = true
      · obtain ⟨h1, h2⟩ := sfuncOf_digits (w := T.width) hb ho fun hc => hno ⟨hc.1, .inr hc.2⟩
        rw [if_pos hs]
        exact overflowExact_signed hs (r := ⟨isNeg, b, _⟩) hfine hds h1 h2
      · have hneg : isNeg = false := by
          cases isNeg with
          | false => rfl
          | true => exact absurd ⟨rfl, .inl hs⟩ hno
        subst hneg
        obtain ⟨h1, h2⟩ := ufuncOf_digits (w := T.width) hb ho
        rw [if_neg hs]
        refine overflowExact_unsigned (by simpa using hs) (r := ⟨false, b, _⟩) rfl hfine hds ?_ h2
        exact congrArg Nat.cast h1

/-- The parsers report an overflow exactly if there is one, and else return the number, but
for the numbers of two kinds. -/
theorem overflow_exact_iff (wd : Window E P s pos len xs) (T : NumType) (fl : ParseNumFlags)
    (ho : fl.overflow = true) :
    OverflowExact T (T.readValue fl pos xs) (T.parse fl pos len s).1 ↔
      ∀ r, T.read fl pos xs = some r → ¬ NumSlips T r := by
  rw [show (T.parse fl pos len s).1 = T.parseOf fl pos xs from (parse_yields wd T fl).1]
  exact parseOf_exact_iff T ho pos xs

/-- Base ten, and overflows are reported. -/
def tenOverflow : ParseNumFlags where
  base := 10
  loc := false
  sep := false
  overflow := true
  space := false
  noBegZero := false
  noBegPm := false

/-- The text of 123. -/
def text123 : List UInt8 := [0x31, 0x32, 0x33]

/-- The number 123 is a `short`. -/
theorem overflow_exact_short :
    OverflowExact .short 123 (NumType.short.parse tenOverflow 1 3 (written text123)).1 := by
  obtain ⟨P, wd⟩ := window_text text123
  refine (overflow_exact_iff wd .short tenOverflow rfl).mpr fun r hr => ?_
  rintro (⟨h, -⟩ | ⟨h, -⟩) <;> exact absurd h (by decide)

/-- The text of two to the power of 32. -/
def textTwo32 : List UInt8 := [0x34, 0x32, 0x39, 0x34, 0x39, 0x36, 0x37, 0x32, 0x39, 0x36]

/-- A minus sign without a digit. -/
def textMinus : List UInt8 := [0x2D, 0x3B]

/-- Two to the power of 32 is read as zero, and a minus sign without a digit overflows. -/
theorem overflow_unseen :
    (∃ P, Window alone P (written textTwo32) 1 textTwo32.length (textTwo32.map some)) ∧
    NumType.uint.readValue tenOverflow 1 (textTwo32.map some) = 2 ^ 32 ∧
    (NumType.uint.parse tenOverflow 1 textTwo32.length (written textTwo32)).1 = ⟨0, 10, .none⟩ ∧
    (∃ P, Window alone P (written textMinus) 1 textMinus.length (textMinus.map some)) ∧
    NumType.int.readValue tenOverflow 1 (textMinus.map some) = 0 ∧
    (NumType.int.parse tenOverflow 1 textMinus.length (written textMinus)).1 =
      ⟨-2147483648, 1, .overflow⟩ := by
  obtain ⟨P, wd⟩ := window_text textTwo32
  obtain ⟨P', wd'⟩ := window_text textMinus
  refine ⟨⟨P, wd⟩, by decide, (parse_yields wd .uint tenOverflow).1.trans ?_, ⟨P', wd'⟩,
    by decide, (parse_yields wd' .int tenOverflow).1.trans ?_⟩
  · decide
  · decide

end Vstr
