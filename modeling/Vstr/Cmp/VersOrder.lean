import Mathlib
import Vstr.Cmp.Vers

/-!
# The order of versions

In each state the comparison is that of keys. Runs of digits are compared by how far they
reach, those that begin with a zero the other way round; but behind the first digit of such a
run that is not zero the state machine goes on as if in any other number.
-/

namespace Vstr

open Memory Splice Query

variable {xs ys zs : List (Option UInt8)} {st : VersState} {d : Int} {a b : UInt8}

/-! ## Changing places -/

theorem VersState.differ_swap (st : VersState) (a b : UInt8) : st.differ b a = st.differ a b := by
  unfold VersState.differ
  cases st <;> dsimp only <;> congr 1 <;> split_ifs <;> simp_all

theorem cmpVersLen_swap (st : VersState) (d : Int) (a b : UInt8) :
    cmpVersLen st (-d) [b] [a] =
      ((cmpVersLen st d [a] [b]).1, -(cmpVersLen st d [a] [b]).2) := by
  simp only [cmpVersLen]
  cases isAsciiDigit a <;> cases isAsciiDigit b <;> simp
  all_goals ring

theorem cmpVersBytes_swap (st : VersState) (d : Int) (a b : UInt8) :
    cmpVersBytes [b] [a] st (-d) =
      ((cmpVersBytes [a] [b] st d).1, -(cmpVersBytes [a] [b] st d).2) := by
  cases hm : st.main with
  | false => rw [cmpVersBytes_len hm, cmpVersBytes_len hm, cmpVersLen_swap]
  | true =>
    by_cases hab : a = b
    · subst hab
      rw [cmpVersBytes_self hm, cmpVersBytes_self hm]
    · rw [cmpVersBytes_of_ne hm hab, cmpVersBytes_of_ne hm (Ne.symm hab), VersState.differ_swap,
        ← Int.neg_sub (plainChar a)]
      split_ifs
      · rfl
      · exact cmpVersLen_swap _ _ a b

theorem scan2Longer_eq (st : VersState) : scan2Longer st = -scan1Longer st := by
  unfold scan1Longer scan2Longer
  split_ifs <;> rfl

/-- The slices change places. -/
theorem versFlat_swap (st : VersState) (d : Int) (xs ys : List (Option UInt8)) :
    versFlat st (-d) ys xs = -versFlat st d xs ys := by
  induction xs generalizing st d ys with
  | nil =>
    cases ys with
    | nil => rfl
    | cons y ys => simp [versFlat, scan2Longer_eq]
  | cons x xs ih =>
    cases ys with
    | nil => simp [versFlat, scan2Longer_eq]
    | cons y ys =>
      rcases x with - | a <;> rcases y with - | b
      · exact ih st d ys
      · simp [versFlat, scan2Longer_eq]
      · simp [versFlat, scan2Longer_eq]
      · rw [versFlat_cons, versFlat_cons, cmpVersBytes_swap]
        rcases cmpVersBytes [a] [b] st d with ⟨st', d'⟩
        cases st' with
        | done => rfl
        | norm | numb | frac | lenPos | lenNeg => exact ih _ d' ys

/-! ## Keys -/

/-- How far a run of digits reaches: digits, unknown bytes, and another byte or the end. -/
def reach : List (Option UInt8) → List ℕ
  | [] => [0]
  | none :: xs => 1 :: reach xs
  | some a :: xs => if isAsciiDigit a then 3 :: reach xs else [2]

/-- The first byte; the end comes before unknown bytes, and these before all others. -/
def front : List (Option UInt8) → WithBot (WithBot ℤ)
  | [] => ⊥
  | none :: _ => ((⊥ : WithBot ℤ) : WithBot (WithBot ℤ))
  | some a :: _ => ((plainChar a : WithBot ℤ) : WithBot (WithBot ℤ))

/-- The key in a number. -/
def numbKey (xs : List (Option UInt8)) : List ℕ ×ₗ WithBot (WithBot ℤ) := toLex (reach xs, front xs)

/-- The key in a fraction. -/
def fracKey (xs : List (Option UInt8)) : (List ℕ)ᵒᵈ ×ₗ WithBot (WithBot ℤ) :=
  toLex (OrderDual.toDual (reach xs), front xs)

/-- A number begins here that is no fraction. -/
def startsNumb : List (Option UInt8) → Bool
  | some a :: _ => isAsciiDigit a ∧ a ≠ 0x30
  | _ => false

/-- The first byte, where all numbers are one. -/
def normFront (xs : List (Option UInt8)) : WithBot (WithBot ℤ) :=
  if startsNumb xs then ((0x31 : ℤ) : WithBot ℤ) else front xs

/-- The key outside of numbers. -/
def normKey (xs : List (Option UInt8)) :
    WithBot (WithBot ℤ) ×ₗ (List ℕ ×ₗ WithBot (WithBot ℤ)) :=
  toLex (normFront xs, if startsNumb xs then numbKey xs else toLex ([], ⊥))

theorem numbKey_lt_iff : numbKey xs < numbKey ys ↔
    reach xs < reach ys ∨ reach xs = reach ys ∧ front xs < front ys := by
  rw [numbKey, numbKey, Prod.Lex.toLex_lt_toLex]

theorem fracKey_lt_iff : fracKey xs < fracKey ys ↔
    reach ys < reach xs ∨ reach xs = reach ys ∧ front xs < front ys := by
  rw [fracKey, fracKey, Prod.Lex.toLex_lt_toLex]
  simp only [OrderDual.toDual_lt_toDual, OrderDual.toDual_inj]

theorem front_some_lt : front (some a :: xs) < front (some b :: ys) ↔
    plainChar a < plainChar b := by
  simp [front]

/-- What the first byte is to a run of digits. -/
def rank : List (Option UInt8) → ℕ
  | [] => 0
  | none :: _ => 1
  | some a :: _ => if isAsciiDigit a then 3 else 2

theorem reach_lt_of_rank (h : rank xs < rank ys) : reach xs < reach ys := by
  have hr : ∀ zs, ∃ t, reach zs = rank zs :: t := by
    intro zs
    rcases zs with - | ⟨- | c, zs⟩
    · exact ⟨[], rfl⟩
    · exact ⟨_, rfl⟩
    · rw [reach, rank]
      split_ifs
      · exact ⟨_, rfl⟩
      · exact ⟨_, rfl⟩
  obtain ⟨t, ht⟩ := hr xs
  obtain ⟨u, hu⟩ := hr ys
  rw [ht, hu]
  exact List.Lex.rel h

theorem rank_some (a : UInt8) (xs : List (Option UInt8)) : 2 ≤ rank (some a :: xs) := by
  rw [rank]
  split_ifs <;> omega

/-- Slices that do not both begin with a known byte. -/
theorem versFlat_of_front (st : VersState) (d : Int) (hne : front xs ≠ front ys)
    (hn : ∀ a b xs' ys', xs = some a :: xs' → ys ≠ some b :: ys') :
    front xs < front ys ∧ reach xs < reach ys ∧ versFlat st d xs ys = scan2Longer st ∨
    front ys < front xs ∧ reach ys < reach xs ∧ versFlat st d xs ys = scan1Longer st := by
  rcases xs with - | ⟨- | a, xs⟩ <;> rcases ys with - | ⟨- | b, ys⟩
  · exact absurd rfl hne
  · exact .inl ⟨by simp [front], reach_lt_of_rank Nat.zero_lt_one, rfl⟩
  · exact .inl ⟨by simp [front],
      reach_lt_of_rank (Nat.lt_of_lt_of_le Nat.two_pos (rank_some b ys)), rfl⟩
  · exact .inr ⟨by simp [front], reach_lt_of_rank Nat.zero_lt_one, rfl⟩
  · exact absurd rfl hne
  · exact .inl ⟨by simp [front], reach_lt_of_rank (rank_some b ys), rfl⟩
  · exact .inr ⟨by simp [front],
      reach_lt_of_rank (Nat.lt_of_lt_of_le Nat.two_pos (rank_some a xs)), rfl⟩
  · exact .inr ⟨by simp [front], reach_lt_of_rank (rank_some a xs), rfl⟩
  · exact absurd rfl (hn a b xs ys rfl)

/-! ## Strings that differ -/

/-- A byte of both strings once they differ. -/
theorem cmpVersBytes_of_len (hm : st = .lenPos ∨ st = .lenNeg) (d : Int) (a b : UInt8) :
    cmpVersBytes [a] [b] st d = match isAsciiDigit a, isAsciiDigit b with
      | true, true => (st, d)
      | true, false => (.done, -st.val + 5)
      | false, true => (.done, st.val - 5)
      | false, false => (.done, d) := by
  rw [cmpVersBytes_len (by rcases hm with rfl | rfl <;> rfl)]
  simp only [cmpVersLen]
  cases isAsciiDigit a <;> cases isAsciiDigit b <;> simp <;> ring

/-- Once the strings differ the longer run of digits decides. -/
theorem versFlat_len (hm : st = .lenPos ∨ st = .lenNeg) (d : Int) (xs ys : List (Option UInt8)) :
    reach xs < reach ys ∧ (versFlat st d xs ys).sign = scan2Longer st ∨
    reach ys < reach xs ∧ (versFlat st d xs ys).sign = scan1Longer st ∨
    reach xs = reach ys ∧ versFlat st d xs ys = d := by
  have hsign : (scan1Longer st).sign = scan1Longer st ∧ (scan2Longer st).sign = scan2Longer st := by
    rcases hm with rfl | rfl <;> exact ⟨rfl, rfl⟩
  have hfront : ∀ xs ys, front xs ≠ front ys →
      (∀ a b xs' ys', xs = some a :: xs' → ys ≠ some b :: ys') →
      reach xs < reach ys ∧ (versFlat st d xs ys).sign = scan2Longer st ∨
      reach ys < reach xs ∧ (versFlat st d xs ys).sign = scan1Longer st ∨
      reach xs = reach ys ∧ versFlat st d xs ys = d := by
    intro xs ys hne hn
    rcases versFlat_of_front st d hne hn with ⟨-, hr, e⟩ | ⟨-, hr, e⟩
    · exact .inl ⟨hr, by rw [e, hsign.2]⟩
    · exact .inr (.inl ⟨hr, by rw [e, hsign.1]⟩)
  induction xs generalizing ys with
  | nil =>
    rcases ys with - | ⟨- | b, ys⟩
    · exact .inr (.inr ⟨rfl, rfl⟩)
    · exact hfront _ _ (by simp [front]) (by simp)
    · exact hfront _ _ (by simp [front]) (by simp)
  | cons x xs ih =>
    rcases x with - | a <;> rcases ys with - | ⟨- | b, ys⟩
    · exact hfront _ _ (by simp [front]) (by simp)
    · simpa [reach, versFlat] using ih ys
    · exact hfront _ _ (by simp [front]) (by simp)
    · exact hfront _ _ (by simp [front]) (by simp)
    · exact hfront _ _ (by simp [front]) (by simp)
    · rw [versFlat_cons, cmpVersBytes_of_len hm]
      cases ha : isAsciiDigit a <;> cases hb : isAsciiDigit b
      · exact .inr (.inr ⟨by simp [reach, ha, hb], rfl⟩)
      · refine .inl ⟨reach_lt_of_rank (by simp [rank, ha, hb]), ?_⟩
        rcases hm with rfl | rfl <;> rfl
      · refine .inr (.inl ⟨reach_lt_of_rank (by simp [rank, ha, hb]), ?_⟩)
        rcases hm with rfl | rfl <;> rfl
      · rcases hm with rfl | rfl
        · simpa [reach, ha, hb] using ih ys
        · simpa [reach, ha, hb] using ih ys

/-- Known bytes that differ. -/
theorem versFlat_of_ne (hm : st.main = true) (hab : a ≠ b) (d : Int)
    (xs ys : List (Option UInt8)) :
    versFlat st d (some a :: xs) (some b :: ys) = if st.differ a b = .done
      then plainChar a - plainChar b
      else versFlat (st.differ a b) (plainChar a - plainChar b) (some a :: xs) (some b :: ys) := by
  rw [versFlat_cons, cmpVersBytes_of_ne hm hab]
  split_ifs with hd
  · rfl
  · rw [versFlat_cons, cmpVersBytes_len (VersState.differ_main hm a b)]

/-- What becomes of a number or a fraction where the strings differ. -/
theorem VersState.differ_numb_frac (hs : st = .numb ∨ st = .frac) (a b : UInt8) :
    st.differ a b = .done ∧ isAsciiDigit a = false ∧ isAsciiDigit b = false ∨
    (st.differ a b = .lenPos ∨ st.differ a b = .lenNeg) ∧
      scan1Longer (st.differ a b) = scan1Longer st := by
  cases ha : isAsciiDigit a <;> cases hb : isAsciiDigit b <;> rcases hs with rfl | rfl <;>
    simp [VersState.differ, VersState.newState, ha, hb, scan1Longer]

/-- In a number and in a fraction the run of digits decides, and then the first byte. -/
theorem versFlat_numb_frac (hs : st = .numb ∨ st = .frac) (hne : front xs ≠ front ys) (d : Int) :
    reach xs < reach ys ∧ (versFlat st d xs ys).sign = scan2Longer st ∨
    reach ys < reach xs ∧ (versFlat st d xs ys).sign = scan1Longer st ∨
    reach xs = reach ys ∧ (versFlat st d xs ys < 0 ↔ front xs < front ys) := by
  have hsign : (scan1Longer st).sign = scan1Longer st ∧ (scan2Longer st).sign = scan2Longer st := by
    rcases hs with rfl | rfl <;> exact ⟨rfl, rfl⟩
  by_cases hdata : ∃ a b xs' ys', xs = some a :: xs' ∧ ys = some b :: ys'
  · obtain ⟨a, b, xs, ys, rfl, rfl⟩ := hdata
    have hab : a ≠ b := fun e => hne (by rw [e]; rfl)
    have hm : st.main = true := by
      rcases hs with rfl | rfl <;> rfl
    rw [versFlat_of_ne hm hab, front_some_lt]
    rcases VersState.differ_numb_frac hs a b with ⟨hd, ha, hb⟩ | ⟨hd, hl⟩
    · rw [if_pos hd]
      exact .inr (.inr ⟨by simp [reach, ha, hb], sub_neg⟩)
    · rw [if_neg (by rcases hd with hd | hd <;> rw [hd] <;> decide), scan2Longer_eq, ← hl,
        ← scan2Longer_eq]
      rcases versFlat_len hd (plainChar a - plainChar b) (some a :: xs) (some b :: ys) with
        h | h | ⟨hr, e⟩
      · exact .inl h
      · exact .inr (.inl h)
      · exact .inr (.inr ⟨hr, by rw [e, sub_neg]⟩)
  · rcases versFlat_of_front st d hne fun a b xs' ys' hx hy => hdata ⟨a, b, xs', ys', hx, hy⟩ with
      ⟨-, hr, e⟩ | ⟨-, hr, e⟩
    · exact .inl ⟨hr, by rw [e, hsign.2]⟩
    · exact .inr (.inl ⟨hr, by rw [e, hsign.1]⟩)

/-- The comparison in a number. -/
theorem versFlat_numb_lt (hne : front xs ≠ front ys) :
    versFlat .numb 0 xs ys < 0 ↔ numbKey xs < numbKey ys := by
  rw [numbKey_lt_iff, ← Int.sign_eq_neg_one_iff_neg]
  rcases versFlat_numb_frac (.inl rfl) hne 0 with ⟨hr, e⟩ | ⟨hr, e⟩ | ⟨hr, e⟩
  · exact iff_of_true e (.inl hr)
  · refine iff_of_false (by rw [e]; decide) ?_
    rintro (h | ⟨h, -⟩)
    · exact lt_asymm h hr
    · exact hr.ne' h
  · rw [Int.sign_eq_neg_one_iff_neg, e]
    simp [hr]

/-- The comparison in a fraction. -/
theorem versFlat_frac_lt (hne : front xs ≠ front ys) :
    versFlat .frac 0 xs ys < 0 ↔ fracKey xs < fracKey ys := by
  rw [fracKey_lt_iff, ← Int.sign_eq_neg_one_iff_neg]
  rcases versFlat_numb_frac (.inr rfl) hne 0 with ⟨hr, e⟩ | ⟨hr, e⟩ | ⟨hr, e⟩
  · refine iff_of_false (by rw [e]; decide) ?_
    rintro (h | ⟨h, -⟩)
    · exact lt_asymm h hr
    · exact hr.ne h
  · exact iff_of_true e (.inl hr)
  · rw [Int.sign_eq_neg_one_iff_neg, e]
    simp [hr]

/-- A number begins with one of nine bytes. -/
theorem startsNumb_iff : startsNumb xs = true ↔
    ∃ a xs', xs = some a :: xs' ∧ 0x31 ≤ plainChar a ∧ plainChar a ≤ 0x39 := by
  rcases xs with - | ⟨- | a, xs⟩
  · simp [startsNumb]
  · simp [startsNumb]
  · have hlt := a.toNat_lt
    have hdig : startsNumb (some a :: xs) = true ↔ 0x31 ≤ a.toNat ∧ a.toNat ≤ 0x39 := by
      simp only [startsNumb, isAsciiDigit, UInt8.le_iff_toNat_le, ne_eq, ← UInt8.toNat_inj,
        decide_eq_true_eq, UInt8.reduceToNat]
      omega
    have hplain : 0x31 ≤ plainChar a ∧ plainChar a ≤ 0x39 ↔ 0x31 ≤ a.toNat ∧ a.toNat ≤ 0x39 := by
      unfold plainChar
      split_ifs <;> omega
    rw [hdig, ← hplain]
    refine ⟨fun h => ⟨a, xs, rfl, h⟩, ?_⟩
    rintro ⟨b, ys, e, h⟩
    cases e
    exact h

/-- Two numbers apart, numbers lie where they are. -/
theorem normFront_lt (hlt : front xs < front ys)
    (hn : ¬ (startsNumb xs = true ∧ startsNumb ys = true)) : normFront xs < normFront ys := by
  unfold normFront
  by_cases hx : startsNumb xs = true
  · have hy : ¬ startsNumb ys = true := fun hy => hn ⟨hx, hy⟩
    rw [if_pos hx, if_neg hy]
    obtain ⟨a, xs, rfl, ha, ha'⟩ := startsNumb_iff.1 hx
    rcases ys with - | ⟨- | b, ys⟩
    · simp [front] at hlt
    · simp [front] at hlt
    · rw [front_some_lt] at hlt
      have hb : ¬ (0x31 ≤ plainChar b ∧ plainChar b ≤ 0x39) := fun hb =>
        hy (startsNumb_iff.2 ⟨b, ys, rfl, hb⟩)
      simp only [front, WithBot.coe_lt_coe]
      omega
  · rw [if_neg hx]
    by_cases hy : startsNumb ys = true
    · rw [if_pos hy]
      obtain ⟨b, ys, rfl, hb, hb'⟩ := startsNumb_iff.1 hy
      rcases xs with - | ⟨- | a, xs⟩
      · exact WithBot.bot_lt_coe _
      · exact WithBot.coe_lt_coe.2 (WithBot.bot_lt_coe _)
      · rw [front_some_lt] at hlt
        have ha : ¬ (0x31 ≤ plainChar a ∧ plainChar a ≤ 0x39) := fun ha =>
          hx (startsNumb_iff.2 ⟨a, xs, rfl, ha⟩)
        simp only [front, WithBot.coe_lt_coe]
        omega
    · rwa [if_neg hy]

/-- What becomes of the strings outside of numbers where they differ. -/
theorem VersState.differ_norm (a b : UInt8) (xs ys : List (Option UInt8)) :
    VersState.norm.differ a b =
      if startsNumb (some a :: xs) = true ∧ startsNumb (some b :: ys) = true then .lenPos
      else .done := by
  simp only [startsNumb, decide_eq_true_eq, and_assoc, VersState.differ]
  split_ifs <;> rfl

/-- The comparison outside of numbers. -/
theorem versFlat_norm_lt (hne : front xs ≠ front ys) :
    versFlat .norm 0 xs ys < 0 ↔ normKey xs < normKey ys := by
  rw [normKey, normKey, Prod.Lex.toLex_lt_toLex]
  dsimp only
  by_cases hn : startsNumb xs = true ∧ startsNumb ys = true
  · have hnf : normFront xs = normFront ys := by
      rw [normFront, normFront, if_pos hn.1, if_pos hn.2]
    rw [if_pos hn.1, if_pos hn.2, hnf, numbKey_lt_iff, ← Int.sign_eq_neg_one_iff_neg]
    simp only [lt_self_iff_false, true_and, false_or]
    obtain ⟨a, xs, rfl, -⟩ := startsNumb_iff.1 hn.1
    obtain ⟨b, ys, rfl, -⟩ := startsNumb_iff.1 hn.2
    have hab : a ≠ b := fun e => hne (by rw [e]; rfl)
    rw [versFlat_of_ne rfl hab, VersState.differ_norm a b xs ys, if_pos hn,
      if_neg (by decide)]
    rcases versFlat_len (.inl rfl) (plainChar a - plainChar b) (some a :: xs) (some b :: ys) with
      ⟨hr, e⟩ | ⟨hr, e⟩ | ⟨hr, e⟩
    · exact iff_of_true e (.inl hr)
    · refine iff_of_false (by rw [e]; decide) ?_
      rintro (h | ⟨h, -⟩)
      · exact lt_asymm h hr
      · exact hr.ne' h
    · rw [Int.sign_eq_neg_one_iff_neg, e, sub_neg, front_some_lt]
      simp [hr]
  · have hfront : versFlat .norm 0 xs ys < 0 ↔ front xs < front ys := by
      by_cases hdata : ∃ a b xs' ys', xs = some a :: xs' ∧ ys = some b :: ys'
      · obtain ⟨a, b, xs, ys, rfl, rfl⟩ := hdata
        have hab : a ≠ b := fun e => hne (by rw [e]; rfl)
        have hd : VersState.norm.differ a b = .done := by
          rw [VersState.differ_norm a b xs ys, if_neg hn]
        rw [versFlat_of_ne rfl hab, if_pos hd, front_some_lt, sub_neg]
      · rcases versFlat_of_front .norm 0 hne fun a b xs' ys' hx hy =>
          hdata ⟨a, b, xs', ys', hx, hy⟩ with ⟨hf, -, e⟩ | ⟨hf, -, e⟩
        · exact iff_of_true (by rw [e]; decide) hf
        · exact iff_of_false (by rw [e]; decide) (lt_asymm hf)
    rw [hfront]
    rcases lt_or_gt_of_ne hne with hlt | hgt
    · exact iff_of_true hlt (.inl (normFront_lt hlt hn))
    · have hgt' := normFront_lt hgt fun h => hn h.symm
      refine iff_of_false (lt_asymm hgt) ?_
      rintro (h | ⟨h, -⟩)
      · exact lt_asymm hgt' h
      · exact hgt'.ne' h

/-! ## Common beginnings -/

/-- The state behind a byte of both strings. -/
def VersState.step (st : VersState) : Option UInt8 → VersState
  | none => st
  | some a => st.next a

/-- The state behind bytes of both strings. -/
def VersState.along (st : VersState) (p : List (Option UInt8)) : VersState := p.foldl step st

@[simp] theorem VersState.along_nil (st : VersState) : st.along [] = st := rfl

@[simp] theorem VersState.along_cons (st : VersState) (x : Option UInt8)
    (p : List (Option UInt8)) : st.along (x :: p) = (st.step x).along p := rfl

theorem VersState.main_step (hm : st.main = true) (x : Option UInt8) : (st.step x).main = true := by
  cases x with
  | none => exact hm
  | some a => exact VersState.main_next hm a

theorem versFlat_cons_self (hm : st.main = true) (x : Option UInt8) (d : Int)
    (xs ys : List (Option UInt8)) :
    versFlat st d (x :: xs) (x :: ys) = versFlat (st.step x) d xs ys := by
  cases x with
  | none => rfl
  | some a =>
    have hn := VersState.main_next hm a
    rw [versFlat_cons, cmpVersBytes_self hm, VersState.step]
    cases he : st.next a with
    | done =>
      rw [he] at hn
      cases hn
    | norm | numb | frac | lenPos | lenNeg => rfl

/-- A common beginning. -/
theorem versFlat_append_self (hm : st.main = true) (p : List (Option UInt8)) (d : Int)
    (xs ys : List (Option UInt8)) :
    versFlat st d (p ++ xs) (p ++ ys) = versFlat (st.along p) d xs ys := by
  induction p generalizing st with
  | nil => rfl
  | cons x p ih =>
    rw [List.cons_append, List.cons_append, versFlat_cons_self hm, ih (VersState.main_step hm x),
      VersState.along_cons]

theorem versFlat_self (hm : st.main = true) (d : Int) (xs : List (Option UInt8)) :
    versFlat st d xs xs = d := by
  have h := versFlat_append_self hm xs d [] []
  rwa [List.append_nil] at h

/-- Slices begin with one byte, or both are empty, if their first bytes are one. -/
theorem front_eq_iff : front xs = front ys ↔ xs.head? = ys.head? := by
  rcases xs with - | ⟨- | a, xs⟩ <;> rcases ys with - | ⟨- | b, ys⟩ <;>
    simp [front, plainChar_inj]

theorem exists_cons_of_front_eq {x : Option UInt8} (h : front (x :: xs) = front ys) :
    ∃ ys', ys = x :: ys' := by
  cases ys with
  | nil => simpa using front_eq_iff.1 h
  | cons y ys =>
    obtain rfl : x = y := by simpa using front_eq_iff.1 h
    exact ⟨ys, rfl⟩

theorem reach_ne_nil (xs : List (Option UInt8)) : reach xs ≠ [] := by
  rcases xs with - | ⟨- | a, xs⟩
  · exact List.cons_ne_nil _ _
  · exact List.cons_ne_nil _ _
  · rw [reach]
    split_ifs <;> exact List.cons_ne_nil _ _

theorem front_eq_of_normKey (h : normKey xs = normKey ys) : front xs = front ys := by
  obtain ⟨h₁, h₂⟩ := Prod.mk.inj (toLex.injective h)
  have hnil : ∀ zs, numbKey zs ≠ toLex ([], ⊥) := fun zs e =>
    reach_ne_nil zs (Prod.mk.inj (toLex.injective e)).1
  unfold normFront at h₁
  split_ifs at h₁ h₂
  · exact (Prod.mk.inj (toLex.injective h₂)).2
  · exact absurd h₂ (hnil _)
  · exact absurd h₂.symm (hnil _)
  · exact h₁

/-- Slices that begin differently are not equal. -/
theorem versFlat_lt_or_gt (hm : st.main = true) (hne : front xs ≠ front ys) :
    versFlat st 0 xs ys < 0 ∨ versFlat st 0 ys xs < 0 := by
  cases st with
  | norm =>
    rw [versFlat_norm_lt hne, versFlat_norm_lt hne.symm]
    exact lt_or_gt_of_ne fun h => hne (front_eq_of_normKey h)
  | numb =>
    rw [versFlat_numb_lt hne, versFlat_numb_lt hne.symm]
    exact lt_or_gt_of_ne fun h => hne (Prod.mk.inj (toLex.injective h)).2
  | frac =>
    rw [versFlat_frac_lt hne, versFlat_frac_lt hne.symm]
    exact lt_or_gt_of_ne fun h => hne (Prod.mk.inj (toLex.injective h)).2
  | lenPos | lenNeg | done => cases hm

theorem versFlat_zero_swap (st : VersState) (xs ys : List (Option UInt8)) :
    versFlat st 0 ys xs = -versFlat st 0 xs ys := by
  have h := versFlat_swap st 0 xs ys
  rwa [neg_zero] at h

/-- Only equal slices are equal. -/
theorem versFlat_eq_zero_iff (hm : st.main = true) : versFlat st 0 xs ys = 0 ↔ xs = ys := by
  refine ⟨fun h => ?_, fun h => by rw [h, versFlat_self hm]⟩
  induction xs generalizing ys st with
  | nil =>
    cases ys with
    | nil => rfl
    | cons y ys =>
      have hne : front [] ≠ front (y :: ys) := fun e => by simpa using front_eq_iff.1 e
      have hs := versFlat_zero_swap st [] (y :: ys)
      rcases versFlat_lt_or_gt hm hne with hlt | hlt <;> omega
  | cons x xs ih =>
    by_cases hne : front (x :: xs) = front ys
    · obtain ⟨ys, rfl⟩ := exists_cons_of_front_eq hne
      rw [versFlat_cons_self hm] at h
      rw [ih (VersState.main_step hm x) h]
    · have hs := versFlat_zero_swap st (x :: xs) ys
      rcases versFlat_lt_or_gt hm hne with hlt | hlt <;> omega

end Vstr
