import Vstr.Split.Turn

/-!
# The fields that the flags keep

Every empty field is at the beginning, in the middle, at the end or the last one, and a flag
says whether it is kept. Without a limit a split wants just these sections, however the source
counts them.
-/

namespace Vstr

open Separate

variable {limit orig fuel pos added count width n k : Nat} {ns : List Nat} {fl : SplitFlags}
  {found front : Bool}

/-- The sections of fields of these lengths that the flags keep; `front` says that nothing but
separators is before them. Of the empty fields at the end as many are there as an `unsigned int`
counts of them. -/
def wanted (fl : SplitFlags) (width : Nat) : Bool → Nat → List Nat → List Sect
  | _, _, [] => []
  | _, pos, [n] => if n ≠ 0 ∨ fl.postNull = true then [⟨pos, n⟩] else []
  | front, pos, 0 :: m :: ms =>
    if bare (m :: ms) then
      if front ∧ ¬ fl.begNull then []
      else planNullEnd fl 0 width pos (stretch width (0 :: m :: ms))
        (lead (0 :: m :: ms) % 2 ^ 32) 0
    else
      (if (if front then fl.begNull else fl.midNull) then [⟨pos, 0⟩] else []) ++
        wanted fl width front (pos + width) (m :: ms)
  | _, pos, (n + 1) :: m :: ms =>
    ⟨pos, n + 1⟩ :: wanted fl width false (pos + (n + 1 + width)) (m :: ms)

/-- A field that is not empty. -/
theorem wanted_field (hne : ns ≠ []) :
    wanted fl width front pos ((n + 1) :: ns) =
      ⟨pos, n + 1⟩ :: wanted fl width false (pos + (n + 1 + width)) ns := by
  obtain ⟨m, ms, rfl⟩ := List.exists_cons_of_ne_nil hne
  rw [wanted]

/-- An empty field with something behind it. -/
theorem wanted_null (hne : ns ≠ []) (hb : bare ns = false) :
    wanted fl width front pos (0 :: ns) =
      (if (if front then fl.begNull else fl.midNull) then [⟨pos, 0⟩] else []) ++
        wanted fl width front (pos + width) ns := by
  obtain ⟨m, ms, rfl⟩ := List.exists_cons_of_ne_nil hne
  rw [wanted, if_neg (by rw [hb]; exact Bool.false_ne_true)]

/-- Nothing but separators. -/
theorem wanted_bare (hne : ns ≠ []) (hb : bare ns = true) :
    wanted fl width front pos (0 :: ns) = if front = true ∧ ¬ fl.begNull = true then []
      else planNullEnd fl 0 width pos (stretch width (0 :: ns)) (lead (0 :: ns) % 2 ^ 32) 0 := by
  obtain ⟨m, ms, rfl⟩ := List.exists_cons_of_ne_nil hne
  rw [wanted, if_pos hb]

/-- Empty fields in a row. -/
theorem wanted_nulls (hk : k ≤ lead ns) (hb : bare ns = false) :
    wanted fl width front pos ns =
      (if (if front then fl.begNull else fl.midNull) then nullsAt width pos k else []) ++
        wanted fl width front (pos + k * width) (ns.drop k) := by
  induction k generalizing pos ns with
  | zero =>
    rw [Nat.zero_mul, Nat.add_zero, List.drop_zero]
    generalize (if front then fl.begNull else fl.midNull) = null
    cases null <;> rfl
  | succ k ih =>
    obtain ⟨ms, hms, rfl, hl⟩ := exists_of_lead (show 0 < lead ns by omega)
    rw [bare_cons_zero] at hb
    rw [wanted_null hms hb, ih (by omega) hb, List.drop_succ_cons, Nat.succ_mul,
      Nat.add_comm (k * width), ← Nat.add_assoc, ← List.append_assoc]
    congr 1
    generalize (if front then fl.begNull else fl.midNull) = null
    cases null <;> rfl

/-- Without an empty field at the beginning, nothing is said about what is before. -/
theorem wanted_front (h : lead ns = 0) :
    wanted fl width front pos ns = wanted fl width false pos ns := by
  rcases ns with - | ⟨- | n, - | ⟨m, ms⟩⟩
  · rfl
  · rw [wanted, wanted]
  · rw [lead_cons_zero (List.cons_ne_nil m ms)] at h
    omega
  · rw [wanted, wanted]
  · rw [wanted, wanted]

theorem splitQuota_zero : splitQuota fl 0 count added = count := if_neg (by simp)

/-- Without a limit it does not matter how many sections there are. -/
theorem planNullEnd_unlimited (len : Nat) :
    planNullEnd fl 0 width pos len count added = planNullEnd fl 0 width pos len count 0 := by
  rw [planNullEnd, planNullEnd, splitQuota_zero, splitQuota_zero]

/-- Nothing but separators, all of them counted. -/
theorem planNullEnd_all (h : 0 < k * width) :
    planNullEnd fl 0 width pos (k * width) k 0 =
      if fl.endNull then
        nullsAt width pos k ++ if fl.postNull then [⟨pos + k * width, 0⟩] else []
      else if fl.remain then [⟨pos, k * width⟩] else [] := by
  rw [planNullEnd, splitQuota_zero]
  cases fl.endNull with
  | false => simp [nullsAt, h.ne']
  | true => simp

/-- Nothing but separators that can be counted. -/
theorem wanted_counted (hne : ns ≠ []) (hw : 0 < width) (hb : bare ns = true)
    (hs : ShortEnd (0 :: ns)) :
    wanted fl width front pos (0 :: ns) = if front = true ∧ ¬ fl.begNull = true then []
      else if fl.endNull then
        nullsAt width pos ns.length ++ if fl.postNull then [⟨pos + ns.length * width, 0⟩] else []
      else if fl.remain then [⟨pos, ns.length * width⟩] else [] := by
  obtain ⟨h1, h2⟩ := @lead_bare width _ (List.cons_ne_nil 0 ns) hb
  have hlt := (shortEnd_bare (show bare (0 :: ns) = true from hb)).1 hs
  rw [List.length_cons, Nat.add_sub_cancel] at h1 h2
  rw [h1] at hlt
  rw [wanted_bare hne hb, h1, h2, Nat.mod_eq_of_lt hlt,
    planNullEnd_all (Nat.mul_pos (List.length_pos_iff.2 hne) hw)]

/-- Without a limit the loop wants the fields that the flags keep. -/
theorem plan_unlimited (hw : 0 < width) (hne : ns ≠ []) (hs : ShortInside ns)
    (hfuel : ns.length ≤ fuel) (ho : orig ≤ pos) (hf : front = decide (pos = orig)) :
    plan fl 0 width orig fuel found pos added ns = some (wanted fl width front pos ns) := by
  induction fuel generalizing found front pos added ns with
  | zero => exact absurd (List.length_eq_zero_iff.1 (Nat.le_zero.1 hfuel)) hne
  | succ fuel ih =>
    have hgo : ¬ ((0 : Nat) ≠ 0 ∧ ¬ added < splitRoom fl 0) := fun h => h.1 rfl
    obtain ⟨n, ns, rfl⟩ := List.exists_cons_of_ne_nil hne
    rw [List.length_cons] at hfuel
    by_cases hns : ns = []
    · subst hns
      rw [wanted]
      by_cases hn : n = 0
      · subst hn
        rw [plan_stop (.inl rfl), planEnd, stretch]
        simp
      · rw [plan_one hn hgo, planEnd]
        simp [hn]
    cases n with
    | succ n =>
      rw [plan_field hns hgo, wanted_field hns,
        ih hns (hs.drop 1) (by omega) (by omega) (decide_eq_false (by omega)).symm,
        Option.map_some]
    | zero =>
      cases hb : bare ns with
      | true =>
        rw [plan_bare hns hw hb hgo, wanted_bare hns hb, hf, planNullEnd_unlimited]
        simp only [decide_eq_true_eq]
        split <;> rfl
      | false =>
        have hb' : bare (0 :: ns) = false := hb
        have hlong := Nat.mod_eq_of_lt (hs 0 hb')
        rw [List.drop_zero] at hlong
        have hk : splitQuota fl 0 (lead (0 :: ns) % 2 ^ 32) added = lead (0 :: ns) := by
          rw [hlong, splitQuota_zero]
        have hpos : 0 < lead (0 :: ns) := by
          rw [lead_cons_zero hns]
          omega
        have hp : 0 < lead (0 :: ns) * width := Nat.mul_pos hpos hw
        have hlt := lead_lt (List.cons_ne_nil 0 ns)
        rw [List.length_cons] at hlt
        rw [plan_null hns hw hb hgo hk rfl, wanted_nulls (Nat.le_refl _) hb',
          ih (by simpa using hlt) (hs.drop _) (by rw [List.length_drop, List.length_cons]; omega)
            (by omega) (decide_eq_false (by omega)).symm, Option.map_some,
          @wanted_front _ _ _ _ front, hf]
        · simp only [decide_eq_true_eq]
        · rw [lead_drop (Nat.le_refl _), Nat.sub_self]

end Vstr
