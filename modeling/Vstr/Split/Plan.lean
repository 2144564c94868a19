import Vstr.Split.Add

/-!
# The sections that a split wants

The loop of a split in terms of the lengths of the fields alone. The source takes a whole run
of empty fields in one turn, and cuts it when the limit comes first.
-/

namespace Vstr

open Splice Query Separate

variable {E : Env} {P : Own} {s : St} {limit orig fuel pos len added count width splitPos n : Nat}
  {xs : List (Option UInt8)} {ns : List Nat} {ys : List Sect} {fl : SplitFlags} {a : SplitAt}
  {seps : Seps} {c : Sep (Option UInt8)} {found : Bool}

/-- The sections that the loop itself may add. -/
def splitRoom (fl : SplitFlags) (limit : Nat) : Nat := limit - if fl.remain then 1 else 0

/-- How many of `count` empty fields are taken. -/
def splitQuota (fl : SplitFlags) (limit count added : Nat) : Nat :=
  if limit ≠ 0 ∧ limit ≤ added + count then splitRoom fl limit - added else count

/-- What `vstr__split_hdl_end` wants. -/
def planEnd (fl : SplitFlags) (limit : Nat) (found : Bool) (pos len added : Nat) : List Sect :=
  if (if len ≠ 0 then fl.remain = true ∨ found = false
    else fl.postNull = true ∧ (limit = 0 ∨ added < limit)) then [⟨pos, len⟩] else []

/-- What `vstr__split_hdl_null_end` wants. -/
def planNullEnd (fl : SplitFlags) (limit width pos len count added : Nat) : List Sect :=
  let k := if fl.endNull then splitQuota fl limit count added else 0
  nullsAt width pos k ++
    if (len - k * width ≠ 0 ∧ fl.remain = true) ∨ (len - k * width = 0 ∧ fl.postNull = true) then
      [⟨pos + k * width, len - k * width⟩]
    else []

/-- What the loop wants for fields of these lengths, when the fuel lasts. -/
def plan (fl : SplitFlags) (limit width orig : Nat) :
    Nat → Bool → Nat → Nat → List Nat → Option (List Sect)
  | 0, _, _, _, _ => none
  | fuel + 1, found, pos, added, ns =>
    if stretch width ns = 0 ∨ (limit ≠ 0 ∧ ¬ added < splitRoom fl limit) then
      some (planEnd fl limit found pos (stretch width ns) added)
    else
      match ns with
      | 0 :: m :: ms =>
        let count := lead (0 :: m :: ms) % 2 ^ 32
        if bare (m :: ms) then
          if pos = orig ∧ ¬ fl.begNull then some []
          else some (planNullEnd fl limit width pos (stretch width (0 :: m :: ms)) count added)
        else
          let k := splitQuota fl limit count added
          let null := if pos = orig then fl.begNull else fl.midNull
          (plan fl limit width orig fuel true (pos + k * width) (added + if null then k else 0)
            ((0 :: m :: ms).drop k)).map ((if null then nullsAt width pos k else []) ++ ·)
      | (n + 1) :: m :: ms =>
        (plan fl limit width orig fuel true (pos + (n + 1 + width)) (added + 1) (m :: ms)).map
          (⟨pos, n + 1⟩ :: ·)
      | ns => some (planEnd fl limit false pos (stretch width ns) added)

/-- The loop ends. -/
theorem plan_stop (h : stretch width ns = 0 ∨ (limit ≠ 0 ∧ ¬ added < splitRoom fl limit)) :
    plan fl limit width orig (fuel + 1) found pos added ns =
      some (planEnd fl limit found pos (stretch width ns) added) := by
  rw [plan.eq_def]
  exact if_pos h

/-- The last field. -/
theorem plan_one (h : n ≠ 0) (hg : ¬ (limit ≠ 0 ∧ ¬ added < splitRoom fl limit)) :
    plan fl limit width orig (fuel + 1) found pos added [n] =
      some (planEnd fl limit false pos n added) := by
  obtain ⟨n, rfl⟩ := Nat.exists_eq_succ_of_ne_zero h
  rw [plan.eq_def]
  exact if_neg (not_or.2 ⟨h, hg⟩)

/-- A field and the separator behind it. -/
theorem plan_field (hne : ns ≠ []) (hg : ¬ (limit ≠ 0 ∧ ¬ added < splitRoom fl limit)) :
    plan fl limit width orig (fuel + 1) found pos added ((n + 1) :: ns) =
      (plan fl limit width orig fuel true (pos + (n + 1 + width)) (added + 1) ns).map
        (⟨pos, n + 1⟩ :: ·) := by
  obtain ⟨m, ms, rfl⟩ := List.exists_cons_of_ne_nil hne
  rw [plan.eq_def]
  exact if_neg (not_or.2 ⟨by rw [stretch_cons _ hne]; omega, hg⟩)

/-- Nothing but separators. -/
theorem plan_bare (hne : ns ≠ []) (hw : 0 < width) (hb : bare ns = true)
    (hg : ¬ (limit ≠ 0 ∧ ¬ added < splitRoom fl limit)) :
    plan fl limit width orig (fuel + 1) found pos added (0 :: ns) =
      if pos = orig ∧ ¬ fl.begNull then some []
      else some (planNullEnd fl limit width pos (stretch width (0 :: ns))
        (lead (0 :: ns) % 2 ^ 32) added) := by
  obtain ⟨m, ms, rfl⟩ := List.exists_cons_of_ne_nil hne
  rw [plan.eq_def]
  exact (if_neg (not_or.2 ⟨by rw [stretch_cons _ hne]; omega, hg⟩)).trans (if_pos hb)

/-- Separators in a row. -/
theorem plan_null (hne : ns ≠ []) (hw : 0 < width) (hb : bare ns = false)
    (hg : ¬ (limit ≠ 0 ∧ ¬ added < splitRoom fl limit)) {k : Nat} {null : Bool}
    (hk : splitQuota fl limit (lead (0 :: ns) % 2 ^ 32) added = k)
    (hnull : (if pos = orig then fl.begNull else fl.midNull) = null) :
    plan fl limit width orig (fuel + 1) found pos added (0 :: ns) =
      (plan fl limit width orig fuel true (pos + k * width) (added + if null then k else 0)
        ((0 :: ns).drop k)).map ((if null then nullsAt width pos k else []) ++ ·) := by
  obtain ⟨m, ms, rfl⟩ := List.exists_cons_of_ne_nil hne
  subst hk hnull
  rw [plan.eq_def]
  exact (if_neg (not_or.2 ⟨by rw [stretch_cons _ hne]; omega, hg⟩)).trans
    (if_neg (by rw [hb]; exact Bool.false_ne_true))

/-! ## The limit -/

/-- The loop goes on. -/
def Going (fl : SplitFlags) (limit added : Nat) : Prop := limit = 0 ∨ added < splitRoom fl limit

theorem room_eq (h : limit ≠ 0) :
    uintSub limit (if fl.remain then 1 else 0) = splitRoom fl limit :=
  if_pos (by split <;> omega)

theorem not_going_iff : ¬ Going fl limit added ↔ limit ≠ 0 ∧ ¬ added < splitRoom fl limit := by
  rw [Going, not_or]

/-- The number that `vstr_split_buf` cuts a run of separators to. -/
theorem splitCount_eq (hg : Going fl limit added) :
    splitCount fl limit count added = splitQuota fl limit count added := by
  rcases Nat.eq_zero_or_pos limit with rfl | hp
  · rw [splitCount, splitQuota, if_neg (by simp), if_neg (by simp)]
  · have hlt := hg.resolve_left (by omega)
    have hr : splitRoom fl limit ≤ limit := Nat.sub_le _ _
    have e : uintSub limit added = limit - added := if_pos (by omega)
    have e' : uintSub (splitRoom fl limit) added = splitRoom fl limit - added :=
      if_pos (by omega)
    rw [splitCount, splitQuota, room_eq (by omega), e, e']
    congr 1
    rw [eq_iff_iff]
    omega

theorem splitQuota_le (hg : Going fl limit added) : splitQuota fl limit count added ≤ count := by
  unfold splitQuota
  split
  · rename_i h
    have hlt := hg.resolve_left h.1
    have hr : splitRoom fl limit ≤ limit := Nat.sub_le _ _
    omega
  · exact Nat.le_refl _

theorem splitQuota_pos (hg : Going fl limit added) (hc : 0 < count) :
    0 < splitQuota fl limit count added := by
  unfold splitQuota
  split
  · rename_i h
    have hlt := hg.resolve_left h.1
    omega
  · exact hc

end Vstr
