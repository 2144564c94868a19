import Mathlib.Data.List.Induction
import Mathlib.Data.Nat.Digits.Defs

/-!
# Numerals

Digits are written with the most significant one first. A machine that reads them one
after the other in bounded arithmetic computes the number modulo its bound.
-/

namespace Numeral

/-- The number that the digits denote. -/
def value (b : Nat) (ds : List Nat) : Nat := ds.foldl (fun v d => v * b + d) 0

@[simp] theorem value_nil (b : Nat) : value b [] = 0 := rfl

theorem value_append_singleton (b : Nat) (ds : List Nat) (d : Nat) :
    value b (ds ++ [d]) = value b ds * b + d := by
  rw [value, List.foldl_append]
  rfl

/-- Reading on from a number already read. -/
theorem foldl_mod (b m v : Nat) (ds : List Nat) :
    ds.foldl (fun v d => (v * b + d) % m) (v % m) = ds.foldl (fun v d => v * b + d) v % m := by
  induction ds generalizing v with
  | nil => rfl
  | cons d ds ih =>
    have e : (v % m * b + d) % m = (v * b + d) % m := by
      rw [Nat.add_mod, Nat.mod_mul_mod, ← Nat.add_mod]
    rw [List.foldl_cons, List.foldl_cons, e, ih]

/-- A machine that reads digits modulo `m` reads the number modulo `m`. -/
theorem value_mod (b m : Nat) (ds : List Nat) :
    ds.foldl (fun v d => (v * b + d) % m) 0 = value b ds % m := by
  rw [value, ← foldl_mod, Nat.zero_mod]

/-- Leading zeros do not count. -/
theorem value_zeros (b n : Nat) (ds : List Nat) :
    value b (List.replicate n 0 ++ ds) = value b ds := by
  induction n with
  | zero => rfl
  | succ n ih =>
    rw [List.replicate_succ, List.cons_append, ← ih, value, value, List.foldl_cons]
    simp only [Nat.zero_mul, Nat.zero_add]

/-- Digits that are written the other way round. -/
theorem value_reverse (b : Nat) (ds : List Nat) : value b ds.reverse = Nat.ofDigits b ds := by
  induction ds with
  | nil => rfl
  | cons d ds ih =>
    rw [List.reverse_cons, value_append_singleton, ih, Nat.ofDigits_cons, Nat.mul_comm,
      Nat.add_comm]

/-- More digits do not make a number smaller. -/
theorem value_le_append {b : Nat} (hb : 1 ≤ b) (ds es : List Nat) :
    value b ds ≤ value b (ds ++ es) := by
  induction es using List.reverseRecOn with
  | nil => rw [List.append_nil]
  | append_singleton es e ih =>
    rw [← List.append_assoc, value_append_singleton]
    have := Nat.le_mul_of_pos_right (value b (ds ++ es)) hb
    omega

/-- A number is below the power that its digits allow. -/
theorem value_lt {b : Nat} {ds : List Nat} (h : ∀ d ∈ ds, d < b) : value b ds < b ^ ds.length := by
  induction ds using List.reverseRecOn with
  | nil => simp
  | append_singleton ds d ih =>
    have h1 := ih fun d' hd => h d' (by simp [hd])
    have h2 := h d (by simp)
    rw [value_append_singleton, List.length_append, List.length_singleton, Nat.pow_succ]
    calc value b ds * b + d < value b ds * b + b := by omega
      _ = (value b ds + 1) * b := by rw [Nat.add_mul, Nat.one_mul]
      _ ≤ b ^ ds.length * b := Nat.mul_le_mul_right b h1

end Numeral
