import Mathlib.Init

/-!
# Lists in lexicographic order

How the comparison of two lists is put together from the comparisons of their parts.
-/

namespace Lex

variable {α : Type} [Ord α] {as bs xs ys : List α} {a b : α}

/-- Parts of one length decide first. -/
theorem compare_append (h : as.length = bs.length) :
    compare (as ++ xs) (bs ++ ys) = (compare as bs).then (compare xs ys) := by
  induction as generalizing bs with
  | nil =>
    obtain rfl : bs = [] := List.length_eq_zero_iff.1 h.symm
    rfl
  | cons a as ih =>
    cases bs with
    | nil => cases h
    | cons b bs =>
      rw [List.cons_append, List.cons_append, List.compare_cons_cons, List.compare_cons_cons,
        ih (by simpa using h), Ordering.then_assoc]

/-- What comes before a place where both differ does not matter. -/
theorem compare_take_drop {n : Nat} (hx : n ≤ xs.length) (hy : n ≤ ys.length) :
    compare xs ys = (compare (xs.take n) (ys.take n)).then (compare (xs.drop n) (ys.drop n)) := by
  rw [← compare_append (by rw [List.length_take, List.length_take]; omega), List.take_append_drop,
    List.take_append_drop]

theorem compare_nil_of_ne (h : ys ≠ []) : compare [] ys = .lt := by
  obtain ⟨y, ys, rfl⟩ := List.exists_cons_of_ne_nil h
  rfl

theorem compare_of_ne_nil (h : xs ≠ []) : compare xs [] = .gt := by
  obtain ⟨x, xs, rfl⟩ := List.exists_cons_of_ne_nil h
  rfl

end Lex
