import Mathlib.Data.List.Basic

/-!
# Inserting into and deleting from a list

The two edits of a sequence that a string library is about, with positions counted
from one as such libraries do: insertion happens after a position, so zero is the
front, and a deletion names its first element.
-/

namespace Splice

variable {α : Type}

/-- Insert `xs` after the first `pos` elements. -/
def insertAfter (l : List α) (pos : Nat) (xs : List α) : List α := l.take pos ++ xs ++ l.drop pos

/-- Delete `len` elements, the first of which is element `pos` counted from one. -/
def deleteRange (l : List α) (pos len : Nat) : List α := l.take (pos - 1) ++ l.drop (pos - 1 + len)

/-- The `len` elements from element `pos` on. -/
def slice (l : List α) (pos len : Nat) : List α := (l.drop (pos - 1)).take len

/-- Insertion at a known cut. -/
theorem insertAfter_append {a b xs : List α} {pos : Nat} (h : a.length = pos) :
    insertAfter (a ++ b) pos xs = a ++ xs ++ b := by
  rw [insertAfter, List.take_left' h, List.drop_left' h]

/-- Deletion of a known stretch. -/
theorem deleteRange_append {a d b : List α} {pos len : Nat} (ha : a.length + 1 = pos)
    (hd : d.length = len) : deleteRange (a ++ (d ++ b)) pos len = a ++ b := by
  have hp : pos - 1 = a.length := by omega
  rw [deleteRange, hp, List.take_left' rfl, ← List.append_assoc,
    List.drop_left' (by rw [List.length_append, hd])]

/-- Insertion into what is left of a list whose first `u` elements are dropped. -/
theorem insertAfter_drop {a b xs : List α} {pos u : Nat} (h : a.length = pos + u) :
    insertAfter ((a ++ b).drop u) pos xs = (a ++ xs ++ b).drop u := by
  have hu : u ≤ a.length := by omega
  rw [List.drop_append_of_le_length hu, List.append_assoc,
    List.drop_append_of_le_length hu,
    insertAfter_append (by rw [List.length_drop]; omega), List.append_assoc]

/-- Deletion from what is left of a list whose first `u` elements are dropped. -/
theorem deleteRange_drop {a d b : List α} {pos len u : Nat} (ha : a.length + 1 = pos + u)
    (hpos : 0 < pos) (hd : d.length = len) :
    deleteRange ((a ++ (d ++ b)).drop u) pos len = (a ++ b).drop u := by
  have hu : u ≤ a.length := by omega
  rw [List.drop_append_of_le_length hu, List.drop_append_of_le_length hu]
  exact deleteRange_append (by rw [List.length_drop]; omega) hd

theorem insertAfter_zero (l xs : List α) : insertAfter l 0 xs = xs ++ l := rfl

@[simp] theorem insertAfter_nil_right (l : List α) (pos : Nat) : insertAfter l pos [] = l := by
  rw [insertAfter, List.append_nil, List.take_append_drop]

@[simp] theorem deleteRange_zero (l : List α) (pos : Nat) : deleteRange l pos 0 = l := by
  rw [deleteRange, Nat.add_zero, List.take_append_drop]

/-- Inserting two stretches one after the other is inserting their concatenation. -/
theorem insertAfter_insertAfter (l xs ys : List α) {pos : Nat} (h : pos ≤ l.length) :
    insertAfter (insertAfter l pos xs) (pos + xs.length) ys = insertAfter l pos (xs ++ ys) := by
  have hl : (l.take pos ++ xs).length = pos + xs.length := by
    rw [List.length_append, List.length_take, Nat.min_eq_left h]
  rw [insertAfter, insertAfter, List.take_left' hl, List.drop_left' hl, insertAfter]
  simp only [List.append_assoc]

theorem length_insertAfter (l xs : List α) (pos : Nat) :
    (insertAfter l pos xs).length = l.length + xs.length := by
  simp only [insertAfter, List.length_append, List.length_take, List.length_drop]
  omega

/-- What an insertion made tells what it was made of, once the lengths are known. -/
theorem insertAfter_inj {l l' xs xs' : List α} {pos : Nat} (hl : l.length = l'.length)
    (hx : xs.length = xs'.length) :
    insertAfter l pos xs = insertAfter l' pos xs' ↔ l = l' ∧ xs = xs' := by
  constructor
  · intro e
    unfold insertAfter at e
    obtain ⟨e₁, hdrop⟩ := List.append_inj e (by simp [hl, hx])
    obtain ⟨htake, e₂⟩ := List.append_inj e₁ (by simp [hl])
    refine ⟨?_, e₂⟩
    rw [← List.take_append_drop pos l, htake, hdrop, List.take_append_drop]
  · rintro ⟨rfl, rfl⟩
    rfl

/-- Inserting in front of a known stretch and deleting the stretch replaces it. -/
theorem deleteRange_insertAfter {a d b xs : List α} {pos : Nat} (ha : a.length + 1 = pos) :
    deleteRange (insertAfter (a ++ d ++ b) (pos - 1) xs) (pos + xs.length) d.length =
      a ++ xs ++ b := by
  rw [List.append_assoc, insertAfter_append (by omega),
    deleteRange_append (by rw [List.length_append]; omega) rfl]

/-- A slice of a front that two lists share. -/
theorem slice_congr_take {l l' : List α} {m p n : Nat} (h : l.take m = l'.take m)
    (hn : p - 1 + n ≤ m) : slice l p n = slice l' p n := by
  have front : ∀ x : List α, slice x p n = ((x.take m).drop (p - 1)).take n := by
    intro x
    rw [slice, List.drop_take, List.take_take, Nat.min_eq_left (by omega)]
  rw [front l, front l', h]

/-- A slice of an end that two lists share. -/
theorem slice_congr_drop {l l' : List α} {a b : Nat} (h : l.drop a = l'.drop b) (d n : Nat) :
    slice l (a + d + 1) n = slice l' (b + d + 1) n := by
  rw [slice, slice, Nat.add_sub_cancel, Nat.add_sub_cancel, ← List.drop_drop, h, List.drop_drop]

/-- What an insertion leaves in front of it. -/
theorem take_insertAfter (l xs : List α) {pos : Nat} (h : pos ≤ l.length) :
    (insertAfter l pos xs).take pos = l.take pos := by
  rw [insertAfter, List.append_assoc, List.take_left' (by rw [List.length_take]; omega)]

/-- What an insertion leaves behind it. -/
theorem drop_insertAfter (l xs : List α) {pos : Nat} (h : pos ≤ l.length) :
    (insertAfter l pos xs).drop (pos + xs.length) = l.drop pos := by
  rw [insertAfter, List.drop_left' (by rw [List.length_append, List.length_take]; omega)]

/-- What a deletion leaves in front of it. -/
theorem take_deleteRange (l : List α) (pos len : Nat) :
    (deleteRange l pos len).take (pos - 1) = l.take (pos - 1) := by
  by_cases h : pos - 1 ≤ l.length
  · rw [deleteRange, List.take_left' (by rw [List.length_take]; omega)]
  · rw [deleteRange, List.drop_of_length_le (by omega), List.append_nil, List.take_take,
      Nat.min_self]

/-- What a deletion leaves behind it. -/
theorem drop_deleteRange (l : List α) {pos len : Nat} (h : pos - 1 ≤ l.length) :
    (deleteRange l pos len).drop (pos - 1) = l.drop (pos - 1 + len) := by
  rw [deleteRange, List.drop_left' (by rw [List.length_take]; omega)]

/-- Deleting two stretches from one place is deleting them together. -/
theorem deleteRange_deleteRange (l : List α) {pos : Nat} (m n : Nat) (h : pos - 1 ≤ l.length) :
    deleteRange (deleteRange l pos m) pos n = deleteRange l pos (m + n) := by
  have hl : (l.take (pos - 1)).length = pos - 1 := by
    rw [List.length_take, Nat.min_eq_left h]
  rw [deleteRange, deleteRange, List.take_left' hl, ← List.drop_drop, List.drop_left' hl,
    List.drop_drop, deleteRange, Nat.add_assoc]

/-- What is at a place, and what comes there once that is gone. -/
theorem slice_deleteRange (l : List α) {pos : Nat} (m n : Nat) (h : pos - 1 ≤ l.length) :
    slice l pos m ++ slice (deleteRange l pos m) pos n = slice l pos (m + n) := by
  have hl : (l.take (pos - 1)).length = pos - 1 := by
    rw [List.length_take, Nat.min_eq_left h]
  rw [slice, slice, deleteRange, List.drop_left' hl, ← List.drop_drop, slice, List.take_add]

/-- The front of a list and the rest. -/
theorem slice_append_deleteRange (l : List α) (len : Nat) :
    slice l 1 len ++ deleteRange l 1 len = l := by
  rw [slice, deleteRange, Nat.sub_self, List.take_zero, List.nil_append, List.drop_zero,
    Nat.zero_add, List.take_append_drop]

end Splice
