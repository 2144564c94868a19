import Mathlib.Data.List.Basic

/-!
# Counting the entries of a table

A table holds entries that may be gone; each of the others has a key. Entries are put in,
taken out and exchanged one at a time, and the number of entries with a key moves by one.
-/

namespace Count

variable {α : Type} (key : α → Nat) {l : List (Option α)} {i c : Nat} {a b : α}

/-- One at `c`, nothing elsewhere. -/
def bump (c d : Nat) : Nat := if d = c then 1 else 0

@[simp] theorem bump_self (c : Nat) : bump c c = 1 := if_pos rfl

theorem bump_of_ne {d : Nat} (h : d ≠ c) : bump c d = 0 := if_neg h

/-- Entries with the key `c`. -/
def tally (l : List (Option α)) (c : Nat) : Nat := l.countP fun x => x.any fun a => key a == c

private theorem share (a : α) (c : Nat) :
    (if (some a).any (fun a => key a == c) = true then 1 else 0) = bump (key a) c := by
  by_cases h : c = key a
  · simp [bump, h]
  · have h' : ¬ key a = c := fun e => h e.symm
    simp [bump, h, h']

/-- Exchanging an entry. -/
theorem tally_set (h : l[i]? = some (some a)) :
    tally key (l.set i (some b)) c + bump (key a) c = tally key l c + bump (key b) c := by
  obtain ⟨hi, ha⟩ := List.getElem?_eq_some_iff.1 h
  have hp : bump (key a) c ≤ tally key l c := by
    rw [← share]
    split
    · rename_i hpa
      exact List.countP_pos_iff.2 ⟨some a, ha ▸ List.getElem_mem hi, hpa⟩
    · exact Nat.zero_le _
  unfold tally at *
  rw [List.countP_set hi, ha, share, share]
  omega

/-- Taking an entry out. -/
theorem tally_set_none (h : l[i]? = some (some a)) :
    tally key (l.set i none) c + bump (key a) c = tally key l c := by
  obtain ⟨hi, ha⟩ := List.getElem?_eq_some_iff.1 h
  have hp : bump (key a) c ≤ tally key l c := by
    rw [← share]
    split
    · rename_i hpa
      exact List.countP_pos_iff.2 ⟨some a, ha ▸ List.getElem_mem hi, hpa⟩
    · exact Nat.zero_le _
  unfold tally at *
  rw [List.countP_set hi, ha, share]
  simp only [Option.any_none, Bool.false_eq_true, if_false]
  omega

/-- A new entry. -/
theorem tally_concat (l : List (Option α)) (b : α) (c : Nat) :
    tally key (l ++ [some b]) c = tally key l c + bump (key b) c := by
  rw [tally, List.countP_append, List.countP_singleton, share]
  rfl

/-- An entry counts. -/
theorem tally_pos (h : l[i]? = some (some a)) : 0 < tally key l (key a) :=
  List.countP_pos_iff.2 ⟨some a, List.mem_of_getElem? h, by simp⟩

end Count
