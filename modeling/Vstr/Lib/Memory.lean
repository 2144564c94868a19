import Mathlib.Data.List.Basic

/-!
# Block memory

Byte-addressed memory made of separate blocks. A pointer is a block and an
offset inside it, so two blocks never overlap, and copying is reading the whole
source first and writing it afterwards: the overlapping case needs no second
definition. Nothing here knows what the blocks are for.
-/

namespace Memory

/-- An address: a block and an offset inside it. -/
structure Ptr (B : Type) where
  /-- The block. -/
  blk : B
  /-- Byte offset inside the block. -/
  off : Nat
  deriving DecidableEq, Repr

variable {B α : Type}

/-- Pointer arithmetic stays inside the block. -/
def Ptr.add (p : Ptr B) (n : Nat) : Ptr B := ⟨p.blk, p.off + n⟩

@[simp] theorem Ptr.add_blk (p : Ptr B) (n : Nat) : (p.add n).blk = p.blk := rfl

@[simp] theorem Ptr.add_off (p : Ptr B) (n : Nat) : (p.add n).off = p.off + n := rfl

@[simp] theorem Ptr.add_zero (p : Ptr B) : p.add 0 = p := rfl

@[simp] theorem Ptr.add_add (p : Ptr B) (m n : Nat) : (p.add m).add n = p.add (m + n) := by
  simp only [Ptr.add, Nat.add_assoc]

/-- The bytes of every block. -/
abbrev Mem (B α : Type) := B → Nat → α

/-- The `n` bytes at `p`. -/
def read (m : Mem B α) (p : Ptr B) (n : Nat) : List α :=
  (List.range n).map fun i => m p.blk (p.off + i)

@[simp] theorem length_read (m : Mem B α) (p : Ptr B) (n : Nat) : (read m p n).length = n := by
  simp only [read, List.length_map, List.length_range]

@[simp] theorem read_zero (m : Mem B α) (p : Ptr B) : read m p 0 = [] := rfl

theorem getElem?_read (m : Mem B α) (p : Ptr B) (n i : Nat) :
    (read m p n)[i]? = if i < n then some (m p.blk (p.off + i)) else none := by
  by_cases hi : i < n
  · simp [read, hi]
  · simp [read, hi]

/-- A longer read is a read and the read that follows it. -/
theorem read_add (m : Mem B α) (p : Ptr B) (a b : Nat) :
    read m p (a + b) = read m p a ++ read m (p.add a) b := by
  simp only [read, List.range_add, List.map_append, List.map_map, Ptr.add_blk, Ptr.add_off]
  congr 1
  apply List.map_congr_left
  intro i _
  simp only [Function.comp_apply, Nat.add_assoc]

theorem take_read (m : Mem B α) (p : Ptr B) {a n : Nat} (h : a ≤ n) :
    (read m p n).take a = read m p a := by
  obtain ⟨b, rfl⟩ := Nat.exists_eq_add_of_le h
  rw [read_add, List.take_left' (length_read m p a)]

theorem drop_read (m : Mem B α) (p : Ptr B) (a n : Nat) :
    (read m p n).drop a = read m (p.add a) (n - a) := by
  by_cases h : a ≤ n
  · obtain ⟨b, rfl⟩ := Nat.exists_eq_add_of_le h
    rw [read_add, List.drop_left' (length_read m p a), Nat.add_sub_cancel_left]
  · rw [Nat.sub_eq_zero_of_le (by omega), read_zero]
    exact List.drop_eq_nil_of_le (by rw [length_read]; omega)

/-- Reads only see the bytes they cover. -/
theorem read_congr {m m' : Mem B α} {p : Ptr B} {n : Nat}
    (h : ∀ i, i < n → m' p.blk (p.off + i) = m p.blk (p.off + i)) :
    read m' p n = read m p n := by
  apply List.map_congr_left
  intro i hi
  exact h i (List.mem_range.mp hi)

variable [DecidableEq B]

/-- Store `bs` at `p`. -/
def write (m : Mem B α) (p : Ptr B) (bs : List α) : Mem B α :=
  fun b o => if b = p.blk ∧ p.off ≤ o then (bs[o - p.off]?).getD (m b o) else m b o

/-- Copy `n` bytes; the regions may overlap. -/
def copy (m : Mem B α) (dst src : Ptr B) (n : Nat) : Mem B α := write m dst (read m src n)

/-- Set `n` bytes to `c`. -/
def fill (m : Mem B α) (dst : Ptr B) (c : α) (n : Nat) : Mem B α :=
  write m dst (List.replicate n c)

theorem write_of_ne (m : Mem B α) {p : Ptr B} (bs : List α) {b : B} (h : b ≠ p.blk) :
    write m p bs b = m b := by
  funext o
  simp [write, h]

theorem write_of_lt (m : Mem B α) (p : Ptr B) (bs : List α) (b : B) {o : Nat} (h : o < p.off) :
    write m p bs b o = m b o := by
  simp [write, Nat.not_le.mpr h]

theorem write_of_ge (m : Mem B α) (p : Ptr B) (bs : List α) (b : B) {o : Nat}
    (h : p.off + bs.length ≤ o) : write m p bs b o = m b o := by
  have hn : bs[o - p.off]? = none := List.getElem?_eq_none (by omega)
  simp [write, hn]

theorem write_apply (m : Mem B α) (p : Ptr B) (bs : List α) (i : Nat) (h : i < bs.length) :
    write m p bs p.blk (p.off + i) = bs[i] := by
  simp [write, h]

/-- A write elsewhere does not change a read. -/
theorem read_write_of_ne (m : Mem B α) {p q : Ptr B} (bs : List α) (n : Nat)
    (h : q.blk ≠ p.blk) : read (write m p bs) q n = read m q n :=
  read_congr fun i _ => by rw [write_of_ne m bs h]

/-- A write to a disjoint range of the same block does not change a read. -/
theorem read_write_of_disjoint (m : Mem B α) (p q : Ptr B) (bs : List α) (n : Nat)
    (h : q.off + n ≤ p.off ∨ p.off + bs.length ≤ q.off) :
    read (write m p bs) q n = read m q n := by
  apply read_congr
  intro i hi
  rcases h with h | h
  · exact write_of_lt m p bs q.blk (by omega)
  · exact write_of_ge m p bs q.blk (by omega)

/-- Reading back what was written. -/
theorem read_write_self (m : Mem B α) (p : Ptr B) (bs : List α) :
    read (write m p bs) p bs.length = bs := by
  apply List.ext_getElem?
  intro i
  rw [getElem?_read]
  by_cases hi : i < bs.length
  · rw [if_pos hi, write_apply m p bs i hi, List.getElem?_eq_getElem hi]
  · rw [if_neg hi, List.getElem?_eq_none (by omega)]

/-- Reading back the first of what was written. -/
theorem read_write_take (m : Mem B α) (p : Ptr B) (bs : List α) {k : Nat} (h : k ≤ bs.length) :
    read (write m p bs) p k = bs.take k := by
  rw [← take_read _ _ h, read_write_self]

/-- Two writes one after the other are one write. -/
theorem write_append (m : Mem B α) (p : Ptr B) (as bs : List α) :
    write (write m p as) (p.add as.length) bs = write m p (as ++ bs) := by
  funext b o
  by_cases hb : b = p.blk
  · subst hb
    by_cases h1 : o < p.off
    · rw [write_of_lt _ _ _ _ (by rw [Ptr.add_off]; omega), write_of_lt _ _ _ _ h1,
        write_of_lt _ _ _ _ h1]
    · obtain ⟨i, rfl⟩ := Nat.exists_eq_add_of_le (Nat.not_lt.mp h1)
      by_cases h2 : i < as.length
      · rw [write_of_lt _ _ _ _ (by rw [Ptr.add_off]; omega), write_apply _ _ _ i h2,
          write_apply _ _ _ i (by rw [List.length_append]; omega), List.getElem_append_left h2]
      · simp [write, Nat.sub_add_eq, h2, List.getElem?_append_right (Nat.not_lt.mp h2)]
  · rw [write_of_ne _ _ (by exact hb), write_of_ne _ _ hb, write_of_ne _ _ hb]

/-- Writing what is there changes nothing. -/
theorem write_read (m : Mem B α) (p : Ptr B) (n : Nat) : write m p (read m p n) = m := by
  funext b o
  by_cases hb : b = p.blk
  · subst hb
    by_cases h1 : o < p.off
    · rw [write_of_lt _ _ _ _ h1]
    · obtain ⟨i, rfl⟩ := Nat.exists_eq_add_of_le (Nat.not_lt.mp h1)
      by_cases h2 : i < n
      · rw [write_apply _ _ _ i (by rw [length_read]; exact h2)]
        simp [read]
      · rw [write_of_ge _ _ _ _ (by rw [length_read]; omega)]
  · rw [write_of_ne _ _ hb]

theorem read_copy_self (m : Mem B α) (dst src : Ptr B) (n : Nat) :
    read (copy m dst src n) dst n = read m src n := by
  have h := read_write_self m dst (read m src n)
  rwa [length_read] at h

theorem read_fill_self (m : Mem B α) (dst : Ptr B) (c : α) (n : Nat) :
    read (fill m dst c n) dst n = List.replicate n c := by
  have h := read_write_self m dst (List.replicate n c)
  rwa [List.length_replicate] at h

/-! ## Bytes that are not all known -/

/-- Store `xs` at `p`; what is not known is not stored. -/
def patch (m : Mem B α) (p : Ptr B) (xs : List (Option α)) : Mem B α :=
  fun b o => if b = p.blk ∧ p.off ≤ o then (xs[o - p.off]?.join).getD (m b o) else m b o

theorem patch_of_ne (m : Mem B α) {p : Ptr B} (xs : List (Option α)) {b : B} (h : b ≠ p.blk) :
    patch m p xs b = m b := by
  funext o
  simp [patch, h]

theorem patch_of_lt (m : Mem B α) (p : Ptr B) (xs : List (Option α)) (b : B) {o : Nat}
    (h : o < p.off) : patch m p xs b o = m b o := by
  simp [patch, Nat.not_le.mpr h]

theorem patch_of_ge (m : Mem B α) (p : Ptr B) (xs : List (Option α)) (b : B) {o : Nat}
    (h : p.off + xs.length ≤ o) : patch m p xs b o = m b o := by
  have hn : xs[o - p.off]? = none := List.getElem?_eq_none (by omega)
  simp [patch, hn]

theorem patch_apply (m : Mem B α) (p : Ptr B) (xs : List (Option α)) (i : Nat)
    (h : i < xs.length) : patch m p xs p.blk (p.off + i) = xs[i].getD (m p.blk (p.off + i)) := by
  simp [patch, h]

@[simp] theorem patch_nil (m : Mem B α) (p : Ptr B) : patch m p [] = m := by
  funext b o
  simp [patch]

/-- Two patches one after the other are one patch. -/
theorem patch_append (m : Mem B α) (p : Ptr B) (xs ys : List (Option α)) :
    patch (patch m p xs) (p.add xs.length) ys = patch m p (xs ++ ys) := by
  funext b o
  by_cases hb : b = p.blk
  · subst hb
    by_cases h1 : o < p.off
    · rw [patch_of_lt _ _ _ _ (by rw [Ptr.add_off]; omega), patch_of_lt _ _ _ _ h1,
        patch_of_lt _ _ _ _ h1]
    · obtain ⟨i, rfl⟩ := Nat.exists_eq_add_of_le (Nat.not_lt.mp h1)
      by_cases h2 : i < xs.length
      · rw [patch_of_lt _ _ _ _ (by rw [Ptr.add_off]; omega), patch_apply _ _ _ i h2,
          patch_apply _ _ _ i (by rw [List.length_append]; omega), List.getElem_append_left h2]
      · simp [patch, Nat.sub_add_eq, h2, List.getElem?_append_right (Nat.not_lt.mp h2)]
  · rw [patch_of_ne _ _ (by exact hb), patch_of_ne _ _ hb, patch_of_ne _ _ hb]

/-- Nothing is known: nothing is stored. -/
theorem patch_replicate_none (m : Mem B α) (p : Ptr B) (n : Nat) :
    patch m p (List.replicate n none) = m := by
  funext b o
  by_cases hb : b = p.blk
  · subst hb
    by_cases h1 : o < p.off
    · exact patch_of_lt _ _ _ _ h1
    · obtain ⟨i, rfl⟩ := Nat.exists_eq_add_of_le (Nat.not_lt.mp h1)
      by_cases h2 : i < n
      · rw [patch_apply _ _ _ i (by rw [List.length_replicate]; exact h2), List.getElem_replicate]
        rfl
      · exact patch_of_ge _ _ _ _ (by rw [List.length_replicate]; omega)
  · rw [patch_of_ne _ _ hb]

/-- Everything is known: it is a write. -/
theorem patch_map_some (m : Mem B α) (p : Ptr B) (bs : List α) :
    patch m p (bs.map some) = write m p bs := by
  funext b o
  by_cases hb : b = p.blk
  · subst hb
    by_cases h1 : o < p.off
    · rw [patch_of_lt _ _ _ _ h1, write_of_lt _ _ _ _ h1]
    · obtain ⟨i, rfl⟩ := Nat.exists_eq_add_of_le (Nat.not_lt.mp h1)
      by_cases h2 : i < bs.length
      · rw [patch_apply _ _ _ i (by rw [List.length_map]; exact h2), write_apply _ _ _ i h2,
          List.getElem_map]
        rfl
      · rw [patch_of_ge _ _ _ _ (by rw [List.length_map]; omega), write_of_ge _ _ _ _ (by omega)]
  · rw [patch_of_ne _ _ hb, write_of_ne _ _ hb]

/-- A patch elsewhere does not change a read. -/
theorem read_patch_of_ne (m : Mem B α) {p q : Ptr B} (xs : List (Option α)) (n : Nat)
    (h : q.blk ≠ p.blk) : read (patch m p xs) q n = read m q n :=
  read_congr fun i _ => by rw [patch_of_ne m xs h]

end Memory
