import Vstr.Model.Wrap

/-!
# The memory wrappers and the C functions

Copying, setting, moving and comparing agree with the C functions. The searches compare an
`unsigned char` with a sign extended `char`, so on short buffers they find no byte from 128
on.
-/

namespace Vstr

open Memory

variable {B : Type} [DecidableEq B] {as bs : List UInt8}

/-! ## Characters as integers -/

theorem toUchar_plainChar (b : UInt8) : toUchar (plainChar b) = b := by
  have hb := UInt8.toNat_lt b
  unfold toUchar plainChar
  rw [← UInt8.toNat_inj, UInt8.toNat_ofNat']
  split <;> omega

/-- A byte is equal to a sign extended `char` when it is that `char` and below 128. -/
theorem toNat_eq_plainChar (a b : UInt8) :
    (a.toNat : Int) = plainChar b ↔ a = b ∧ b.toNat < 128 := by
  unfold plainChar
  have ha := UInt8.toNat_lt a
  have hb := UInt8.toNat_lt b
  rw [← UInt8.toNat_inj]
  split <;> omega

/-! ## Copying, setting and moving -/

/-- A byte in front of others. -/
theorem write_last (m : Mem B UInt8) (p : Ptr B) (xs : List UInt8) (x : UInt8) :
    write (write m (p.add xs.length) [x]) p xs = write m p (xs ++ [x]) := by
  rw [← write_append]
  funext b o
  by_cases hb : b = p.blk
  · subst hb
    by_cases ho : p.off + xs.length ≤ o
    · have hn : xs[o - p.off]? = none := List.getElem?_eq_none (by omega)
      have hp : p.off ≤ o := by omega
      rw [write_of_ge _ _ _ _ ho]
      simp [write, ho, hp, hn]
    · have hlt : o < (p.add xs.length).off := by rw [Ptr.add_off]; omega
      rw [write_of_lt _ _ _ _ hlt]
      by_cases hp : o < p.off
      · rw [write_of_lt _ _ _ _ hp, write_of_lt _ _ _ _ hp, write_of_lt _ _ _ _ hlt]
      · obtain ⟨i, rfl⟩ := Nat.exists_eq_add_of_le (Nat.not_lt.mp hp)
        have hi : i < xs.length := by omega
        rw [write_apply _ _ _ i hi, write_apply _ _ _ i hi]
  · rw [write_of_ne _ _ hb, write_of_ne _ _ (show b ≠ (p.add xs.length).blk from hb),
      write_of_ne _ _ (show b ≠ (p.add xs.length).blk from hb), write_of_ne _ _ hb]

/-- The two regions have no byte in common. -/
def RegionsApart (dst src : Ptr B) (n : Nat) : Prop :=
  dst.blk = src.blk → dst.off + n ≤ src.off ∨ src.off + n ≤ dst.off

omit [DecidableEq B] in
theorem read_succ (m : Mem B UInt8) (p : Ptr B) (n : Nat) :
    read m p (n + 1) = read m p n ++ [m p.blk (p.off + n)] := by
  rw [read_add]
  rfl

/-- The cases of `vstr_wrap_memcpy` copy regions that are apart. -/
theorem wrapMemcpyCases_eq (m : Mem B UInt8) {dst src : Ptr B} {n : Nat}
    (h : RegionsApart dst src n) :
    wrapMemcpyCases dst src n m = copy m dst src n := by
  induction n generalizing m with
  | zero =>
    funext b o
    simp [wrapMemcpyCases, copy, write]
  | succ n ih =>
    have hn : RegionsApart dst src n := fun e => by
      have := h e
      omega
    have hr : read (write m (dst.add n) [m src.blk (src.off + n)]) src n = read m src n := by
      refine read_congr fun i hi => ?_
      by_cases hb : src.blk = dst.blk
      · rcases h hb.symm with h | h
        · rw [write_of_ge _ _ _ _ (by rw [Ptr.add_off, List.length_singleton]; omega)]
        · rw [write_of_lt _ _ _ _ (by rw [Ptr.add_off]; omega)]
      · rw [write_of_ne _ _ (show src.blk ≠ (dst.add n).blk from hb)]
    have hw := write_last m dst (read m src n) (m src.blk (src.off + n))
    rw [length_read] at hw
    rw [wrapMemcpyCases, ih _ hn, copy, hr, hw, copy, read_succ]

theorem wrapMemcpy_eq (constP : Bool) (m : Mem B UInt8) {dst src : Ptr B} {n : Nat}
    (h : RegionsApart dst src n) : wrapMemcpy constP m dst src n = copy m dst src n := by
  unfold wrapMemcpy
  split
  · rfl
  · exact wrapMemcpyCases_eq m h

theorem wrapMemset_eq (constP : Bool) (m : Mem B UInt8) (dst : Ptr B) (b : UInt8) (n : Nat) :
    wrapMemset constP m dst (plainChar b) n = fill m dst b n := by
  have hcases : ∀ m : Mem B UInt8, wrapMemsetCases dst (plainChar b) n m = fill m dst b n := by
    induction n with
    | zero =>
      intro m
      funext x o
      simp [wrapMemsetCases, fill, write]
    | succ n ih =>
      intro m
      have hw := write_last m dst (List.replicate n b) b
      rw [List.length_replicate] at hw
      rw [wrapMemsetCases, ih, toUchar_plainChar, fill, hw, fill, List.replicate_succ']
  unfold wrapMemset
  split
  · rw [toUchar_plainChar]
  · exact hcases m

/-- Moving, whatever overlaps: outside the local array memory is what `memmove` leaves. -/
theorem wrapMemmove_eq (constP : Bool) (m : Mem B UInt8) {tmp dst src : Ptr B} (n : Nat)
    (hd : tmp.blk ≠ dst.blk) (hs : tmp.blk ≠ src.blk) {b : B} (hb : b ≠ tmp.blk) :
    wrapMemmove constP m tmp dst src n b = copy m dst src n b := by
  unfold wrapMemmove
  split
  · rw [wrapMemcpy_eq constP _ fun e => absurd e hs, wrapMemcpy_eq constP _ fun e =>
      absurd e.symm hd, copy, read_copy_self]
    funext o
    by_cases hdb : b = dst.blk
    · subst hdb
      unfold copy write
      simp [hb]
    · rw [write_of_ne _ _ hdb, copy, write_of_ne _ _ hb, copy, write_of_ne _ _ hdb]
  · rfl

/-! ## Comparing -/

theorem memcmp_append {as bs cs ds : List UInt8} (h : as.length = bs.length) :
    memcmp (as ++ cs) (bs ++ ds) = (memcmp as bs).then (memcmp cs ds) := by
  induction as generalizing bs with
  | nil =>
    obtain rfl := List.length_eq_zero_iff.mp h.symm
    rfl
  | cons a as ih =>
    cases bs with
    | nil => cases h
    | cons b bs =>
      rw [List.cons_append, List.cons_append, memcmp, memcmp, ih (by simpa using h),
        Ordering.then_assoc]

/-- Two lists up to the byte with number `n`. -/
theorem take_succ_getD {n : Nat} (h : n < as.length) :
    as.take (n + 1) = as.take n ++ [as.getD n 0] := by
  rw [List.take_add_one, List.getElem?_eq_getElem h, List.getD_eq_getElem?_getD,
    List.getElem?_eq_getElem h]
  rfl

/-- A difference of bytes has the sign of their comparison. -/
theorem compare_sub (a b : UInt8) :
    compare ((a.toNat : Int) - b.toNat) 0 = compare a.toNat b.toNat := by
  rcases Nat.lt_trichotomy a.toNat b.toNat with h | h | h
  · rw [Nat.compare_eq_lt.mpr h, Int.compare_eq_lt]
    omega
  · rw [Nat.compare_eq_eq.mpr h, Int.compare_eq_eq]
    omega
  · rw [Nat.compare_eq_gt.mpr h, Int.compare_eq_gt]
    omega

/-- The first difference is the last one that is stored. -/
theorem wrapMemcmpCases_sign (h : as.length = bs.length) {n : Nat} (hn : n ≤ as.length)
    (ret : Int) : compare (wrapMemcmpCases as bs n ret) 0 =
      (memcmp (as.take n) (bs.take n)).then (compare ret 0) := by
  induction n generalizing ret with
  | zero => rfl
  | succ n ih =>
    rw [wrapMemcmpCases, ih (by omega), take_succ_getD (by omega), take_succ_getD (by omega),
      memcmp_append (by simp; omega), Ordering.then_assoc]
    congr 1
    have hs := compare_sub (as.getD n 0) (bs.getD n 0)
    simp only [memcmp, Ordering.then_eq]
    split
    · rename_i h0
      rw [hs]
      cases hc : compare (as.getD n 0).toNat (bs.getD n 0).toNat with
      | eq =>
        rw [hc, Int.compare_eq_eq] at hs
        exact absurd hs h0
      | lt => rfl
      | gt => rfl
    · rename_i h0
      rw [← hs, not_not.mp h0]
      rfl

theorem wrapMemcmp_sign (constP : Bool) (h : as.length = bs.length) :
    compare (wrapMemcmp constP as bs) 0 = memcmp as bs := by
  unfold wrapMemcmp
  split
  · unfold memcmpRet
    cases memcmp as bs <;> rfl
  · rw [wrapMemcmpCases_sign h (Nat.le_refl _), List.take_length, h, List.take_length]
    cases memcmp as bs <;> rfl

/-! ## Searching -/

/-- The first match is the last one that is stored. -/
theorem wrapMemchrCases_eq (c : UInt8) {n : Nat} (hn : n ≤ as.length) (ret : Option Nat) :
    wrapMemchrCases as (plainChar c) n ret =
      ((as.take n).findIdx? fun a => decide (a = c ∧ c.toNat < 128)).or ret := by
  induction n generalizing ret with
  | zero => rfl
  | succ n ih =>
    have hl : (as.take n).length = n := by
      rw [List.length_take]
      omega
    rw [wrapMemchrCases, ih (by omega), take_succ_getD (by omega), List.findIdx?_append,
      Option.or_assoc, hl]
    congr 1
    by_cases h : as.getD n 0 = c ∧ c.toNat < 128
    · rw [if_pos ((toNat_eq_plainChar _ _).mpr h), List.findIdx?_cons, decide_eq_true h]
      simp
    · rw [if_neg fun e => h ((toNat_eq_plainChar _ _).mp e), List.findIdx?_cons,
        decide_eq_false h]
      simp

/-- A match of a `char` below 128, when the buffer is short. -/
theorem wrapMemchr_eq (c : UInt8) :
    wrapMemchr as (plainChar c) =
      if 16 < as.length ∨ c.toNat < 128 then memchr as c else none := by
  unfold wrapMemchr
  by_cases hl : as.length ≤ 16
  · rw [if_pos hl, wrapMemchrCases_eq c (Nat.le_refl _), List.take_length, Option.or_none]
    by_cases hc : c.toNat < 128
    · rw [if_pos (.inr hc)]
      simp only [hc, and_true]
      rfl
    · rw [if_neg (by omega)]
      simp [hc]
  · rw [if_neg hl, if_pos (.inl (by omega)), toUchar_plainChar]

/-- The last match, from the end. -/
theorem wrapMemrchrCases_eq (c : UInt8) {n : Nat} (hn : n ≤ as.length) :
    wrapMemrchrCases as (plainChar c) n =
      if c.toNat < 128 then memrchr (as.take n) c else none := by
  induction n with
  | zero => simp [wrapMemrchrCases, memrchr]
  | succ n ih =>
    have hl : (as.take n).length = n := by
      rw [List.length_take]
      omega
    rw [wrapMemrchrCases, ih (by omega), take_succ_getD (by omega)]
    by_cases hc : c.toNat < 128
    · rw [if_pos hc, if_pos hc]
      unfold memrchr
      rw [List.reverse_append, List.reverse_singleton, List.singleton_append,
        List.findIdx?_cons, List.length_append, hl]
      by_cases h : as.getD n 0 = c
      · rw [if_pos ((toNat_eq_plainChar _ _).mpr ⟨h, hc⟩), decide_eq_true h]
        simp
      · rw [if_neg fun e => h ((toNat_eq_plainChar _ _).mp e).1]
        simp only [decide_eq_true_eq, h, if_false, Option.map_map]
        congr 1
        funext i
        simp only [Function.comp_apply, List.length_singleton]
        omega
    · rw [if_neg hc, if_neg hc, if_neg fun e => hc ((toNat_eq_plainChar _ _).mp e).2]

/-- A match of a `char` below 128, when the buffer is short. -/
theorem wrapMemrchr_eq (c : UInt8) :
    wrapMemrchr as (plainChar c) =
      if 7 < as.length ∨ c.toNat < 128 then memrchr as c else none := by
  unfold wrapMemrchr
  by_cases hl : as.length ≤ 7
  · rw [if_pos hl, wrapMemrchrCases_eq c (Nat.le_refl _), List.take_length]
    by_cases hc : c.toNat < 128
    · rw [if_pos hc, if_pos (.inr hc)]
    · rw [if_neg hc, if_neg (by omega)]
  · rw [if_neg hl, if_pos (.inl (by omega)), toUchar_plainChar]

theorem memchr_eq_none_iff (c : UInt8) : memchr as c = none ↔ c ∉ as := by
  unfold memchr
  rw [List.findIdx?_eq_none_iff]
  constructor
  · intro h hc
    simpa using h c hc
  · intro h a ha
    exact decide_eq_false fun e => h (e ▸ ha)

theorem memrchr_eq_none_iff (c : UInt8) : memrchr as c = none ↔ c ∉ as := by
  unfold memrchr
  rw [Option.map_eq_none_iff]
  have h : memchr as.reverse c = none ↔ c ∉ as.reverse := memchr_eq_none_iff c
  rwa [List.mem_reverse] at h

/-- The wrappers leave the memory that the C functions leave and compare as `memcmp` does.
The searches find what `memchr` and `memrchr` find exactly when the buffer is longer than
the switch, the byte is below 128 or the buffer does not have it. -/
theorem wrap_agrees_iff :
    (∀ constP (m : Mem B UInt8) (dst src : Ptr B) n, RegionsApart dst src n →
      wrapMemcpy constP m dst src n = copy m dst src n) ∧
    (∀ constP (m : Mem B UInt8) dst b n,
      wrapMemset constP m dst (plainChar b) n = fill m dst b n) ∧
    (∀ constP (m : Mem B UInt8) (tmp dst src : Ptr B) n, tmp.blk ≠ dst.blk → tmp.blk ≠ src.blk →
      ∀ b, b ≠ tmp.blk → wrapMemmove constP m tmp dst src n b = copy m dst src n b) ∧
    (∀ constP (s1 s2 : List UInt8), s1.length = s2.length →
      compare (wrapMemcmp constP s1 s2) 0 = memcmp s1 s2) ∧
    (∀ (s1 : List UInt8) c, wrapMemchr s1 (plainChar c) = memchr s1 c ↔
      16 < s1.length ∨ c.toNat < 128 ∨ c ∉ s1) ∧
    ∀ (s1 : List UInt8) c, wrapMemrchr s1 (plainChar c) = memrchr s1 c ↔
      7 < s1.length ∨ c.toNat < 128 ∨ c ∉ s1 := by
  refine ⟨fun constP m dst src n h => wrapMemcpy_eq constP m h, wrapMemset_eq,
    fun constP m tmp dst src n hd hs b hb => wrapMemmove_eq constP m n hd hs hb,
    fun constP s1 s2 h => wrapMemcmp_sign constP h, fun s1 c => ?_, fun s1 c => ?_⟩
  · rw [wrapMemchr_eq, ← or_assoc]
    split
    · rename_i h
      simp [h]
    · rename_i h
      rw [eq_comm, memchr_eq_none_iff]
      exact (or_iff_right h).symm
  · rw [wrapMemrchr_eq, ← or_assoc]
    split
    · rename_i h
      simp [h]
    · rename_i h
      rw [eq_comm, memrchr_eq_none_iff]
      exact (or_iff_right h).symm

/-- A byte is found, and copied one to the right. -/
theorem wrap_agrees_short :
    wrapMemchr [0xFF, 0x61] (plainChar 0x61) = memchr [0xFF, 0x61] 0x61 ∧
    wrapMemmove false (fun (_ : Bool) o => UInt8.ofNat o) ⟨true, 0⟩ ⟨false, 1⟩ ⟨false, 0⟩ 3 false =
      copy (fun (_ : Bool) o => UInt8.ofNat o) ⟨false, 1⟩ ⟨false, 0⟩ 3 false := by
  have h := wrap_agrees_iff (B := Bool)
  exact ⟨(h.2.2.2.2.1 _ _).mpr (by decide),
    h.2.2.1 false _ ⟨true, 0⟩ ⟨false, 1⟩ ⟨false, 0⟩ 3 (by decide) (by decide) false (by decide)⟩

/-- One byte that is 255 is not found. -/
theorem wrap_misses : wrapMemchr [0xFF] (plainChar 0xFF) = none ∧ memchr [0xFF] 0xFF = some 0 ∧
    wrapMemrchr [0xFF] (plainChar 0xFF) = none ∧ memrchr [0xFF] 0xFF = some 0 := by
  decide

end Vstr
