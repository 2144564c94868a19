import Vstr.Cmp.Order
import Mathlib.Tactic.NormNum

/-!
# Lengths first

`vstr_cmp_fast` answers with the difference of two lengths, which is a `size_t`, as an `int`.
Its sign is right for differences that keep their sign on the way.
-/

namespace Vstr

open Memory Splice Query

variable {n : Nat} {E₁ E₂ E₃ : Env} {P₁ P₂ P₃ : Own} {w : World n} {i j k : Fin n}
  {p₁ p₂ p₃ l₁ l₂ l₃ : Nat} {xs ys zs : List (Option UInt8)}

/-- Lengths first, and bytes in the reversed order. -/
def fastOrder (xs ys : List (Option UInt8)) : Ordering :=
  compareLex (compareOn List.length) compare ys xs

/-- The sign of an `int`. -/
def sgn (r : Int) : Ordering := compare r 0

/-- The difference of the lengths keeps its sign as an `int`. -/
def FastOk (l₁ l₂ : Nat) : Prop :=
  l₁ = l₂ ∨ l₁ < l₂ ∧ 0 < (l₂ - l₁) % 2 ^ 32 ∧ (l₂ - l₁) % 2 ^ 32 < 2 ^ 31 ∨
    l₂ < l₁ ∧ 0 < (l₁ - l₂) % 2 ^ 32 ∧ (l₁ - l₂) % 2 ^ 32 ≤ 2 ^ 31

/-- Shorter strings last, and bytes in their order. -/
def lengthOrder : List (Option UInt8) → List (Option UInt8) → Ordering :=
  compareLex (compareOn List.length) compare

instance : Std.TransCmp lengthOrder :=
  inferInstanceAs (Std.TransCmp (compareLex (compareOn List.length) compare))

theorem orderOf_fastOrder (xs ys zs : List (Option UInt8)) :
    OrderOf (fastOrder xs ys) (fastOrder ys xs) (fastOrder ys zs) (fastOrder xs zs) (xs = ys) where
  swap := (Std.OrientedCmp.eq_swap : lengthOrder xs ys = (lengthOrder ys xs).swap)
  trans h h' := by
    have ht : lengthOrder zs ys |>.isLE := h'
    exact (Std.TransCmp.isLE_trans ht h : (lengthOrder zs xs).isLE)
  eq_iff := by
    change compareLex (compareOn List.length) compare ys xs = .eq ↔ xs = ys
    rw [compareLex_eq_eq]
    refine ⟨fun h => (Std.LawfulEqCmp.compare_eq_iff_eq.1 h.2).symm, ?_⟩
    rintro rfl
    exact ⟨Std.ReflCmp.compare_self, Std.ReflCmp.compare_self⟩

theorem sgn_orderingInt (o : Ordering) : sgn (-orderingInt o) = o.swap := by
  cases o <;> rfl

/-- The sign of a difference of lengths. -/
theorem sgn_sizeToInt_iff (hne : l₁ ≠ l₂) :
    sgn (sizeToInt (l₂ - l₁)) = compare l₂ l₁ ↔ FastOk l₁ l₂ := by
  have hpos : ∀ r : Int, sgn r = .gt ↔ 0 < r := fun r => by
    rw [sgn, compare_gt_iff_gt]
  have hneg : ∀ r : Int, sgn r = .lt ↔ r < 0 := fun r => by
    rw [sgn, compare_lt_iff_lt]
  unfold sizeToInt FastOk
  rw [Int.bmod_def]
  rcases Nat.lt_or_gt_of_ne hne with hlt | hgt
  · rw [compare_gt_iff_gt.2 hlt, hpos]
    split <;> omega
  · rw [compare_lt_iff_lt.2 hgt, hneg]
    split <;> omega

/-- The sign of `vstr_cmp_fast`. -/
theorem cmpFast_sgn (w₁ : Window E₁ P₁ (w.st i) p₁ l₁ xs) (w₂ : Window E₂ P₂ (w.st j) p₂ l₂ ys) :
    sgn ((cmpFast i p₁ l₁ j p₂ l₂).run w).1 = fastOrder xs ys ↔ FastOk l₁ l₂ := by
  have hl₁ := w₁.length
  have hl₂ := w₂.length
  by_cases hne : l₁ ≠ l₂
  · have e : ((cmpFast i p₁ l₁ j p₂ l₂).run w).1 = sizeToInt (l₂ - l₁) := by
      rw [cmpFast, if_pos hne]
      rfl
    have ho : fastOrder xs ys = compare l₂ l₁ := by
      change (compare ys.length xs.length).then _ = _
      rw [hl₁, hl₂]
      rcases Nat.lt_or_gt_of_ne hne with hlt | hgt
      · rw [compare_gt_iff_gt.2 hlt]
        rfl
      · rw [compare_lt_iff_lt.2 hgt]
        rfl
    rw [e, ho, sgn_sizeToInt_iff hne]
  · obtain rfl : l₁ = l₂ := by simpa using hne
    have e : ((cmpFast i p₁ l₁ j p₂ l₁).run w).1 =
        -orderingInt ((Vstr.cmp i p₁ l₁ j p₂ l₁).run w).1 := by
      rw [cmpFast, if_neg hne]
      rfl
    have ho : fastOrder xs ys = compare ys xs := by
      change (compare ys.length xs.length).then _ = _
      rw [hl₁, hl₂, (Std.ReflCmp.compare_self : compare l₁ l₁ = .eq)]
      rfl
    rw [e, (cmp_yields w₁ w₂).1, sgn_orderingInt, ho]
    exact iff_of_true Std.OrientedCmp.eq_swap.symm (.inl rfl)

/-- `vstr_cmp_fast_buf` against a string with the bytes of the buffer. -/
theorem cmpFastBuf_eq (w₁ : Window E₁ P₁ (w.st i) p₁ l₁ xs)
    (w₂ : Window E₂ P₂ (w.st j) p₂ l₂ ys) {buf : Buf} (hb : buf.contents = ys) :
    ((cmpFastBuf p₁ l₁ buf).run (w.st i)).1 = ((cmpFast i p₁ l₁ j p₂ l₂).run w).1 := by
  have hl : buf.len = l₂ := by rw [← buf.length_contents, hb, w₂.length]
  unfold cmpFastBuf cmpFast
  rw [hl]
  by_cases hne : l₁ ≠ l₂
  · rw [if_pos hne, if_pos hne]
    rfl
  · obtain rfl : l₁ = l₂ := by simpa using hne
    rw [if_neg hne, if_neg hne]
    have hc := (cmpAnyBuf_yields w₁ buf).1
    rw [hb, ← (cmp_yields w₁ w₂).1] at hc
    exact congrArg (fun o => -orderingInt o) hc

/-- `vstr_cmp_fast` is the order by lengths exactly where a difference of lengths keeps its
sign, and agrees with `vstr_cmp_fast_buf` everywhere. -/
theorem cmp_fast_order_iff (w₁ : Window E₁ P₁ (w.st i) p₁ l₁ xs)
    (w₂ : Window E₂ P₂ (w.st j) p₂ l₂ ys) (w₃ : Window E₃ P₃ (w.st k) p₃ l₃ zs) :
    (sgn ((cmpFast i p₁ l₁ j p₂ l₂).run w).1 = fastOrder xs ys ↔ FastOk l₁ l₂) ∧
    (∀ buf : Buf, buf.contents = ys →
      ((cmpFastBuf p₁ l₁ buf).run (w.st i)).1 = ((cmpFast i p₁ l₁ j p₂ l₂).run w).1) ∧
    (FastOk l₁ l₂ → FastOk l₂ l₁ → FastOk l₂ l₃ → FastOk l₁ l₃ →
      OrderOf (sgn ((cmpFast i p₁ l₁ j p₂ l₂).run w).1) (sgn ((cmpFast j p₂ l₂ i p₁ l₁).run w).1)
        (sgn ((cmpFast j p₂ l₂ k p₃ l₃).run w).1) (sgn ((cmpFast i p₁ l₁ k p₃ l₃).run w).1)
        (xs = ys)) := by
  refine ⟨cmpFast_sgn w₁ w₂, fun buf hb => cmpFastBuf_eq w₁ w₂ hb, fun h₁ h₂ h₃ h₄ => ?_⟩
  rw [(cmpFast_sgn w₁ w₂).2 h₁, (cmpFast_sgn w₂ w₁).2 h₂, (cmpFast_sgn w₂ w₃).2 h₃,
    (cmpFast_sgn w₁ w₃).2 h₄]
  exact orderOf_fastOrder xs ys zs

/-- `ab` and `b`: the longer one is first. -/
theorem cmp_fast_order_short :
    sgn ((cmpFast 0 1 2 0 2 1).run (.single (written [0x61, 0x62]))).1 = .lt := by
  obtain ⟨P, w⟩ := window_text [0x61, 0x62]
  have w₁ : Window alone P ((World.single (written [0x61, 0x62])).st 0) 1 2
    [some 0x61, some 0x62] := w
  have w₂ : Window alone P ((World.single (written [0x61, 0x62])).st 0) 2 1 [some 0x62] :=
    w.drop (k := 1) (by decide)
  exact ((cmp_fast_order_iff w₁ w₂ w₂).1.2 (.inr (.inr (by decide))))

/-- A string of 4294967296 bytes is equal to the empty one. -/
theorem cmp_fast_wraps :
    (∃ (P : Own) (xs : List (Option UInt8)),
      Window alone P ((World.single (written (List.replicate (4294967296) 0))).st 0) 1
      (4294967296) xs ∧
      Window alone P ((World.single (written (List.replicate (4294967296) 0))).st 0) 1 0 [] ∧
      xs ≠ []) ∧
    ((cmpFast 0 1 (4294967296) 0 1 0).run
      (.single (written (List.replicate (4294967296) 0)))).1 = 0 := by
  have htext : (List.replicate 4294967296 (0 : UInt8)).length = 4294967296 :=
    List.length_replicate
  generalize List.replicate 4294967296 (0 : UInt8) = text at htext
  obtain ⟨P, w⟩ := window_text text
  rw [htext] at w
  have hne : text.map some ≠ [] := by
    intro e
    have hl := congrArg List.length e
    rw [List.length_map, htext, List.length_nil] at hl
    omega
  have hzero : sizeToInt ((0 : Nat) - (4294967296 : Nat)) = 0 := by
    rw [sizeToInt, Int.bmod_def]
    norm_num
  rw [World.st_single]
  refine ⟨⟨P, _, w, w.take (Nat.zero_le _), hne⟩, ?_⟩
  rw [cmpFast, if_pos (by omega)]
  exact hzero

end Vstr
