import Vstr.Cmp.VersOrder

/-!
# Versions in a circle

Three versions follow each other in a circle exactly if two of them part in a run of digits
that begins with a zero, behind a digit that is not zero, and the third has left them among the
zeros and comes between. But for that `vstr_cmp_vers` is an order.
-/

namespace Vstr

open Memory Splice Query

variable {xs ys zs : List (Option UInt8)} {st : VersState}

/-- Each of the slices comes before the next one. -/
structure Cycle (st : VersState) (xs ys zs : List (Option UInt8)) : Prop where
  /-- The first before the second. -/
  first : versFlat st 0 xs ys < 0
  /-- The second before the third. -/
  second : versFlat st 0 ys zs < 0
  /-- The third before the first. -/
  third : versFlat st 0 zs xs < 0

theorem Cycle.rotate (h : Cycle st xs ys zs) : Cycle st ys zs xs := ⟨h.second, h.third, h.first⟩

/-- Two slices that go on behind `p` and `v` with `xs` and `ys`, and one that goes on behind `p`
with `zs`. -/
structure Crosses (st : VersState) (p v xs ys zs : List (Option UInt8)) : Prop where
  /-- `p` ends in a run of digits, all zeros so far. -/
  frac : st.along p = .frac
  /-- Behind `v`, that has a digit that is not zero, the state is that of a number. -/
  numb : st.along (p ++ v) = .numb
  /-- `zs` is not where `v` is. -/
  apart : front zs ≠ front v
  /-- As fractions the second is before the third. -/
  below : fracKey (v ++ ys) < fracKey zs
  /-- As fractions the third is before the first. -/
  above : fracKey zs < fracKey (v ++ xs)

/-- Two slices part behind a digit that is not zero, in a run that begins with a zero, and the
third leaves them among the zeros and comes between. -/
def Crossing (st : VersState) (xs ys zs : List (Option UInt8)) : Prop :=
  ∃ p v xs' ys' zs', xs = p ++ (v ++ xs') ∧ ys = p ++ (v ++ ys') ∧ zs = p ++ zs' ∧
    Crosses st p v xs' ys' zs'

/-! ## Common digits -/

/-- Behind a common beginning. -/
theorem reach_lt_of_append {v : List (Option UInt8)} (h : reach (v ++ xs) < reach (v ++ ys)) :
    reach xs < reach ys := by
  induction v with
  | nil => exact h
  | cons x v ih =>
    refine ih ?_
    rcases x with - | a
    · simpa [reach] using h
    · rw [List.cons_append, List.cons_append, reach, reach] at h
      split_ifs at h
      · simpa using h
      · exact absurd h (lt_irrefl _)

theorem front_append {v : List (Option UInt8)} (hv : v ≠ []) (xs : List (Option UInt8)) :
    front (v ++ xs) = front v := by
  obtain ⟨x, v, rfl⟩ := List.exists_cons_of_ne_nil hv
  exact front_eq_iff.2 rfl

/-- In a number the one that reaches less far comes first. -/
theorem versFlat_numb_of_reach (h : reach xs < reach ys) : versFlat .numb 0 xs ys < 0 := by
  induction xs generalizing ys with
  | nil =>
    by_cases hf : front [] = front ys
    · cases ys with
      | nil => exact absurd h (lt_irrefl _)
      | cons y ys => simpa using front_eq_iff.1 hf
    · exact (versFlat_numb_lt hf).2 (numbKey_lt_iff.2 (.inl h))
  | cons x xs ih =>
    by_cases hf : front (x :: xs) = front ys
    · obtain ⟨ys, rfl⟩ := exists_cons_of_front_eq hf
      have h' := reach_lt_of_append (v := [x]) h
      rw [versFlat_cons_self rfl]
      rcases x with - | a
      · exact ih h'
      · rw [reach, reach] at h
        split_ifs at h with ha
        · have hn : VersState.numb.step (some a) = .numb := by
            simp [VersState.step, VersState.next, ha]
          rw [hn]
          exact ih h'
        · exact absurd h (lt_irrefl _)
    · exact (versFlat_numb_lt hf).2 (numbKey_lt_iff.2 (.inl h))

/-- A fraction that reaches less far comes first only behind a digit that is not zero. -/
theorem numb_of_reach (h : reach xs < reach ys) (hlt : versFlat .frac 0 xs ys < 0) :
    ∃ v xs' ys', xs = v ++ xs' ∧ ys = v ++ ys' ∧ VersState.frac.along v = .numb := by
  have hfront : ∀ {xs ys}, reach xs < reach ys → versFlat .frac 0 xs ys < 0 →
      front xs = front ys := by
    intro xs ys h hlt
    by_contra hf
    rw [versFlat_frac_lt hf, fracKey_lt_iff] at hlt
    rcases hlt with hr | ⟨hr, -⟩
    · exact lt_asymm h hr
    · exact h.ne hr
  induction xs generalizing ys with
  | nil =>
    cases ys with
    | nil => exact absurd h (lt_irrefl _)
    | cons y ys => simpa using front_eq_iff.1 (hfront h hlt)
  | cons x xs ih =>
    obtain ⟨ys, rfl⟩ := exists_cons_of_front_eq (hfront h hlt)
    have h' := reach_lt_of_append (v := [x]) h
    have hnext : VersState.frac.step x = .frac → ∃ v xs' ys', x :: xs = v ++ xs' ∧
        x :: ys = v ++ ys' ∧ VersState.frac.along v = .numb := by
      intro hs
      rw [versFlat_cons_self rfl, hs] at hlt
      obtain ⟨v, xs', ys', rfl, rfl, hv⟩ := ih h' hlt
      exact ⟨x :: v, xs', ys', rfl, rfl, by rw [VersState.along_cons, hs, hv]⟩
    rcases x with - | a
    · exact hnext rfl
    · rw [reach, reach] at h
      split_ifs at h with ha
      · by_cases h0 : a = 0x30
        · subst h0
          exact hnext rfl
        · exact ⟨[some a], xs, ys, rfl, rfl, by simp [VersState.step, VersState.next, ha, h0]⟩
      · exact absurd h (lt_irrefl _)

/-! ## Circles -/

/-- Slices that all begin differently are in order. -/
theorem not_cycle_of_front (hm : st.main = true) (hxy : front xs ≠ front ys)
    (hyz : front ys ≠ front zs) (hzx : front zs ≠ front xs) : ¬ Cycle st xs ys zs := by
  rintro ⟨h₁, h₂, h₃⟩
  cases st with
  | norm =>
    rw [versFlat_norm_lt hxy] at h₁
    rw [versFlat_norm_lt hyz] at h₂
    rw [versFlat_norm_lt hzx] at h₃
    exact lt_irrefl _ ((h₁.trans h₂).trans h₃)
  | numb =>
    rw [versFlat_numb_lt hxy] at h₁
    rw [versFlat_numb_lt hyz] at h₂
    rw [versFlat_numb_lt hzx] at h₃
    exact lt_irrefl _ ((h₁.trans h₂).trans h₃)
  | frac =>
    rw [versFlat_frac_lt hxy] at h₁
    rw [versFlat_frac_lt hyz] at h₂
    rw [versFlat_frac_lt hzx] at h₃
    exact lt_irrefl _ ((h₁.trans h₂).trans h₃)
  | lenPos | lenNeg | done => cases hm

theorem startsNumb_congr (h : front xs = front ys) : startsNumb xs = startsNumb ys := by
  have h := front_eq_iff.1 h
  rcases xs with - | ⟨- | a, xs⟩ <;> rcases ys with - | ⟨- | b, ys⟩ <;> simp at h <;>
    simp [startsNumb, h]

/-- Keys outside of numbers that begin in one way. -/
theorem normKey_lt_of_front (hf : front xs = front ys) (h : normKey xs < normKey ys) :
    startsNumb xs = true ∧ reach xs < reach ys := by
  have hs := startsNumb_congr hf
  rw [normKey, normKey, Prod.Lex.toLex_lt_toLex] at h
  have hn : normFront xs = normFront ys := by
    rw [normFront, normFront, hs, hf]
  dsimp only at h
  rw [hn, hs] at h
  by_cases hy : startsNumb ys = true
  · rw [if_pos hy, if_pos hy, numbKey_lt_iff, hf] at h
    refine ⟨hs.trans hy, ?_⟩
    simpa using h
  · rw [if_neg hy, if_neg hy] at h
    simp at h

/-- If two of them begin in one way, a circle is a crossing. -/
theorem Cycle.crossing (hm : st.main = true) (hxy : front xs = front ys) (hzx : front zs ≠ front xs)
    (h : Cycle st xs ys zs) : Crossing st xs ys zs := by
  obtain ⟨h₁, h₂, h₃⟩ := h
  have hyz : front ys ≠ front zs := fun e => hzx (e.symm.trans hxy.symm)
  have hback : ∀ xs ys, versFlat .numb 0 xs ys < 0 → ¬ reach ys < reach xs := by
    intro xs ys h hr
    have h' := versFlat_numb_of_reach hr
    have hs := versFlat_zero_swap .numb xs ys
    omega
  cases st with
  | norm =>
    rw [versFlat_norm_lt hyz] at h₂
    rw [versFlat_norm_lt hzx] at h₃
    obtain ⟨hs, hr⟩ := normKey_lt_of_front hxy.symm (h₂.trans h₃)
    cases ys with
    | nil => cases hs
    | cons y ys =>
      obtain ⟨xs, rfl⟩ := exists_cons_of_front_eq hxy.symm
      have hstep : VersState.norm.step y = .numb := by
        rcases y with - | a
        · cases hs
        · simp only [startsNumb, decide_eq_true_eq] at hs
          simp [VersState.step, VersState.next, hs.1, hs.2]
      rw [versFlat_cons_self rfl, hstep] at h₁
      exact absurd (reach_lt_of_append (v := [y]) hr) (hback _ _ h₁)
  | numb =>
    rw [versFlat_numb_lt hyz] at h₂
    rw [versFlat_numb_lt hzx] at h₃
    rcases numbKey_lt_iff.1 (h₂.trans h₃) with hr | ⟨-, hf⟩
    · exact absurd hr (hback _ _ h₁)
    · exact absurd hf (by rw [hxy]; exact lt_irrefl _)
  | frac =>
    rw [versFlat_frac_lt hyz] at h₂
    rw [versFlat_frac_lt hzx] at h₃
    rcases fracKey_lt_iff.1 (h₂.trans h₃) with hr | ⟨-, hf⟩
    · obtain ⟨v, xs', ys', rfl, rfl, hv⟩ := numb_of_reach hr h₁
      have hne : v ≠ [] := by
        rintro rfl
        cases hv
      rw [front_append hne] at hzx
      exact ⟨[], v, xs', ys', zs, rfl, rfl, rfl, rfl, hv, hzx, h₂, h₃⟩
    · exact absurd hf (by rw [hxy]; exact lt_irrefl _)
  | lenPos | lenNeg | done => cases hm

/-- A crossing behind one more byte. -/
theorem Crossing.cons {x : Option UInt8} (h : Crossing (st.step x) xs ys zs) :
    Crossing st (x :: xs) (x :: ys) (x :: zs) := by
  obtain ⟨p, v, xs', ys', zs', rfl, rfl, rfl, hc⟩ := h
  exact ⟨x :: p, v, xs', ys', zs', rfl, rfl, rfl, hc.frac, hc.numb, hc.apart, hc.below, hc.above⟩

/-- A crossing is a circle. -/
theorem Crossing.cycle (hm : st.main = true) (h : Crossing st xs ys zs) : Cycle st xs ys zs := by
  obtain ⟨p, v, xs, ys, zs, rfl, rfl, rfl, hc⟩ := h
  have hv : v ≠ [] := by
    rintro rfl
    have hn := hc.numb
    rw [List.append_nil, hc.frac] at hn
    cases hn
  have hapart : ∀ us, front zs ≠ front (v ++ us) := fun us => by
    rw [front_append hv]
    exact hc.apart
  have hr : reach (v ++ xs) < reach (v ++ ys) := by
    rcases fracKey_lt_iff.1 (hc.below.trans hc.above) with hr | ⟨-, hf⟩
    · exact hr
    · rw [front_append hv, front_append hv] at hf
      exact absurd hf (lt_irrefl _)
  refine ⟨?_, ?_, ?_⟩
  · rw [← List.append_assoc, ← List.append_assoc, versFlat_append_self hm, hc.numb]
    exact versFlat_numb_of_reach (reach_lt_of_append hr)
  · rw [versFlat_append_self hm, hc.frac]
    exact (versFlat_frac_lt (hapart ys).symm).2 hc.below
  · rw [versFlat_append_self hm, hc.frac]
    exact (versFlat_frac_lt (hapart xs)).2 hc.above

/-- Where there is a circle, two of the slices part in a number behind zeros. -/
theorem cycle_iff (hm : st.main = true) : Cycle st xs ys zs ↔
    Crossing st xs ys zs ∨ Crossing st ys zs xs ∨ Crossing st zs xs ys := by
  refine ⟨fun h => ?_, ?_⟩
  · have hone : ∀ {st : VersState} {xs ys zs : List (Option UInt8)}, st.main = true →
        Cycle st xs ys zs → ¬ (front xs = front ys ∧ front zs = front xs) →
        Crossing st xs ys zs ∨ Crossing st ys zs xs ∨ Crossing st zs xs ys := by
      intro st xs ys zs hm h hall
      by_cases hxy : front xs = front ys
      · exact .inl (h.crossing hm hxy fun hz => hall ⟨hxy, hz⟩)
      by_cases hyz : front ys = front zs
      · exact .inr (.inl (h.rotate.crossing hm hyz hxy))
      by_cases hzx : front zs = front xs
      · exact .inr (.inr (h.rotate.rotate.crossing hm hzx hyz))
      · exact absurd h (not_cycle_of_front hm hxy hyz hzx)
    induction xs generalizing st ys zs with
    | nil =>
      refine hone hm h fun hall => ?_
      cases ys with
      | nil => exact absurd h.first (lt_irrefl _)
      | cons y ys => simpa using front_eq_iff.1 hall.1
    | cons x xs ih =>
      by_cases hall : front (x :: xs) = front ys ∧ front zs = front (x :: xs)
      · obtain ⟨ys, rfl⟩ := exists_cons_of_front_eq hall.1
        obtain ⟨zs, rfl⟩ := exists_cons_of_front_eq hall.2.symm
        obtain ⟨h₁, h₂, h₃⟩ := h
        rw [versFlat_cons_self hm] at h₁ h₂ h₃
        rcases ih (VersState.main_step hm x) ⟨h₁, h₂, h₃⟩ with hc | hc | hc
        · exact .inl hc.cons
        · exact .inr (.inl hc.cons)
        · exact .inr (.inr hc.cons)
      · exact hone hm h hall
  · rintro (h | h | h)
    · exact h.cycle hm
    · exact (h.cycle hm).rotate.rotate
    · exact (h.cycle hm).rotate

/-! ## The comparison of versions -/

section

variable {n : Nat} {E₁ E₂ E₃ : Env} {P₁ P₂ P₃ : Own} {w : World n} {i j k : Fin n}
  {p₁ p₂ p₃ l₁ l₂ l₃ : Nat}

/-- The order is transitive where there is no circle. -/
theorem versFlat_trans_iff (hm : st.main = true) :
    (versFlat st 0 xs ys ≤ 0 → versFlat st 0 ys zs ≤ 0 → versFlat st 0 xs zs ≤ 0) ↔
      ¬ (Crossing st xs ys zs ∨ Crossing st ys zs xs ∨ Crossing st zs xs ys) := by
  rw [← cycle_iff hm]
  have hs := versFlat_zero_swap st xs zs
  constructor
  · rintro h ⟨h₁, h₂, h₃⟩
    have := h h₁.le h₂.le
    omega
  · intro h h₁ h₂
    by_contra h₃
    have hne : ∀ {us vs}, versFlat st 0 us vs ≤ 0 → us ≠ vs → versFlat st 0 us vs < 0 :=
      fun hle hne => lt_of_le_of_ne hle fun e => hne ((versFlat_eq_zero_iff hm).1 e)
    refine h ⟨hne h₁ ?_, hne h₂ ?_, by omega⟩
    · rintro rfl
      exact h₃ h₂
    · rintro rfl
      exact h₃ h₁

/-- The comparison of versions depends on the bytes only, is zero for equal slices only and
turns its sign; it is transitive except for slices that cross. -/
theorem cmp_vers_order_iff (w₁ : Window E₁ P₁ (w.st i) p₁ l₁ xs)
    (w₂ : Window E₂ P₂ (w.st j) p₂ l₂ ys) (w₃ : Window E₃ P₃ (w.st k) p₃ l₃ zs) :
    Yields ReadsAll (cmpVers i p₁ l₁ j p₂ l₂) w (versFlat .norm 0 xs ys) ∧
    (∀ buf : Buf, Yields Reads (cmpVersBuf p₁ l₁ buf) (w.st i)
        (versFlat .norm 0 xs buf.contents) ∧
      (buf.contents = ys →
        ((cmpVersBuf p₁ l₁ buf).run (w.st i)).1 = ((cmpVers i p₁ l₁ j p₂ l₂).run w).1)) ∧
    ((cmpVers j p₂ l₂ i p₁ l₁).run w).1 = -((cmpVers i p₁ l₁ j p₂ l₂).run w).1 ∧
    (((cmpVers i p₁ l₁ j p₂ l₂).run w).1 = 0 ↔ xs = ys) ∧
    ((((cmpVers i p₁ l₁ j p₂ l₂).run w).1 ≤ 0 → ((cmpVers j p₂ l₂ k p₃ l₃).run w).1 ≤ 0 →
        ((cmpVers i p₁ l₁ k p₃ l₃).run w).1 ≤ 0) ↔
      ¬ (Crossing .norm xs ys zs ∨ Crossing .norm ys zs xs ∨ Crossing .norm zs xs ys)) := by
  refine ⟨cmpVers_yields w₁ w₂, fun buf => ⟨cmpVersBuf_yields w₁ buf, ?_⟩, ?_, ?_, ?_⟩
  · rintro rfl
    rw [(cmpVersBuf_yields w₁ buf).1, (cmpVers_yields w₁ w₂).1]
  · rw [(cmpVers_yields w₂ w₁).1, (cmpVers_yields w₁ w₂).1]
    exact versFlat_zero_swap .norm xs ys
  · rw [(cmpVers_yields w₁ w₂).1]
    exact versFlat_eq_zero_iff rfl
  · rw [(cmpVers_yields w₁ w₂).1, (cmpVers_yields w₂ w₃).1, (cmpVers_yields w₁ w₃).1]
    exact versFlat_trans_iff rfl

/-- `12` is a later version than `9`. -/
theorem cmp_vers_order_short :
    ((cmpVers 0 1 2 0 3 1).run (.single (written [0x31, 0x32, 0x39]))).1 = 1 := by
  obtain ⟨P, w⟩ := window_text [0x31, 0x32, 0x39]
  have w₁ : Window alone P ((World.single (written [0x31, 0x32, 0x39])).st 0) 1 2
      [some 0x31, some 0x32] := w.take (by decide)
  have w₂ : Window alone P ((World.single (written [0x31, 0x32, 0x39])).st 0) 3 1 [some 0x39] :=
    w.drop (k := 2) (by decide)
  exact (cmp_vers_order_iff w₁ w₂ w₁).1.1

/-- `021` is not after `01`, `01` not after `02`, but `021` is after `02`. -/
theorem cmp_vers_cycle :
    ((cmpVers 0 1 3 0 4 2).run (.single (written [0x30, 0x32, 0x31, 0x30, 0x31]))).1 ≤ 0 ∧
    ((cmpVers 0 4 2 0 1 2).run (.single (written [0x30, 0x32, 0x31, 0x30, 0x31]))).1 ≤ 0 ∧
    ¬ ((cmpVers 0 1 3 0 1 2).run (.single (written [0x30, 0x32, 0x31, 0x30, 0x31]))).1 ≤ 0 := by
  obtain ⟨P, w⟩ := window_text [0x30, 0x32, 0x31, 0x30, 0x31]
  have wa : Window alone P ((World.single (written [0x30, 0x32, 0x31, 0x30, 0x31])).st 0) 1 3
      [some 0x30, some 0x32, some 0x31] := w.take (by decide)
  have wb : Window alone P ((World.single (written [0x30, 0x32, 0x31, 0x30, 0x31])).st 0) 4 2
      [some 0x30, some 0x31] := w.drop (k := 3) (by decide)
  have wc : Window alone P ((World.single (written [0x30, 0x32, 0x31, 0x30, 0x31])).st 0) 1 2
      [some 0x30, some 0x32] := wa.take (by decide)
  rw [(cmpVers_yields wa wb).1, (cmpVers_yields wb wc).1, (cmpVers_yields wa wc).1]
  exact ⟨by decide, by decide, by decide⟩

end

end Vstr
