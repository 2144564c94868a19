import Vstr.Cmp.Order
import Vstr.Model.Vers

/-!
# Comparing versions byte by byte

What `vstr_cmp_vers` answers is a function of the bytes of the slices, that goes on from state
to state byte by byte, wherever the nodes end. It is zero for equal slices only, and turns its
sign when the slices change places.
-/

namespace Vstr

open Memory Splice Query

variable {h : Heap} {its its₁ its₂ : List Iter} {it : Iter} {xs ys : List (Option UInt8)}
  {st : VersState} {d : Int} {a b : UInt8} {as bs : List UInt8}

/-- The comparison of versions, byte by byte. -/
def versFlat : VersState → Int → List (Option UInt8) → List (Option UInt8) → Int
  | _, d, [], [] => d
  | st, _, _ :: _, [] => scan1Longer st
  | st, _, [], _ :: _ => scan2Longer st
  | st, d, none :: xs, none :: ys => versFlat st d xs ys
  | st, _, some _ :: _, none :: _ => scan1Longer st
  | st, _, none :: _, some _ :: _ => scan2Longer st
  | st, d, some a :: xs, some b :: ys =>
    match cmpVersBytes [a] [b] st d with
    | (.done, d) => d
    | (st, d) => versFlat st d xs ys

/-! ## One byte after the other -/

theorem VersState.main_next (hm : st.main = true) (a : UInt8) : (st.next a).main = true := by
  cases st with
  | norm | numb | frac =>
    unfold VersState.next
    dsimp only
    split_ifs <;> rfl
  | lenPos | lenNeg | done => cases hm

theorem plainChar_inj : plainChar a = plainChar b ↔ a = b := by
  have ha := a.toNat_lt
  have hb := b.toNat_lt
  rw [← UInt8.toNat_inj]
  unfold plainChar
  split_ifs <;> omega

/-- A byte of both strings. -/
theorem cmpVersBytes_self (hm : st.main = true) : cmpVersBytes [a] [a] st d = (st.next a, d) := by
  simp [cmpVersBytes, cmpVersMain, hm, VersState.main_next hm]

/-- Bytes that differ. -/
theorem cmpVersBytes_of_ne (hm : st.main = true) (hne : a ≠ b) (as bs : List UInt8) :
    cmpVersBytes (a :: as) (b :: bs) st d = if st.differ a b = .done
      then (.done, plainChar a - plainChar b)
      else cmpVersLen (st.differ a b) (plainChar a - plainChar b) (a :: as) (b :: bs) := by
  have hd : plainChar a - plainChar b ≠ 0 := fun h =>
    hne (plainChar_inj.1 (Int.sub_eq_zero.1 h))
  simp only [cmpVersBytes, cmpVersMain, hm, if_true, hd, if_false, ne_eq, not_false_eq_true,
    List.headD_cons]
  cases st.differ a b <;> simp

/-- Bytes once the strings differ. -/
theorem cmpVersBytes_len (hm : st.main = false) (as bs : List UInt8) :
    cmpVersBytes as bs st d = cmpVersLen st d as bs := by
  have e : cmpVersMain st as bs = (st, 0, as, bs) := by
    cases as with
    | nil => cases bs <;> rfl
    | cons a as =>
      cases bs with
      | nil => rfl
      | cons b bs => simp [cmpVersMain, hm]
  simp [cmpVersBytes, e, hm]

theorem cmpVersBytes_nil : cmpVersBytes [] [] st d = (st, d) := by
  simp [cmpVersBytes, cmpVersMain, cmpVersLen]

theorem cmpVersLen_cons (as bs : List UInt8) :
    cmpVersLen st d (a :: as) (b :: bs) = if isAsciiDigit a ∧ isAsciiDigit b
      then cmpVersLen st d as bs else cmpVersLen st d [a] [b] := by
  by_cases hd : isAsciiDigit a ∧ isAsciiDigit b
  · rw [cmpVersLen, if_pos hd, if_pos hd]
  · rw [cmpVersLen, if_neg hd, if_neg hd, cmpVersLen, if_neg hd]

theorem VersState.differ_main (hm : st.main = true) (a b : UInt8) :
    (st.differ a b).main = false := by
  cases st with
  | norm | numb | frac =>
    unfold VersState.differ
    dsimp only
    split_ifs <;> rfl
  | lenPos | lenNeg | done => cases hm

theorem cmpVersBytes_cons_self (hm : st.main = true) (as bs : List UInt8) :
    cmpVersBytes (a :: as) (a :: bs) st d = cmpVersBytes as bs (st.next a) d := by
  simp [cmpVersBytes, cmpVersMain, hm]

theorem cmpVersLen_step (hm : st.main = false) (hst : st ≠ .done) (as bs : List UInt8) :
    cmpVersLen st d (a :: as) (b :: bs) = match cmpVersLen st d [a] [b] with
      | (.done, d) => (.done, d)
      | (st, d) => cmpVersBytes as bs st d := by
  rw [cmpVersLen_cons]
  by_cases hd : isAsciiDigit a ∧ isAsciiDigit b
  · have e : cmpVersLen st d [a] [b] = (st, d) := by
      rw [cmpVersLen, if_pos hd, cmpVersLen]
      simp
    rw [if_pos hd, e, ← cmpVersBytes_len hm]
    cases st with
    | done => exact absurd rfl hst
    | norm | numb | frac | lenPos | lenNeg => rfl
  · obtain ⟨d', e⟩ : ∃ d', cmpVersLen st d [a] [b] = (.done, d') := by
      rw [cmpVersLen, if_neg hd]
      exact ⟨_, rfl⟩
    rw [if_neg hd, e]

/-- The state machine may stop behind every byte. -/
theorem cmpVersBytes_cons (hst : st ≠ .done) (as bs : List UInt8) :
    cmpVersBytes (a :: as) (b :: bs) st d = match cmpVersBytes [a] [b] st d with
      | (.done, d) => (.done, d)
      | (st, d) => cmpVersBytes as bs st d := by
  cases hm : st.main with
  | false =>
    rw [cmpVersBytes_len hm, cmpVersBytes_len hm]
    exact cmpVersLen_step hm hst as bs
  | true =>
    by_cases hab : a = b
    · subst hab
      have hn := VersState.main_next hm a
      rw [cmpVersBytes_cons_self hm, cmpVersBytes_self hm]
      cases he : st.next a with
      | done =>
        rw [he] at hn
        cases hn
      | norm | numb | frac | lenPos | lenNeg => rfl
    · rw [cmpVersBytes_of_ne hm hab, cmpVersBytes_of_ne hm hab]
      by_cases hd : st.differ a b = .done
      · rw [if_pos hd, if_pos hd]
      · rw [if_neg hd, if_neg hd]
        exact cmpVersLen_step (VersState.differ_main hm a b) hd as bs

theorem versFlat_cons (st : VersState) (d : Int) (a b : UInt8) (xs ys : List (Option UInt8)) :
    versFlat st d (some a :: xs) (some b :: ys) = match cmpVersBytes [a] [b] st d with
      | (.done, d) => d
      | (st, d) => versFlat st d xs ys := by
  rw [versFlat]

/-- A stretch of known bytes. -/
theorem versFlat_append (hst : st ≠ .done) (hl : as.length = bs.length) :
    versFlat st d (as.map some ++ xs) (bs.map some ++ ys) = match cmpVersBytes as bs st d with
      | (.done, d) => d
      | (st, d) => versFlat st d xs ys := by
  induction as generalizing bs st d with
  | nil =>
    obtain rfl : bs = [] := List.length_eq_zero_iff.1 hl.symm
    rw [cmpVersBytes_nil]
    cases st with
    | done => exact absurd rfl hst
    | norm | numb | frac | lenPos | lenNeg => rfl
  | cons a as ih =>
    obtain ⟨b, bs, rfl⟩ := List.exists_cons_of_length_eq_add_one hl.symm
    rw [List.map_cons, List.map_cons, List.cons_append, List.cons_append, versFlat_cons,
      cmpVersBytes_cons hst as bs]
    rcases cmpVersBytes [a] [b] st d with ⟨st', d'⟩
    cases st' with
    | done => rfl
    | norm | numb | frac | lenPos | lenNeg => exact ih (by simp) (by simpa using hl)

/-- A stretch of unknown bytes. -/
theorem versFlat_replicate (n : Nat) :
    versFlat st d (List.replicate n none ++ xs) (List.replicate n none ++ ys) =
      versFlat st d xs ys := by
  induction n with
  | zero => rfl
  | succ n ih =>
    rw [List.replicate_succ, List.cons_append, List.cons_append, versFlat]
    exact ih

/-- Known bytes at unknown ones. -/
theorem versFlat_none_some {n : Nat} (hn : 0 < n) (hb : bs.length = n) :
    versFlat st d (List.replicate n none ++ xs) (bs.map some ++ ys) = scan2Longer st := by
  obtain ⟨k, rfl⟩ : ∃ k, n = k + 1 := ⟨n - 1, by omega⟩
  obtain ⟨b, bs, rfl⟩ := List.exists_cons_of_length_eq_add_one hb
  rfl

theorem versFlat_some_none {n : Nat} (hn : 0 < n) (hb : bs.length = n) :
    versFlat st d (bs.map some ++ xs) (List.replicate n none ++ ys) = scan1Longer st := by
  obtain ⟨k, rfl⟩ : ∃ k, n = k + 1 := ⟨n - 1, by omega⟩
  obtain ⟨b, bs, rfl⟩ := List.exists_cons_of_length_eq_add_one hb
  rfl

/-! ## The loops -/

/-- The loop of `vstr_cmp_vers`. -/
theorem cmpVersLoop_eq {fuel : Nat} (hf : its₁.length + its₂.length ≤ fuel) (h₁ : its₁ ≠ [])
    (h₂ : its₂ ≠ []) (hst : st ≠ .done) (w₁ : Walk h its₁ xs) (w₂ : Walk h its₂ ys) :
    cmpVersLoop h fuel st d its₁ its₂ = versFlat st d xs ys := by
  induction fuel generalizing its₁ its₂ xs ys st d with
  | zero =>
    have := List.length_pos_iff.2 h₁
    omega
  | succ fuel ih =>
    obtain ⟨it₁, its₁, rfl⟩ := List.exists_cons_of_ne_nil h₁
    obtain ⟨it₂, its₂, rfl⟩ := List.exists_cons_of_ne_nil h₂
    rw [cmpVersLoop]
    generalize ht : min it₁.len it₂.len = tmp
    have hp₁ := w₁.pos
    have hp₂ := w₂.pos
    have hl₁ := w₁.length_eq
    have hl₂ := w₂.length_eq
    have ht₁ : tmp ≤ it₁.len := by omega
    have ht₂ : tmp ≤ it₂.len := by omega
    rw [← List.take_append_drop tmp xs, ← List.take_append_drop tmp ys, w₁.take ht₁, w₂.take ht₂]
    rcases it₁.ptr h with - | p₁ <;> rcases it₂.ptr h with - | p₂
    · dsimp only
      rw [versFlat_replicate]
      exact next_eq (f := versFlat st d) ht hf w₁ w₂ rfl (fun _ _ => rfl) (fun _ _ => rfl)
        fun _ _ _ _ hf h₁ h₂ w₁ w₂ => ih hf h₁ h₂ hst w₁ w₂
    · exact (versFlat_none_some (by omega) (length_read _ _ _)).symm
    · exact (versFlat_some_none (by omega) (length_read _ _ _)).symm
    · dsimp only
      rw [versFlat_append hst (by rw [length_read, length_read])]
      rcases cmpVersBytes (read h.mem p₁ tmp) (read h.mem p₂ tmp) st d with ⟨st', d'⟩
      cases st' with
      | done => rfl
      | norm | numb | frac | lenPos | lenNeg =>
        exact next_eq (f := versFlat _ d') ht hf w₁ w₂ rfl (fun _ _ => rfl) (fun _ _ => rfl)
          fun _ _ _ _ hf h₁ h₂ w₁ w₂ => ih hf h₁ h₂ (by simp) w₁ w₂

/-- The loop of `vstr_cmp_vers_buf`. -/
theorem versBufLoop_eq {buf : Buf} (hb : 0 < buf.len) (hst : st ≠ .done) (hw : Walk h its xs) :
    versBufLoop h st d buf its = versFlat st d xs buf.contents := by
  induction its generalizing buf xs st d with
  | nil =>
    cases hw
    obtain ⟨c, cs, e⟩ := List.exists_cons_of_ne_nil
      (Buf.contents_ne_nil (Nat.ne_of_gt hb))
    rw [e]
    rfl
  | cons it its ih =>
    unfold versBufLoop
    dsimp only
    generalize hh : min it.len buf.len = here
    have hp := hw.pos
    have hl := hw.length_eq
    have hnext : ∀ (st : VersState) (d : Int), st ≠ .done →
        (if buf.len ≤ here then
          (if it.len > buf.len ∨ it.remaining ≠ 0 then scan1Longer st else d)
        else versBufLoop h st d (buf.drop here) its) =
        versFlat st d (xs.drop here) (buf.contents.drop here) := by
      intro st d hst
      have hd := hw.drop (show here ≤ it.len by omega)
      by_cases hle : buf.len ≤ here
      · have hnil : buf.contents.drop here = [] :=
          List.drop_eq_nil_of_le (by rw [Buf.length_contents]; omega)
        rw [if_pos hle, hnil]
        have hlen : (xs.drop here).length = it.len - here + it.remaining := by
          rw [List.length_drop]
          omega
        cases hx : xs.drop here with
        | nil =>
          rw [hx, List.length_nil] at hlen
          rw [if_neg (by omega)]
          rfl
        | cons x xs' =>
          rw [hx, List.length_cons] at hlen
          rw [if_pos (by omega)]
          rfl
      · rw [if_neg hle, ih (by rw [Buf.len_drop]; omega) hst
          (by rwa [iterDrop_all (show it.len ≤ here by omega)] at hd), Buf.contents_drop]
    rw [← List.take_append_drop here xs, ← List.take_append_drop here buf.contents,
      hw.take (show here ≤ it.len by omega)]
    have hk : here ≤ buf.len := by omega
    cases buf with
    | bytes bs =>
      have hlt : (bs.take here).length = here := by
        rw [List.length_take]
        exact Nat.min_eq_left hk
      have htake : (Buf.bytes bs).contents.take here = (bs.take here).map some :=
        List.map_take.symm
      rw [htake]
      cases it.ptr h with
      | none =>
        exact (versFlat_none_some (by omega) hlt).symm
      | some p =>
        dsimp only
        rw [versFlat_append hst (by rw [length_read, hlt])]
        rcases cmpVersBytes (read h.mem p here) (bs.take here) st d with ⟨st', d'⟩
        cases st' with
        | done => rfl
        | norm | numb | frac | lenPos | lenNeg => exact hnext _ d' (by simp)
    | null len =>
      have htake : (Buf.null len).contents.take here = List.replicate here none := by
        change (List.replicate len none).take here = _
        rw [List.take_replicate, Nat.min_eq_left (show here ≤ len from hk)]
      rw [htake]
      cases it.ptr h with
      | none =>
        dsimp only
        rw [versFlat_replicate]
        exact hnext st d hst
      | some p => exact (versFlat_some_none (by omega) (length_read _ _ _)).symm

/-! ## The comparisons -/

section

variable {n : Nat} {E E₁ E₂ : Env} {P P₁ P₂ : Own} {w : World n} {i j : Fin n}
    {p p₁ p₂ l l₁ l₂ : Nat}

theorem versFlat_nil_of_ne (hy : ys ≠ []) : versFlat .norm 0 [] ys = -1 := by
  obtain ⟨y, ys, rfl⟩ := List.exists_cons_of_ne_nil hy
  rfl

theorem versFlat_of_ne_nil (hx : xs ≠ []) : versFlat .norm 0 xs [] = 1 := by
  obtain ⟨x, xs, rfl⟩ := List.exists_cons_of_ne_nil hx
  rfl

/-- `vstr_cmp_vers`. -/
theorem cmpVers_yields (w₁ : Window E₁ P₁ (w.st i) p₁ l₁ xs)
    (w₂ : Window E₂ P₂ (w.st j) p₂ l₂ ys) :
    Yields ReadsAll (cmpVers i p₁ l₁ j p₂ l₂) w (versFlat .norm 0 xs ys) := by
  refine cmpDoubleIter_yields w₁ w₂ ?_ ?_ ?_ fun h its₁ its₂ h₁ h₂ hw₁ hw₂ => ?_
  · rintro rfl rfl
    rfl
  · rintro rfl hy
    exact versFlat_nil_of_ne hy
  · rintro hx rfl
    exact versFlat_of_ne_nil hx
  · exact cmpVersLoop_eq (Nat.le_refl _) h₁ h₂ (by simp) hw₁ hw₂

/-- `vstr_cmp_vers_buf`. -/
theorem cmpVersBuf_yields {s : St} (ww : Window E P s p l xs) (buf : Buf) :
    Yields Reads (cmpVersBuf p l buf) s (versFlat .norm 0 xs buf.contents) := by
  refine cmpIter_yields ww ?_ ?_ ?_ fun h its hb _ hw => versBufLoop_eq hb (by simp) hw
  · rintro rfl hb
    rw [Buf.contents_nil hb]
    rfl
  · rintro rfl hb
    exact versFlat_nil_of_ne (Buf.contents_ne_nil hb)
  · rintro hx hb
    rw [Buf.contents_nil hb]
    exact versFlat_of_ne_nil hx

end

end Vstr
