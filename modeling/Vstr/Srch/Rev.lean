import Vstr.Lib.Occur
import Vstr.Srch.Walk

/-!
# Searching for a byte

The first and the last place of a byte in a slice. A search from the end that searches
forward again and again ends with the last place.
-/

namespace Vstr

open Memory Splice Query Occur

variable {E : Env} {P : Own} {s : St} {h : Heap} {pos len : Nat} {xs : List (Option UInt8)}
  {its : List Iter} {scs : List Scan} {c : UInt8}

/-- A search from the end that searches forward, behind the first `k` places: `ret` is the
last place among them, found from a place where `more` said so. -/
def RevState {α : Type} (ys xs : List α) (more : Nat → Nat → Bool) (pos len ret k : Nat) : Prop :=
  ret = 0 ∧ k = 0 ∨ ∃ i k₀, ret = pos + i ∧ k = i + 1 ∧ ys <+: xs.drop i ∧ k₀ ≤ i ∧
    more (pos + k₀) (len - k₀) = true ∧ ∀ j, k₀ ≤ j → j < i → ¬ ys <+: xs.drop j

/-- How a search from the end that searches forward ends. -/
theorem srchRevLoop_exit {σ α : Type} {R : σ → σ → Prop} [IsPreorder σ R] {s : σ} {ys xs : List α}
    {fwd : Nat → Nat → StateM σ Nat} {more : Nat → Nat → Bool} (hp : 0 < pos) (hne : ys ≠ [])
    (hl : xs.length ≤ len)
    (hfwd : ∀ k t, R s t → k ≤ len → more (pos + k) (len - k) = true →
      Ensures R (fwd (pos + k) (len - k)) t (First ys (xs.drop k) (pos + k))) :
    Ensures R (srchRevLoop fwd more pos len (len + 1) 0 pos len) s fun r => ∃ k ≤ len,
      RevState ys xs more pos len r k ∧
      (more (pos + k) (len - k) = true → ∀ i, ¬ ys <+: (xs.drop k).drop i) := by
  have hrun : ∀ fuel ret k t, R s t → len < fuel + k → k ≤ len →
      RevState ys xs more pos len ret k →
      Ensures R (srchRevLoop fwd more pos len fuel ret (pos + k) (len - k)) t fun r => ∃ k ≤ len,
        RevState ys xs more pos len r k ∧
        (more (pos + k) (len - k) = true → ∀ i, ¬ ys <+: (xs.drop k).drop i) := by
    intro fuel
    induction fuel with
    | zero =>
      intro ret k t _ hf hk _
      omega
    | succ fuel ih =>
      intro ret k t hr hf hk hret
      rw [srchRevLoop]
      cases hm : more (pos + k) (len - k) with
      | false =>
        rw [if_neg (by simp)]
        refine .pure t ⟨k, hk, hret, fun h => ?_⟩
        rw [hm] at h
        cases h
      | true =>
        rw [if_pos rfl]
        refine (hfwd k t hr hk hm).bind fun tmp t' hr' hfirst => ?_
        by_cases h0 : tmp = 0
        · subst h0
          rw [if_pos rfl]
          exact .pure t' ⟨k, hk, hret, fun _ => hfirst.nowhere (by omega)⟩
        · rw [if_neg h0]
          obtain ⟨rfl, -⟩ | ⟨j, rfl, hj, hle⟩ := hfirst
          · exact absurd rfl h0
          rw [Set.mem_ofPred_eq, List.drop_drop] at hj
          have hin := le_of_prefixed hj hne
          have hpos := List.length_pos_iff.2 hne
          have hd : len - scPosdiff pos (pos + k + j) = len - (k + j + 1) := by
            unfold scPosdiff
            omega
          rw [hd, show pos + k + j + 1 = pos + (k + j + 1) by omega]
          refine ih (pos + k + j) (k + j + 1) t' (IsTrans.trans _ _ _ hr hr') (by omega) (by omega)
            (.inr ⟨k + j, k, by omega, rfl, hj, by omega, hm, fun j' hj' hlt hp => ?_⟩)
          have := @hle (j' - k) (by
            rwa [Set.mem_ofPred_eq, List.drop_drop, Nat.add_sub_cancel' hj'])
          omega
  exact hrun (len + 1) 0 0 s (Std.Refl.refl s) (by omega) (Nat.zero_le _) (.inl ⟨rfl, rfl⟩)

/-- The last place is found when nothing is left behind it. -/
theorem RevState.last {α : Type} {ys xs : List α} {more : Nat → Nat → Bool} {r k : Nat}
    (h : RevState ys xs more pos len r k) (hn : ∀ i, ¬ ys <+: (xs.drop k).drop i) :
    Last ys xs pos r := by
  rcases h with ⟨rfl, rfl⟩ | ⟨i, -, rfl, rfl, hi, -⟩
  · exact .of_nowhere hn
  · refine .of_place hi fun j hj => hn j ?_
    rwa [List.drop_drop]

/-- The searches from the end that search forward. -/
theorem srchRevLoop_last {σ α : Type} {R : σ → σ → Prop} [IsPreorder σ R] {s : σ} {ys xs : List α}
    {fwd : Nat → Nat → StateM σ Nat} {more : Nat → Nat → Bool} (hp : 0 < pos) (hne : ys ≠ [])
    (hl : xs.length ≤ len)
    (hfwd : ∀ k t, R s t → k ≤ len → more (pos + k) (len - k) = true →
      Ensures R (fwd (pos + k) (len - k)) t (First ys (xs.drop k) (pos + k)))
    (hmore : ∀ k, k ≤ len → more (pos + k) (len - k) = false →
      ∀ i, ¬ ys <+: (xs.drop k).drop i) :
    Ensures R (srchRevLoop fwd more pos len (len + 1) 0 pos len) s (Last ys xs pos) := by
  refine (srchRevLoop_exit hp hne hl hfwd).mono fun r h => ?_
  obtain ⟨k, hk, hst, hn⟩ := h
  refine hst.last ?_
  cases hm : more (pos + k) (len - k) with
  | false => exact hmore k hk hm
  | true => exact hn hm

/-- The first byte that is `c`. -/
theorem first_srchOf (c : UInt8) (pos : Nat) (xs : List (Option UInt8)) :
    First [some c] xs pos (srchOf c pos xs) := by
  induction xs generalizing pos with
  | nil => exact .short (by simp) (by simp)
  | cons x xs ih =>
    by_cases hx : x = some c
    · subst hx
      rw [srchOf_cons]
      exact .here (by simp)
    · have e : srchOf c pos ([x] ++ xs) = srchOf c (pos + 1) xs :=
        srchOf_append c pos (by simpa using fun e => hx e.symm) xs
      rw [List.singleton_append] at e
      rw [e]
      exact (ih (pos + 1)).tail (by simpa [List.cons_prefix_cons] using fun e => hx e.symm)

/-- `vstr_srch_chr_fwd`. -/
theorem Window.chrFirst (w : Window E P s pos len xs) (c : UInt8) :
    Ensures Reads (srchChrFwd pos len c) s (First [some c] xs pos) :=
  (w.srch c).ensures (first_srchOf c pos xs)

/-- `vstr__srch_chr_rev_slow`. -/
theorem Window.chrRevSlow (w : Window E P s pos len xs) (c : UInt8) :
    Ensures Reads (srchChrRevSlow pos len c) s (Last [some c] xs pos) := by
  refine srchRevLoop_last w.one_le (by simp) (Nat.le_of_eq w.length) (fun k t hr hk _ => ?_)
    fun k hk hm i hi => ?_
  · exact ((w.reads hr).drop hk).chrFirst c
  · have hin := le_of_prefixed hi (by simp)
    have hl := w.length
    rw [List.length_drop, List.length_singleton] at hin
    simp at hm
    omega

/-- What `memrchr` finds. -/
theorem memrchr_cases (bs : List UInt8) (c : UInt8) :
    (memrchr bs c = none ∧ c ∉ bs) ∨
      ∃ as cs, bs = as ++ c :: cs ∧ c ∉ cs ∧ memrchr bs c = some as.length := by
  induction bs using List.reverseRecOn with
  | nil => exact .inl ⟨rfl, List.not_mem_nil⟩
  | append_singleton bs x ih =>
    unfold memrchr at ih ⊢
    rw [List.reverse_concat, List.findIdx?_cons]
    by_cases hx : x = c
    · subst hx
      exact .inr ⟨bs, [], rfl, List.not_mem_nil, by simp⟩
    · rw [if_neg (by simpa using hx), Option.map_map]
      rcases ih with ⟨hn, hc⟩ | ⟨as, cs, rfl, hc, hs⟩
      · rw [Option.map_eq_none_iff] at hn
        exact .inl ⟨by rw [hn]; rfl, by simpa [hc] using fun e => hx e.symm⟩
      · refine .inr ⟨as, cs ++ [x], by simp, by simpa [hc] using fun e => hx e.symm, ?_⟩
        rw [← hs]
        congr 1
        funext i
        simp only [Function.comp_apply, List.length_append, List.length_cons,
          List.length_nil]
        omega

/-- The loop of `vstr__srch_chr_rev_fast`. -/
theorem srchChrRevFastLoop_last (w : ScanWalk h scs xs) :
    Last [some c] xs pos (srchChrRevFastLoop h pos c scs) := by
  induction w with
  | nil => exact last_of_not_mem List.not_mem_nil
  | @non sc scs xs str hpos rest walk ih =>
    rw [srchChrRevFastLoop, str]
    exact last_append ih (by simp)
  | @data sc scs xs p str hpos rest walk ih =>
    rw [srchChrRevFastLoop, str]
    dsimp only
    rcases memrchr_cases (read h.mem p sc.scanLen) c with ⟨hn, hc⟩ | ⟨as, cs, e, hc, hs⟩
    · rw [hn]
      exact last_append ih (by simpa using hc)
    · rw [hs, e, List.map_append, List.map_cons, ← List.append_assoc]
      dsimp only
      rw [show pos + sc.len + as.length = pos + (xs ++ as.map some).length by
        rw [List.length_append, List.length_map, rest, Nat.add_assoc]]
      exact last_of_split (by simpa using hc)

/-- `vstr__srch_chr_rev_fast`. -/
theorem Window.chrRevFast (w : Window E P s pos len xs) (pk : PosOk True s.base)
    (iv : IovecOk s) (hup : s.base.iovecUptoDate = true) (c : UInt8) :
    Ensures Reads (srchChrRevFast pos len c) s (Last [some c] xs pos) := by
  rcases w.scanWalk_cases pk iv hup with ⟨rfl, e⟩ | ⟨sc, t, e, hr, hw⟩
  · have e' : (srchChrRevFast pos len c).run s = (0, s) := by
      change srchChrRevFast pos len c s = _
      rw [srchChrRevFast, e]
    rw [Ensures, e']
    exact ⟨last_of_not_mem List.not_mem_nil, Std.Refl.refl s⟩
  · have e' : (srchChrRevFast pos len c).run s =
        (srchChrRevFastLoop t.heap pos c (scanRevAll t.base sc.num sc), t) := by
      change srchChrRevFast pos len c s = _
      rw [srchChrRevFast, e]
    rw [Ensures, e', hr.heap]
    exact ⟨srchChrRevFastLoop_last hw, hr⟩

/-- `vstr_srch_chr_rev`. -/
theorem Window.chrRev (w : Window E P s pos len xs) (pk : PosOk True s.base) (iv : IovecOk s)
    (c : UInt8) : Ensures Reads (srchChrRev pos len c) s (Last [some c] xs pos) := by
  have e : (srchChrRev pos len c).run s =
      if s.base.iovecUptoDate then (srchChrRevFast pos len c).run s
      else (srchChrRevSlow pos len c).run s := rfl
  rw [Ensures, e]
  by_cases hup : s.base.iovecUptoDate = true
  · rw [if_pos hup]
    exact w.chrRevFast pk iv hup c
  · rw [if_neg hup]
    exact w.chrRevSlow c

end Vstr
