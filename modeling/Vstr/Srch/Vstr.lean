import Vstr.Srch.Case

/-!
# Searching for a string

`vstr_srch_vstr_fwd`, `vstr_srch_case_vstr_fwd` and their reverse forms never look at the last
position of the slice, where a needle of one byte may be. All other places are found, and
where none is left out the answers are those of the searches for a buffer.
-/

namespace Vstr

open Memory Splice Query Lex Occur

variable {n : Nat} {E E₁ E₂ : Env} {P P₁ P₂ : Own} {w : World n} {i j : Fin n}
  {pos len p₁ p₂ l₁ l₂ : Nat} {xs ys zs : List (Option UInt8)} {fold : UInt8 → UInt8}

/-- The needle is one byte, and the slice ends with it. -/
def OneAtEnd (ys xs : List (Option UInt8)) : Prop := ys.length = 1 ∧ ys <:+ xs

/-- The needle is one byte that is at the end of the slice and nowhere before. -/
def OnlyAtEnd (ys xs : List (Option UInt8)) : Prop :=
  ys.length = 1 ∧ ys <:+ xs ∧ ∀ i, i + 1 < xs.length → ¬ ys <+: xs.drop i

/-- What one string answers moves its position cache only. -/
theorem World.ensures_ask {α : Type} {m : StateM St α} {Q : α → Prop}
    (h : Ensures Reads m (w.st i) Q) : Ensures ReadsAll (World.ask i m) w Q :=
  ⟨h.1, readsAll_put h.2⟩

/-- The loop of `vstr_srch_vstr_fwd` and `vstr_srch_case_vstr_fwd`. -/
theorem srchVstrLoop_ensures {cmp : Nat → StateM (World n) Ordering}
    {find : Option (Nat → Nat → StateM (World n) Nat)} (hp : 0 < pos) (hne : ys ≠ [])
    (hl : zs.length = len)
    (hcmp : ∀ k t, ReadsAll w t → k + ys.length ≤ len →
      Ensures ReadsAll (cmp (pos + k)) t fun o => o = .eq ↔ ys <+: zs.drop k)
    (hfind : ∀ search, find = some search → ∃ as, as ≠ [] ∧ as <+: ys ∧
      ∀ k t, ReadsAll w t → k ≤ len →
        Ensures ReadsAll (search (pos + k) (len - k)) t (First as (zs.drop k) (pos + k))) :
    Ensures ReadsAll (srchVstrLoop cmp find (pos + len - 1) ys.length (len + 1) pos len) w
      (First ys (cut ys zs) pos) := by
  have hys := List.length_pos_iff.2 hne
  have hrun : ∀ fuel k t, ReadsAll w t → len < fuel + k → k ≤ len →
      (∀ j < k, ¬ ys <+: zs.drop j) →
      Ensures ReadsAll (srchVstrLoop cmp find (pos + len - 1) ys.length fuel (pos + k) (len - k)) t
        (First ys (cut ys zs) pos) := by
    intro fuel
    induction fuel with
    | zero =>
      intro k t _ hf hk _
      omega
    | succ fuel ih =>
      intro k t hr hf hk hbefore
      rw [srchVstrLoop.eq_def]
      dsimp only
      by_cases hc : pos + k < pos + len - 1 ∧ len - k ≥ ys.length
      · rw [if_pos hc]
        refine (hcmp k t hr (by omega)).bind fun o t' hr' ho => ?_
        have hr'' : ReadsAll w t' := IsTrans.trans _ _ _ hr hr'
        by_cases heq : o = .eq
        · rw [if_pos heq]
          refine .pure t' (.inr ⟨k, rfl, ?_, fun j hj => ?_⟩)
          · exact (prefix_cut_iff hne).2 ⟨ho.1 heq, fun _ => by omega⟩
          · by_contra hlt
            exact hbefore j (by omega) ((prefix_cut_iff hne).1 hj).1
        rw [if_neg heq]
        have hnext : ∀ j < k + 1, ¬ ys <+: zs.drop j := by
          intro j hj
          rcases Nat.lt_succ_iff_lt_or_eq.1 hj with hlt | rfl
          · exact hbefore j hlt
          · exact fun h => heq (ho.2 h)
        cases hfd : find with
        | none =>
          dsimp only
          rw [← hfd]
          have := ih (k + 1) t' hr'' (by omega) (by omega) hnext
          rwa [← Nat.add_assoc, ← Nat.sub_sub] at this
        | some search =>
          obtain ⟨as, has, hpre, hsearch⟩ := hfind search hfd
          dsimp only
          rw [← hfd, Nat.add_assoc, Nat.sub_sub]
          refine (hsearch (k + 1) t' hr'' (by omega)).bind fun tmp u hu hfirst => ?_
          by_cases h0 : tmp = 0
          · subst h0
            rw [if_pos rfl]
            refine .pure u (.inl ⟨rfl, fun j hj => ?_⟩)
            have hj := ((prefix_cut_iff hne).1 hj).1
            rcases Nat.lt_or_ge j (k + 1) with hlt | hge
            · exact hnext j hlt hj
            · have hno := hfirst.nowhere (by omega) (j - (k + 1))
              rw [List.drop_drop, Nat.add_sub_cancel' hge] at hno
              exact hno (hpre.trans hj)
          · rw [if_neg h0]
            obtain ⟨rfl, -⟩ | ⟨d, rfl, hd, hle⟩ := hfirst
            · exact absurd rfl h0
            rw [Set.mem_ofPred_eq, List.drop_drop] at hd
            have hin := le_of_prefixed hd has
            have hap := List.length_pos_iff.2 has
            have hgo := ih (k + 1 + d) u (IsTrans.trans _ _ _ hr'' hu) (by omega) (by omega)
              fun m hm hmp => by
                rcases Nat.lt_or_ge m (k + 1) with hlt | hge
                · exact hnext m hlt hmp
                · have := @hle (m - (k + 1)) (by
                    rw [Set.mem_ofPred_eq, List.drop_drop, Nat.add_sub_cancel' hge]
                    exact hpre.trans hmp)
                  omega
            rwa [show pos + (k + 1) + d = pos + (k + 1 + d) by omega,
              show len - (k + 1) - (pos + (k + 1 + d) - (pos + (k + 1))) = len - (k + 1 + d) by
                omega]
      · rw [if_neg hc]
        refine .pure t (.inl ⟨rfl, fun m hm => ?_⟩)
        obtain ⟨hm, hlt⟩ := (prefix_cut_iff hne).1 hm
        have hin := le_of_prefixed hm hne
        rcases Nat.lt_or_ge m k with h | h
        · exact hbefore m h hm
        · have := hlt
          omega
  exact hrun (len + 1) 0 w (Std.Refl.refl w) (by omega)
    (Nat.zero_le _) fun j hj => absurd hj (by omega)

/-- `vstr_srch_vstr_fwd` and `vstr_srch_case_vstr_fwd`. -/
theorem srchVstrWith_ensures {cmp : Fin n → Nat → Nat → Fin n → Nat → Nat →
    StateM (World n) Ordering}
    {find : Nat → Nat → Buf → StateM St Nat}
    (hcmp : ∀ {w : World n} {p₁ l₁ p₂ l₂ : Nat} {xs ys : List (Option UInt8)},
      Window E₁ P₁ (w.st i) p₁ l₁ xs → Window E₂ P₂ (w.st j) p₂ l₂ ys →
      Yields ReadsAll (cmp i p₁ l₁ j p₂ l₂) w (compare (folded fold xs) (folded fold ys)))
    (hfind : ∀ {s : St} {pos len : Nat} {xs : List (Option UInt8)} {buf : Buf},
      Window E₁ P₁ s pos len xs → buf.len ≠ 0 →
      Ensures Reads (find pos len buf) s (First (folded fold buf.contents) (folded fold xs) pos))
    (w₁ : Window E₁ P₁ (w.st i) p₁ l₁ xs) (w₂ : Window E₂ P₂ (w.st j) p₂ l₂ ys) (hne : ys ≠ []) :
    Ensures ReadsAll (srchVstrWith cmp find i p₁ l₁ j p₂ l₂) w
      (First (folded fold ys) (cut (folded fold ys) (folded fold xs)) p₁) := by
  have hx := w₁.length
  have hy := w₂.length
  have hys := List.length_pos_iff.2 hne
  change First _ _ _ (srchVstrWith cmp find i p₁ l₁ j p₂ l₂ w).1 ∧
    ReadsAll w (srchVstrWith cmp find i p₁ l₁ j p₂ l₂ w).2
  rw [srchVstrWith]
  by_cases hlong : l₂ > l₁
  · rw [if_pos hlong]
    have hle := length_cut_le (folded fold ys) (folded fold xs)
    refine ⟨.short (folded_ne_nil hne) ?_, Std.Refl.refl w⟩
    rw [length_folded] at hle ⊢
    omega
  rw [if_neg hlong]
  obtain ⟨it, t, e, hr, -, hw⟩ := w₂.walk (by omega)
  rw [World.on_of_eq e]
  dsimp only
  have hra := readsAll_put hr
  have hheap : (w.put j t).heap = w.heap := (hra i).heap
  rw [hheap, ← hy, ← length_folded fold ys]
  have hloop := @srchVstrLoop_ensures n (w.put j t) p₁ l₁ (folded fold ys) (folded fold xs)
    (fun scanPos => cmp i scanPos (folded fold ys).length j p₂ (folded fold ys).length)
    ((it.ptr w.heap).map fun p scanPos scanLen =>
      World.ask i (find scanPos scanLen (.bytes (read w.heap.mem p it.len))))
    w₁.one_le (folded_ne_nil hne) ((length_folded _ _).trans hx) ?_ ?_
  · obtain ⟨hq, hr'⟩ := hloop
    exact ⟨hq, IsTrans.trans _ _ _ hra hr'⟩
  · intro k u hu hk
    rw [length_folded] at hk ⊢
    have hu' : ReadsAll w u := IsTrans.trans _ _ _ hra hu
    have v₁ := ((w₁.reads (hu' i)).drop (k := k) (by omega)).take (k := ys.length) (by omega)
    have hc := hcmp v₁ (w₂.reads (hu' j))
    rw [← hy] at hc
    refine hc.ensures ?_
    rw [compare_take_eq_iff, folded_drop]
  · intro search hs
    obtain ⟨p, hp, rfl⟩ := Option.map_eq_some_iff.1 hs
    obtain ⟨its, hits⟩ := iterAll_eq_cons t.base t.base.nodes.length it
    rw [hits] at hw
    have htake := hw.take (Nat.le_refl it.len)
    rw [show it.ptr (w.st j).heap = some p from hp] at htake
    have hpos := hw.pos
    refine ⟨folded fold ((read w.heap.mem p it.len).map some), ?_, ?_, fun k u hu hk => ?_⟩
    · refine folded_ne_nil (List.ne_nil_of_length_pos ?_)
      rwa [List.length_map, length_read]
    · rw [show (read w.heap.mem p it.len).map some = ys.take it.len from htake.symm, folded_take]
      exact List.take_prefix _ _
    · rw [← folded_drop]
      have hu' : ReadsAll w u := IsTrans.trans _ _ _ hra hu
      refine World.ensures_ask (hfind ((w₁.reads (hu' i)).drop hk) ?_)
      change (read w.heap.mem p it.len).length ≠ 0
      rw [length_read]
      omega

/-- `vstr_srch_vstr_fwd`. -/
theorem Window.vstrFirst (w₁ : Window E₁ P₁ (w.st i) p₁ l₁ xs) (w₂ : Window E₂ P₂ (w.st j) p₂ l₂ ys)
    (hne : ys ≠ []) :
    Ensures ReadsAll (srchVstrFwd i p₁ l₁ j p₂ l₂) w (First ys (cut ys xs) p₁) := by
  have h := srchVstrWith_ensures
    (fun v₁ v₂ => by
      rw [folded_id, folded_id]
      exact cmp_yields v₁ v₂)
    (fun v hb => by
      rw [folded_id, folded_id]
      exact v.bufFirst hb) w₁ w₂ hne
  rwa [folded_id, folded_id] at h

/-- `vstr_srch_case_vstr_fwd`. -/
theorem Window.caseVstrFirst (w₁ : Window E₁ P₁ (w.st i) p₁ l₁ xs)
    (w₂ : Window E₂ P₂ (w.st j) p₂ l₂ ys) (hne : ys ≠ []) :
    Ensures ReadsAll (srchCaseVstrFwd i p₁ l₁ j p₂ l₂) w
      (First (folded toAsciiLower ys) (cut (folded toAsciiLower ys) (folded toAsciiLower xs)) p₁) :=
  srchVstrWith_ensures cmpCase_yields (fun v hb => v.caseBufFirst hb) w₁ w₂ hne

/-- The reverse searches for a string. -/
theorem srchVstrRev_ensures {fwd : Nat → Nat → StateM (World n) Nat} {more : Nat → Nat → Bool}
    (w₁ : Window E₁ P₁ (w.st i) p₁ l₁ xs) (hne : ys ≠ [])
    (hfwd : ∀ k t, ReadsAll w t → k ≤ l₁ → Ensures ReadsAll (fwd (p₁ + k) (l₁ - k)) t
      (First (folded fold ys) (cut (folded fold ys) (folded fold (xs.drop k))) (p₁ + k)))
    (hmore : ∀ k ≤ l₁, more (p₁ + k) (l₁ - k) = false → l₁ ≤ k + 1 ∨ l₁ < k + ys.length) :
    Ensures ReadsAll (srchRevLoop fwd more p₁ l₁ (l₁ + 1) 0 p₁ l₁) w
      (Last (folded fold ys) (cut (folded fold ys) (folded fold xs)) p₁) := by
  have hx := w₁.length
  have hle := length_cut_le (folded fold ys) (folded fold xs)
  rw [length_folded] at hle
  refine srchRevLoop_last w₁.one_le (folded_ne_nil hne) (by omega) (fun k t hr hk _ => ?_)
    fun k hk hm m hp => ?_
  · rw [cut_drop, ← folded_drop]
    exact hfwd k t hr hk
  · rw [List.drop_drop] at hp
    obtain ⟨hp, hlt⟩ := (prefix_cut_iff (folded_ne_nil hne)).1 hp
    have hin := le_of_prefixed hp (folded_ne_nil hne)
    have hys := List.length_pos_iff.2 hne
    rw [length_folded, length_folded] at hlt hin
    have hk' := hmore k hk hm
    omega

/-- `vstr_srch_vstr_rev`. -/
theorem Window.vstrRev (w₁ : Window E₁ P₁ (w.st i) p₁ l₁ xs) (w₂ : Window E₂ P₂ (w.st j) p₂ l₂ ys)
    (hne : ys ≠ []) :
    Ensures ReadsAll (srchVstrRev i p₁ l₁ j p₂ l₂) w (Last ys (cut ys xs) p₁) := by
  have hy := w₂.length
  have h := @srchVstrRev_ensures n _ _ w i p₁ l₁ xs ys id (srchVstrFwd i · · j p₂ l₂)
    (fun _ scanLen => scanLen ≥ l₂) w₁ hne (fun k t hr hk => by
      rw [folded_id, folded_id]
      exact ((w₁.reads (hr i)).drop hk).vstrFirst (w₂.reads (hr j)) hne) fun k hk hm => by
      simp only [ge_iff_le, decide_eq_false_iff_not, not_le] at hm
      omega
  rwa [folded_id, folded_id] at h

/-- `vstr_srch_case_vstr_rev`. -/
theorem Window.caseVstrRev (w₁ : Window E₁ P₁ (w.st i) p₁ l₁ xs)
    (w₂ : Window E₂ P₂ (w.st j) p₂ l₂ ys) (hne : ys ≠ []) :
    Ensures ReadsAll (srchCaseVstrRev i p₁ l₁ j p₂ l₂) w
      (Last (folded toAsciiLower ys)
        (cut (folded toAsciiLower ys) (folded toAsciiLower xs)) p₁) := by
  have hy := w₂.length
  refine srchVstrRev_ensures w₁ hne (fun k t hr hk => ?_) fun k hk hm => ?_
  · exact ((w₁.reads (hr i)).drop hk).caseVstrFirst (w₂.reads (hr j)) hne
  · simp only [decide_eq_false_iff_not] at hm
    omega

/-! ## Which places are found -/

/-- A search that leaves out the last position agrees with one that does not, when it is
right. -/
theorem first_cut_iff (hp : 0 < pos) (hne : ys ≠ []) {r r' : Nat} (h : First ys (cut ys xs) pos r)
    (h' : First ys xs pos r') :
    (First ys xs pos r ↔ ¬ OnlyAtEnd ys xs) ∧ (r = r' ↔ ¬ OnlyAtEnd ys xs) := by
  have hi := first_iff_of_cut hp hne h
  refine ⟨hi, fun e => hi.1 (e ▸ h'), fun hn => (hi.2 hn).unique h'⟩

theorem last_cut_iff (hp : 0 < pos) (hne : ys ≠ []) {r r' : Nat} (h : Last ys (cut ys xs) pos r)
    (h' : Last ys xs pos r') :
    (Last ys xs pos r ↔ ¬ OneAtEnd ys xs) ∧ (r = r' ↔ ¬ OneAtEnd ys xs) := by
  have hi := last_iff_of_cut hp hne h
  refine ⟨hi, fun e => hi.1 (e ▸ h'), fun hn => (hi.2 hn).unique h'⟩

end Vstr
