import Vstr.Parse.Ip

/-!
# The text of an address

What the formatters of IPv6 addresses write: where the compact form puts its null field,
and the fields before and behind it.
-/

namespace Vstr

variable {ips bs cs : List Nat} {k : Nat}

/-! ## The null field of the compact form -/

/-- The longest run of zero groups is the one at the end, and no other is as long. -/
def EndsLongest (ips : List Nat) : Prop :=
  ∃ bs k, ips = bs ++ List.replicate (k + 1) 0 ∧ ¬ List.replicate (k + 1) 0 <:+: bs

/-- The variables of the search, after the groups of `base` and `r.retCur` zeros. -/
structure RunFound (base : List Nat) (r : Ipv6Compact) : Prop where
  /-- The zeros that are counted begin behind another group. -/
  last : base.getLast? ≠ some 0
  /-- Without a run nothing was found. -/
  none : r.retMax = 0 → r.atend = 0 ∧ r.pos = 9 ∧ 0 ∉ base
  /-- The run that was found. -/
  found : r.retMax ≠ 0 → ∃ bs cs, base = bs ++ List.replicate r.retMax 0 ++ cs ∧
    r.pos = bs.length ∧ cs ≠ [] ∧ cs.head? ≠ some 0
  /-- No run is longer. -/
  longest : ¬ List.replicate (r.retMax + 1) 0 <:+: base

/-- A longer run has all shorter ones in it. -/
theorem replicate_infix_of_le {n m : Nat} {xs : List Nat} (h : m ≤ n)
    (hx : List.replicate n 0 <:+: xs) : List.replicate m 0 <:+: xs := by
  refine List.IsInfix.trans ?_ hx
  rw [show n = m + (n - m) by omega, List.replicate_add]
  exact (List.prefix_append _ _).isInfix

/-- A run is before the zeros at the end, or in them. -/
theorem replicate_infix_zeros {n m : Nat} {base : List Nat} (hb : base.getLast? ≠ some 0)
    (h : List.replicate (n + 1) 0 <:+: base ++ List.replicate m 0) :
    List.replicate (n + 1) 0 <:+: base ∨ n + 1 ≤ m := by
  induction m with
  | zero =>
    rw [List.replicate_zero, List.append_nil] at h
    exact .inl h
  | succ m ih =>
    by_cases hle : n + 1 ≤ m + 1
    · exact .inr hle
    · have hz : base ++ List.replicate (m + 1) 0 = base ++ List.replicate m 0 ++ [0] := by
        rw [List.replicate_succ', List.append_assoc]
      rw [hz, List.infix_concat_iff, ← hz] at h
      rcases h with h | h
      · obtain ⟨pre, e⟩ := h
        rw [show n + 1 = n - m + (m + 1) by omega, List.replicate_add, ← List.append_assoc] at e
        have e := List.append_cancel_right e
        refine absurd ?_ hb
        rw [← e, show n - m = n - m - 1 + 1 by omega, List.replicate_succ']
        simp
      · exact (ih h).imp_right fun h => by omega

/-- A run inside a list that ends with another group. -/
theorem replicate_infix_append {n m x : Nat} {base : List Nat} (hx : x ≠ 0)
    (hb : base.getLast? ≠ some 0)
    (h : List.replicate (n + 1) 0 <:+: base ++ List.replicate m 0 ++ [x]) :
    List.replicate (n + 1) 0 <:+: base ∨ n + 1 ≤ m := by
  rw [List.infix_concat_iff] at h
  rcases h with ⟨pre, e⟩ | h
  · rw [List.replicate_succ', ← List.append_assoc] at e
    exact absurd (List.singleton_inj.mp (List.append_inj_right' e rfl)).symm hx
  · exact replicate_infix_zeros hb h

/-- A group that is not zero ends a run. -/
theorem RunFound.group {base : List Nat} {r : Ipv6Compact} {x : Nat} (h : RunFound base r)
    (hx : x ≠ 0) (hcur : r.retCur ≤ r.retMax) :
    RunFound (base ++ List.replicate r.retCur 0 ++ [x]) { r with retCur := 0 } where
  last := by simpa using hx
  none h0 := by
    dsimp only at h0 ⊢
    obtain ⟨h1, h2, h3⟩ := h.none h0
    refine ⟨h1, h2, ?_⟩
    rw [show r.retCur = 0 by omega]
    simpa [h3] using Ne.symm hx
  found h0 := by
    obtain ⟨bs, cs, e, hpos, hne, hhead⟩ := h.found h0
    refine ⟨bs, cs ++ List.replicate r.retCur 0 ++ [x], ?_, hpos, by simp, ?_⟩
    · conv_lhs => rw [e]
      simp only [List.append_assoc]
    · obtain ⟨c, cs, rfl⟩ := List.exists_cons_of_ne_nil hne
      exact hhead
  longest hrun := by
    rcases replicate_infix_append hx h.last hrun with h' | h'
    · exact h.longest h'
    · dsimp only at h'
      omega

/-- A run that is taken for the null field. -/
theorem RunFound.run {base : List Nat} {r : Ipv6Compact} {x : Nat} (h : RunFound base r)
    (hx : x ≠ 0) (hcur : r.retMax ≤ r.retCur) (h0 : r.retCur ≠ 0) (atend : Nat) :
    RunFound (base ++ List.replicate r.retCur 0 ++ [x]) ⟨r.retCur, 0, atend, base.length⟩ where
  last := by simpa using hx
  none h := absurd h h0
  found _ := ⟨base, [x], rfl, rfl, by simp, by simpa using hx⟩
  longest hrun := by
    rcases replicate_infix_append hx h.last hrun with h' | h'
    · exact h.longest (replicate_infix_of_le (by dsimp only; omega) h')
    · dsimp only at h'
      omega

/-- What is kept by the steps of the search is kept by all of it. -/
theorem RunFound.loop_keeps {P : List Nat → Ipv6Compact → Prop}
    (hzero : ∀ base r, P base r → P base { r with retCur := r.retCur + 1 })
    (hgroup : ∀ base r x, RunFound base r → x ≠ 0 → r.retCur ≤ r.retMax →
      ¬ (r.retCur = r.retMax ∧ base ≠ [] ∧ r.atend ≠ 0) → P base r →
      P (base ++ List.replicate r.retCur 0 ++ [x]) { r with retCur := 0 })
    (hrun : ∀ base r x, RunFound base r → x ≠ 0 → r.retMax ≤ r.retCur → r.retCur ≠ 0 → P base r →
      P (base ++ List.replicate r.retCur 0 ++ [x])
        ⟨r.retCur, 0, if base = [] then 1 else 0, base.length⟩)
    {base xs : List Nat} {r : Ipv6Compact} (h : RunFound base r) (hp : P base r) :
    ∃ base', base ++ List.replicate r.retCur 0 ++ xs = base' ++
        List.replicate (numIpv6CompactLoop (base.length + r.retCur) xs r).retCur 0 ∧
      RunFound base' (numIpv6CompactLoop (base.length + r.retCur) xs r) ∧
      P base' (numIpv6CompactLoop (base.length + r.retCur) xs r) := by
  induction xs generalizing base r with
  | nil => exact ⟨base, by rw [numIpv6CompactLoop, List.append_nil], h, hp⟩
  | cons x xs ih =>
    rw [numIpv6CompactLoop]
    by_cases hx : x = 0
    · subst hx
      rw [if_pos rfl]
      obtain ⟨base', e, h'⟩ := ih (r := { r with retCur := r.retCur + 1 })
        ⟨h.last, h.none, h.found, h.longest⟩ (hzero base r hp)
      refine ⟨base', Eq.trans ?_ e, h'⟩
      rw [List.replicate_succ']
      simp
    · rw [if_neg hx]
      have hscan : (base ++ List.replicate r.retCur 0 ++ [x]).length + 0 =
          base.length + r.retCur + 1 := by
        simp only [List.length_append, List.length_replicate, List.length_singleton, Nat.add_zero]
      have hnil : r.retCur = base.length + r.retCur ↔ base = [] := by
        rw [← List.length_eq_zero_iff]
        omega
      split
      · rename_i hc
        have h0 : r.retCur ≠ 0 := by
          rcases hc with hc | ⟨he, -, ha⟩
          · omega
          · intro h0
            exact ha (h.none (by omega)).1
        have h1 := h.run hx (by omega) h0 (if base = [] then 1 else 0)
        obtain ⟨base', e, h'⟩ := ih h1 (hrun base r x h hx (by omega) h0 hp)
        rw [hscan] at e h'
        rw [show base.length + r.retCur - r.retCur = base.length by omega]
        simp only [hnil]
        refine ⟨base', Eq.trans ?_ e, h'⟩
        simp
      · rename_i hc
        have hno : ¬ (r.retCur = r.retMax ∧ base ≠ [] ∧ r.atend ≠ 0) := fun ⟨h1, h2, h3⟩ =>
          hc (.inr ⟨h1, fun h => h2 (hnil.mp h), h3⟩)
        obtain ⟨base', e, h'⟩ := ih (h.group hx (by omega))
          (hgroup base r x h hx (by omega) hno hp)
        rw [hscan] at e h'
        refine ⟨base', Eq.trans ?_ e, h'⟩
        simp

/-- Before the search. -/
theorem runFound_nil : RunFound [] ⟨0, 0, 0, 9⟩ := by
  refine ⟨by simp, fun _ => ⟨rfl, rfl, by simp⟩, fun h => absurd rfl h, ?_⟩
  rintro ⟨pre, post, e⟩
  simp at e

/-- A null field that was found is not shorter than the zeros at the end. -/
theorem RunFound.not_endsLongest {base : List Nat} {r : Ipv6Compact} (h : RunFound base r)
    (hc : r.retCur ≤ r.retMax) (hm : r.retMax ≠ 0) :
    ¬ EndsLongest (base ++ List.replicate r.retCur 0) := by
  obtain ⟨bs, cs, eb, -, -, -⟩ := h.found hm
  rintro ⟨as, k, ea, hno⟩
  have hk : k + 1 ≤ r.retCur := by
    by_contra hk
    rw [show k + 1 = k - r.retCur + 1 + r.retCur by omega, List.replicate_add,
      ← List.append_assoc] at ea
    refine h.last ?_
    rw [List.append_cancel_right ea, List.replicate_succ']
    simp
  have ha : as = base ++ List.replicate (r.retCur - (k + 1)) 0 := by
    rw [show r.retCur = r.retCur - (k + 1) + (k + 1) by omega, List.replicate_add,
      ← List.append_assoc] at ea
    exact (List.append_cancel_right ea).symm
  refine absurd (replicate_infix_of_le (show k + 1 ≤ r.retMax by omega) ?_) hno
  refine ⟨bs, cs ++ List.replicate (r.retCur - (k + 1)) 0, ?_⟩
  rw [ha, eb, List.append_assoc, List.append_assoc, List.append_assoc]

/-- Where the null field is. -/
theorem numIpv6Compact_pos (ips : List Nat) :
    (0 ∉ ips ∧ (numIpv6Compact ips).2 = 9) ∨ ∃ bs k cs,
      ips = bs ++ List.replicate (k + 1) 0 ++ cs ∧ (numIpv6Compact ips).2 = bs.length ∧
        cs.head? ≠ some 0 ∧ (cs = [] → ¬ List.replicate (k + 1) 0 <:+: bs) ∧
        (EndsLongest ips → cs = []) := by
  obtain ⟨base, e, h, -⟩ : ∃ base, [] ++ List.replicate 0 0 ++ ips = base ++ List.replicate
      (numIpv6CompactLoop 0 ips ⟨0, 0, 0, 9⟩).retCur 0 ∧
      RunFound base (numIpv6CompactLoop 0 ips ⟨0, 0, 0, 9⟩) ∧ True :=
    runFound_nil.loop_keeps (P := fun _ _ => True) (fun _ _ _ => trivial)
      (fun _ _ _ _ _ _ _ _ => trivial) (fun _ _ _ _ _ _ _ _ => trivial) trivial
  rw [List.replicate_zero, List.append_nil, List.nil_append] at e
  generalize hr : numIpv6CompactLoop 0 ips ⟨0, 0, 0, 9⟩ = r at e h
  have hlen : ips.length = base.length + r.retCur := by
    rw [e, List.length_append, List.length_replicate]
  have hpos : (numIpv6Compact ips).2 = if r.retCur > r.retMax then ips.length - r.retCur
      else r.pos := by
    unfold numIpv6Compact
    rw [hr]
    dsimp only
    split <;> rfl
  by_cases hc : r.retCur > r.retMax
  · refine .inr ⟨base, r.retCur - 1, [], ?_, ?_, by simp, ?_⟩
    · rw [List.append_nil, show r.retCur - 1 + 1 = r.retCur by omega]
      exact e
    · rw [hpos, if_pos hc]
      omega
    · exact ⟨fun _ hrun => h.longest (replicate_infix_of_le (by omega) hrun), fun _ => rfl⟩
  · rw [hpos, if_neg hc]
    by_cases hm : r.retMax = 0
    · obtain ⟨-, h9, hno⟩ := h.none hm
      refine .inl ⟨?_, h9⟩
      rw [e, show r.retCur = 0 by omega, List.replicate_zero, List.append_nil]
      exact hno
    · obtain ⟨bs, cs, eb, hbs, hne, hhead⟩ := h.found hm
      refine .inr ⟨bs, r.retMax - 1, cs ++ List.replicate r.retCur 0, ?_, hbs, ?_, ?_⟩
      · rw [show r.retMax - 1 + 1 = r.retMax by omega, ← List.append_assoc, ← eb]
        exact e
      · obtain ⟨c, cs, rfl⟩ := List.exists_cons_of_ne_nil hne
        exact hhead
      · exact ⟨fun h' => absurd (List.append_eq_nil_iff.mp h').1 hne, fun hends =>
          absurd (e ▸ hends) (h.not_endsLongest (by omega) hm)⟩

/-! ## What is printed -/

/-- Fields with a separator before each, or between them. -/
def opened (done : Bool) (gs : List (List UInt8)) : List UInt8 :=
  if done then gs.flatMap (0x3A :: ·) else joinGroups 0x3A gs

theorem opened_cons (done : Bool) (g : List UInt8) (gs : List (List UInt8)) :
    opened done (g :: gs) = (if done then [0x3A] else []) ++ g ++ opened true gs := by
  unfold opened
  cases done with
  | true => simp
  | false =>
    rw [if_neg (by decide), if_neg (by decide), if_pos rfl, List.nil_append]
    induction gs generalizing g with
    | nil => simp [joinGroups]
    | cons g' gs ih =>
      rw [List.flatMap_cons, ← List.append_assoc]
      have := ih g'
      simp only [joinGroups] at this ⊢
      rw [List.intercalate_cons_cons, this]
      simp

/-- Groups before the null field. -/
theorem prntLoop_groups {fuel scan pos : Nat} {done : Bool} {xs ys : List Nat}
    (hpos : pos < scan ∨ scan + xs.length ≤ pos) :
    prntIpv6CompactLoop pos (fuel + xs.length) scan done (xs ++ ys) =
      (opened done (xs.map (numText 16)) ++
        (prntIpv6CompactLoop pos fuel (scan + xs.length) (done || !xs.isEmpty) ys).1,
        (prntIpv6CompactLoop pos fuel (scan + xs.length) (done || !xs.isEmpty) ys).2) := by
  induction xs generalizing scan done with
  | nil =>
    cases done <;> simp [opened, joinGroups]
  | cons x xs ih =>
    rw [List.length_cons] at hpos ⊢
    rw [← Nat.add_assoc, List.cons_append, prntIpv6CompactLoop, if_neg (by omega),
      ih (by omega), List.map_cons, opened_cons]
    simp [Nat.add_assoc, Nat.add_comm 1]

/-- The separator before an IPv4 address. -/
def closing (ips cs : List Nat) : List UInt8 := if ips.length ≠ 8 ∧ cs ≠ [] then [0x3A] else []

theorem prntLoop_nil (pos fuel scan : Nat) (done : Bool) :
    prntIpv6CompactLoop pos fuel scan done [] = ([], done) := by
  cases fuel <;> rfl

/-- The compact form without a null field. -/
theorem prntIpv6Compact_groups (h8 : ips.length ≤ 8) :
    prntIpv6Compact ips 9 = joinGroups 0x3A (ips.map (numText 16)) ++ closing ips ips := by
  have hloop : prntIpv6CompactLoop 9 (ips.length + 1) 0 false ips =
      (joinGroups 0x3A (ips.map (numText 16)), !ips.isEmpty) := by
    have h : prntIpv6CompactLoop 9 (1 + ips.length) 0 false (ips ++ []) = _ :=
      prntLoop_groups (.inr (by omega))
    rw [List.append_nil, prntLoop_nil, Nat.add_comm 1, List.append_nil] at h
    simpa [opened] using h
  unfold prntIpv6Compact closing
  rw [hloop]
  cases ips with
  | nil => simp [joinGroups]
  | cons x xs =>
    dsimp only
    split
    · rw [if_pos (by simp_all)]
    · rw [if_neg (by simp_all), List.append_nil]

theorem zeroRun_eq (h : cs.head? ≠ some 0) :
    zeroRun (List.replicate k 0 ++ cs) = k := by
  have hcs : cs.takeWhile (· = 0) = [] := by
    cases cs with
    | nil => rfl
    | cons c cs =>
      have hc : c ≠ 0 := by simpa using h
      simp [hc]
  rw [zeroRun, List.takeWhile_append_of_pos (by simp), hcs]
  simp

/-- The compact form with a null field. -/
theorem prntIpv6Compact_null (bs : List Nat) (k : Nat) (h : cs.head? ≠ some 0) :
    prntIpv6Compact (bs ++ List.replicate (k + 1) 0 ++ cs) bs.length =
      joinGroups 0x3A (bs.map (numText 16)) ++ [0x3A, 0x3A] ++
        joinGroups 0x3A (cs.map (numText 16)) ++
          closing (bs ++ List.replicate (k + 1) 0 ++ cs) cs := by
  have hlen : (bs ++ List.replicate (k + 1) 0 ++ cs).length + 1 =
      k + 1 + cs.length + 1 + bs.length := by
    simp only [List.length_append, List.length_replicate]
    omega
  have hnull : ∀ done, prntIpv6CompactLoop bs.length (k + 1 + cs.length + 1) bs.length done
      (List.replicate (k + 1) 0 ++ cs) =
      ([0x3A, 0x3A] ++ joinGroups 0x3A (cs.map (numText 16)), !cs.isEmpty) := by
    intro done
    have hz := zeroRun_eq (k := k + 1) h
    have hdrop : (List.replicate (k + 1) 0 ++ cs).drop (k + 1) = cs :=
      List.drop_left' (by simp)
    have hrest : prntIpv6CompactLoop bs.length (k + 1 + cs.length) (bs.length + (k + 1)) false
        (cs ++ []) = _ := prntLoop_groups (.inl (by omega))
    rw [List.append_nil, prntLoop_nil, List.append_nil] at hrest
    rw [List.replicate_succ, List.cons_append] at hz hdrop ⊢
    rw [prntIpv6CompactLoop, if_pos rfl]
    dsimp only
    rw [hz, hdrop, hrest]
    simp [opened]
  have hloop : prntIpv6CompactLoop bs.length
      ((bs ++ List.replicate (k + 1) 0 ++ cs).length + 1) 0 false
      (bs ++ List.replicate (k + 1) 0 ++ cs) =
      (joinGroups 0x3A (bs.map (numText 16)) ++ [0x3A, 0x3A] ++
        joinGroups 0x3A (cs.map (numText 16)), !cs.isEmpty) := by
    rw [hlen, List.append_assoc, prntLoop_groups (.inr (by omega)), Nat.zero_add, hnull]
    simp [opened]
  unfold prntIpv6Compact closing
  rw [hloop]
  cases cs with
  | nil => simp
  | cons c cs =>
    dsimp only
    split
    · rw [if_pos (by simp_all)]
    · rw [if_neg (by simp_all), List.append_nil]

end Vstr
