import Vstr.Model.IpField
import Vstr.Parse.IpAgree

/-!
# The field of an address

The length that is computed for an IPv6 address against the length of its text. The compact
forms save characters by a formula that counts whether the null field is at an end; it goes
wrong when the search has passed a null field at the beginning, and when the groups end
before an IPv4 address.
-/

namespace Vstr

open Splice

variable {ips bs cs base : List Nat} {k : Nat} {r : Ipv6Compact} {cidr : Option Nat}

/-! ## The length of numbers -/

theorem fmtNum10LenLoop_eq {fuel num : Nat} (h : num ≤ fuel) (ret : Nat) :
    fmtNum10LenLoop fuel num ret = ret + (Nat.digits 10 num).length := by
  induction fuel generalizing num ret with
  | zero =>
    obtain rfl : num = 0 := by omega
    rfl
  | succ fuel ih =>
    rw [fmtNum10LenLoop]
    by_cases h0 : num > 0
    · rw [if_pos h0, ih (by omega), Nat.digits_def' (by decide) h0, List.length_cons]
      omega
    · obtain rfl : num = 0 := by omega
      rfl

/-- `vstr__sc_fmt_num10_len` is the length of the number. -/
theorem fmtNum10Len_eq (num : Nat) : fmtNum10Len num = (numText 10 num).length := by
  unfold fmtNum10Len numText
  rw [fmtNum10LenLoop_eq (Nat.le_refl num), Nat.zero_add]
  by_cases h : num = 0
  · subst h
    rfl
  · have hd : Nat.digits 10 num ≠ [] := Nat.digits_ne_nil_iff_ne_zero.mpr h
    simp [h, hd]

/-- Four bits of a number. -/
theorem and_mask_eq_zero (num k : Nat) : num &&& (15 * 2 ^ k) = 0 ↔ num / 2 ^ k % 16 = 0 := by
  have hd : (num &&& (15 * 2 ^ k)) / 2 ^ k = num / 2 ^ k % 16 := by
    rw [Nat.and_div_two_pow, Nat.mul_div_cancel _ (Nat.two_pow_pos k)]
    exact Nat.and_two_pow_sub_one_eq_mod _ 4
  have hm : (num &&& (15 * 2 ^ k)) % 2 ^ k = 0 := by
    rw [Nat.and_mod_two_pow, Nat.mul_mod_left, Nat.and_zero]
  constructor
  · intro h
    rw [h, Nat.zero_div] at hd
    exact hd.symm
  · intro h
    have := Nat.div_add_mod (num &&& (15 * 2 ^ k)) (2 ^ k)
    rw [hd, hm, h] at this
    omega

/-- The number of hexadecimal digits of a group. -/
theorem length_digits_sixteen {num : Nat} (h0 : num ≠ 0) (h : num < 65536) :
    (Nat.digits 16 num).length =
      if 4096 ≤ num then 4 else if 256 ≤ num then 3 else if 16 ≤ num then 2 else 1 := by
  have key : ∀ n, (Nat.digits 16 num).length = n + 1 ↔ 16 ^ n ≤ num ∧ num < 16 ^ (n + 1) := by
    intro n
    rw [Nat.length_digits 16 num (by decide) h0, Nat.add_right_cancel_iff, Nat.log_eq_iff]
    exact .inr ⟨by decide, h0⟩
  split
  · exact (key 3).mpr (by omega)
  · split
    · exact (key 2).mpr (by omega)
    · split
      · exact (key 1).mpr (by omega)
      · exact (key 0).mpr (by omega)

/-- `vstr__sc_fmt_num16_len` is the length of a group. -/
theorem fmtNum16Len_eq {num : Nat} (h : num < 65536) :
    fmtNum16Len num = (numText 16 num).length := by
  by_cases h0 : num = 0
  · subst h0
    decide
  · have h3 := and_mask_eq_zero num 12
    have h2 := and_mask_eq_zero num 8
    have h1 := and_mask_eq_zero num 4
    norm_num at h1 h2 h3
    unfold fmtNum16Len numText
    rw [if_neg h0, List.length_map, List.length_reverse, length_digits_sixteen h0 h]
    simp only [ne_eq, h1, h2, h3]
    split_ifs <;> omega

/-! ## What the search counts -/

/-- A run of `n` zeros at the beginning is longer than all runs behind it. -/
def LeadsBy (n : Nat) (bs : List Nat) : Prop :=
  n ≠ 0 ∧ ∃ m, bs = List.replicate n 0 ++ m ∧ m.head? ≠ some 0 ∧ ¬ List.replicate n 0 <:+: m

/-- The run at the beginning is the longest one, and no other is as long. -/
def LeadsLongest (bs : List Nat) : Prop := ∃ n, LeadsBy n bs

/-- What the search knows about the run at the beginning. -/
structure LeadFound (base : List Nat) (r : Ipv6Compact) : Prop where
  /-- One end at most is counted. -/
  le : r.atend ≤ 1
  /-- The beginning is counted for a null field there. -/
  lead : r.atend ≠ 0 → r.pos = 0 ∧ LeadsBy r.retMax base
  /-- Without it the null field is elsewhere. -/
  other : r.atend = 0 → ¬ LeadsLongest base ∧ (r.retMax ≠ 0 → r.pos ≠ 0)

theorem not_leadsLongest_nil : ¬ LeadsLongest [] := by
  rintro ⟨n, hn, m, e, -, -⟩
  have h0 := congrArg List.length (List.append_eq_nil_iff.mp e.symm).1
  rw [List.length_replicate] at h0
  exact hn h0

/-- The run at the beginning ends where the list does not end with a zero. -/
theorem LeadsBy.of_append {n : Nat} {ys : List Nat} (hb : base.getLast? ≠ some 0)
    (hne : base ≠ []) (h : LeadsBy n (base ++ ys)) : LeadsBy n base := by
  obtain ⟨hn, m, e, hhead, hno⟩ := h
  rcases List.append_eq_append_iff.mp e with ⟨as, ha, -⟩ | ⟨m', hm, rfl⟩
  · have hlast : base.getLast? = some 0 := by
      have hz : ∀ x ∈ base, x = 0 := fun x hx =>
        List.eq_of_mem_replicate (ha ▸ List.mem_append_left as hx)
      rw [List.getLast?_eq_some_getLast hne, hz _ (List.getLast_mem hne)]
    exact absurd hlast hb
  · refine ⟨hn, m', hm, ?_, fun h => hno (h.trans (List.prefix_append _ _).isInfix)⟩
    intro h0
    obtain ⟨t, rfl⟩ : ∃ t, m' = 0 :: t := by
      cases m' with
      | nil => simp at h0
      | cons x t => exact ⟨t, by simpa using h0⟩
    exact hhead rfl

/-- A group that is not zero leaves what is known about the beginning. -/
theorem LeadFound.group {x : Nat} (h : LeadFound base r) (hr : RunFound base r) (hx : x ≠ 0)
    (hcur : r.retCur ≤ r.retMax) (hc : ¬ (r.retCur = r.retMax ∧ base ≠ [] ∧ r.atend ≠ 0)) :
    LeadFound (base ++ List.replicate r.retCur 0 ++ [x]) { r with retCur := 0 } := by
  refine ⟨h.le, fun ha => ?_, fun ha => ?_⟩
  · obtain ⟨hpos, hn, m, e, hhead, hno⟩ := h.lead ha
    have hm : m ≠ [] := by
      rintro rfl
      refine hr.last ?_
      rw [e, List.append_nil, show r.retMax = r.retMax - 1 + 1 by omega, List.replicate_succ']
      simp
    have hbase : base ≠ [] := by
      rw [e]
      simp [hm]
    have hlt : r.retCur < r.retMax := by
      by_contra hge
      exact hc ⟨by omega, hbase, ha⟩
    have hlast : m.getLast? ≠ some 0 := by
      have := hr.last
      rwa [e, List.getLast?_append_of_ne_nil _ hm] at this
    refine ⟨hpos, hn, m ++ List.replicate r.retCur 0 ++ [x], ?_, ?_, fun hrun => ?_⟩
    · conv_lhs => rw [e]
      simp only [List.append_assoc]
    · obtain ⟨c, m, rfl⟩ := List.exists_cons_of_ne_nil hm
      exact hhead
    · dsimp only at hrun
      rw [show r.retMax = r.retMax - 1 + 1 by omega] at hrun hno
      rcases replicate_infix_append hx hlast hrun with h' | h'
      · exact hno h'
      · omega
  · refine ⟨?_, (h.other ha).2⟩
    by_cases hbase : base = []
    · have hmax : r.retMax = 0 := by
        by_contra hmax
        obtain ⟨bs, cs, e, -, hcs, -⟩ := hr.found hmax
        rw [hbase] at e
        exact hcs (List.append_eq_nil_iff.mp e.symm).2
      rw [hbase, show r.retCur = 0 by omega]
      rintro ⟨n, hn, m, e, -, -⟩
      rw [show n = n - 1 + 1 by omega, List.replicate_succ] at e
      exact hx (List.cons_eq_cons.mp e).1
    · rintro ⟨n, hl⟩
      rw [List.append_assoc] at hl
      exact (h.other ha).1 ⟨n, hl.of_append hr.last hbase⟩

/-- A run that is taken for the null field. -/
theorem LeadFound.run {x : Nat} (hr : RunFound base r) (hx : x ≠ 0)
    (hcur : r.retMax ≤ r.retCur) (h0 : r.retCur ≠ 0) :
    LeadFound (base ++ List.replicate r.retCur 0 ++ [x])
      ⟨r.retCur, 0, if base = [] then 1 else 0, base.length⟩ := by
  by_cases hbase : base = []
  · subst hbase
    refine ⟨by simp, fun _ => ⟨rfl, h0, [x], rfl, by simpa using hx, ?_⟩, fun h => by simp at h⟩
    rintro ⟨pre, post, e⟩
    have hmem : 0 ∈ [x] := by
      rw [← e, show r.retCur = r.retCur - 1 + 1 by omega, List.replicate_succ]
      simp
    exact hx (List.mem_singleton.mp hmem).symm
  · refine ⟨by simp [hbase], fun h => by simp [hbase] at h, fun _ => ⟨?_, fun _ => by simpa⟩⟩
    rintro ⟨n, hl⟩
    rw [List.append_assoc] at hl
    obtain ⟨hn, m, e, -, -⟩ := hl.of_append hr.last hbase
    obtain ⟨-, m', e', -, hno⟩ := hl
    have hm' : m' = m ++ (List.replicate r.retCur 0 ++ [x]) := by
      rw [e, List.append_assoc] at e'
      exact (List.append_cancel_left e').symm
    have hle : n ≤ r.retMax := by
      by_contra hlt
      refine hr.longest (replicate_infix_of_le (n := n) (by omega) ?_)
      rw [e]
      exact (List.prefix_append _ _).isInfix
    refine hno (replicate_infix_of_le (n := r.retCur) (by omega) ?_)
    exact ⟨m, [x], by rw [hm', List.append_assoc]⟩

/-- What the search of the compact form counts: two characters for each group but the first,
one more, and one less for each end that it takes the null field to be at. -/
theorem numIpv6Compact_count (ips : List Nat) :
    (0 ∉ ips ∧ numIpv6Compact ips = (0, 9)) ∨ ∃ bs k cs,
      ips = bs ++ List.replicate (k + 1) 0 ++ cs ∧ cs.head? ≠ some 0 ∧
      (numIpv6Compact ips).2 = bs.length ∧
      ((cs ≠ [] ∧ ¬ EndsLongest ips ∧
          (numIpv6Compact ips).1 = 1 + 2 * k - (if bs = [] then 1 else 0)) ∨
        (cs = [] ∧ bs.getLast? ≠ some 0 ∧ ¬ List.replicate (k + 1) 0 <:+: bs ∧
          ((bs = [] ∧ (numIpv6Compact ips).1 = 1 + 2 * k - 2) ∨
            (bs ≠ [] ∧ LeadsLongest bs ∧ (numIpv6Compact ips).1 = 1 + 2 * k - 2) ∨
            (bs ≠ [] ∧ ¬ LeadsLongest bs ∧ (numIpv6Compact ips).1 = 1 + 2 * k - 1)))) := by
  have hnil : LeadFound [] ⟨0, 0, 0, 9⟩ :=
    ⟨by simp, fun h => absurd rfl h, fun _ => ⟨not_leadsLongest_nil, fun h => absurd rfl h⟩⟩
  obtain ⟨base, e, h, hl⟩ : ∃ base, [] ++ List.replicate 0 0 ++ ips = base ++ List.replicate
      (numIpv6CompactLoop 0 ips ⟨0, 0, 0, 9⟩).retCur 0 ∧
      RunFound base (numIpv6CompactLoop 0 ips ⟨0, 0, 0, 9⟩) ∧
      LeadFound base (numIpv6CompactLoop 0 ips ⟨0, 0, 0, 9⟩) :=
    runFound_nil.loop_keeps (fun _ _ h => ⟨h.le, h.lead, h.other⟩)
      (fun _ _ _ hr hx hcur hc h => h.group hr hx hcur hc)
      (fun _ _ _ hr hx hcur h0 _ => LeadFound.run hr hx hcur h0) hnil
  rw [List.replicate_zero, List.append_nil, List.nil_append] at e
  unfold numIpv6Compact
  generalize numIpv6CompactLoop 0 ips ⟨0, 0, 0, 9⟩ = r at e h hl
  have hlen : ips.length = base.length + r.retCur := by
    rw [e, List.length_append, List.length_replicate]
  have hbase : r.retCur = ips.length ↔ base = [] := by
    rw [← List.length_eq_zero_iff]
    omega
  have hle := hl.le
  by_cases hc : r.retCur > r.retMax
  · refine .inr ⟨base, r.retCur - 1, [], ?_, by simp, ?_, .inr ⟨rfl, h.last, ?_, ?_⟩⟩
    · rw [List.append_nil, show r.retCur - 1 + 1 = r.retCur by omega]
      exact e
    · simp only [if_pos hc]
      omega
    · exact fun hrun => h.longest (replicate_infix_of_le (by omega) hrun)
    · simp only [if_pos hc, hbase, show r.retCur ≠ 0 by omega, if_false]
      by_cases hb : base = []
      · left
        rw [if_pos hb]
        exact ⟨hb, by omega⟩
      · right
        rw [if_neg hb]
        by_cases ha : r.atend = 0
        · exact .inr ⟨hb, (hl.other ha).1, by omega⟩
        · exact .inl ⟨hb, ⟨_, (hl.lead ha).2⟩, by omega⟩
  · simp only [if_neg hc]
    by_cases hm : r.retMax = 0
    · obtain ⟨-, h9, hno⟩ := h.none hm
      refine .inl ⟨?_, by rw [if_pos hm, h9]⟩
      rw [e, show r.retCur = 0 by omega, List.replicate_zero, List.append_nil]
      exact hno
    · obtain ⟨bs, cs, eb, hbs, hne, hhead⟩ := h.found hm
      refine .inr ⟨bs, r.retMax - 1, cs ++ List.replicate r.retCur 0, ?_, ?_, hbs,
        .inl ⟨by simp [hne], e ▸ h.not_endsLongest (by omega) hm, ?_⟩⟩
      · rw [show r.retMax - 1 + 1 = r.retMax by omega, ← List.append_assoc, ← eb]
        exact e
      · obtain ⟨c, cs, rfl⟩ := List.exists_cons_of_ne_nil hne
        exact hhead
      · have hne0 : base ≠ [] := by
          rw [eb]
          simp [hne]
        rw [if_neg hm, if_neg fun h => hne0 (hbase.mp h)]
        have hiff : bs = [] ↔ r.atend ≠ 0 := by
          rw [← List.length_eq_zero_iff, ← hbs]
          exact ⟨fun h0 ha => (hl.other ha).2 hm h0, fun ha => (hl.lead ha).1⟩
        split
        · rename_i hb
          have := hiff.mp hb
          omega
        · rename_i hb
          have : r.atend = 0 := by
            by_contra ha
            exact hb (hiff.mpr ha)
          omega

/-! ## The length of the text -/

theorem length_joinGroups (sep : UInt8) (gs : List (List UInt8)) :
    (joinGroups sep gs).length = (gs.map List.length).sum + (gs.length - 1) := by
  unfold joinGroups
  induction gs with
  | nil => rfl
  | cons g gs ih =>
    cases gs with
    | nil => simp
    | cons g' gs =>
      rw [List.intercalate_cons_cons, List.length_append, List.length_append, ih]
      simp only [List.map_cons, List.sum_cons, List.length_cons, List.length_nil]
      omega

/-- The groups of a text have the lengths that are added up. -/
theorem length_join_groups (h : ∀ x ∈ ips, x < 65536) :
    (joinGroups 0x3A (ips.map (numText 16))).length = fmtNumIpv6Std ips + (ips.length - 1) := by
  rw [length_joinGroups, List.map_map, List.length_map]
  congr 2
  exact List.map_congr_left fun x hx => (fmtNum16Len_eq (h x hx)).symm

theorem length_join_hex (h : ∀ x ∈ ips, x < 65536) :
    (joinGroups 0x3A (ips.map hexText4)).length = 4 * ips.length + (ips.length - 1) := by
  rw [length_joinGroups, List.map_map, List.length_map]
  congr 1
  have h4 : ips.map (List.length ∘ hexText4) = ips.map fun _ => 4 :=
    List.map_congr_left fun x hx => length_hexText4 (h x hx)
  rw [h4]
  simp [Nat.mul_comm]

/-- `vstr__sc_fmt_num_ipv6` counts the IPv4 part of the text. -/
theorem length_prntIpv4End (ips : List Nat) : (prntIpv4End ips).length = fmtNumIpv4End ips := by
  rw [prntIpv4End, length_joinGroups, fmtNumIpv4End]
  simp only [fmtNum10Len_eq, List.map_cons, List.map_nil, List.sum_cons, List.sum_nil,
    List.length_cons, List.length_nil]
  omega

theorem fmtNumIpv6Std_append (xs ys : List Nat) :
    fmtNumIpv6Std (xs ++ ys) = fmtNumIpv6Std xs + fmtNumIpv6Std ys := by
  rw [fmtNumIpv6Std, List.map_append, List.sum_append]
  rfl

theorem fmtNumIpv6Std_zeros (k : Nat) : fmtNumIpv6Std (List.replicate k 0) = k := by
  rw [fmtNumIpv6Std, List.map_replicate, show fmtNum16Len 0 = 1 from rfl]
  simp

theorem zeros_le_std (bs cs : List Nat) (k : Nat) :
    k ≤ fmtNumIpv6Std (bs ++ List.replicate k 0 ++ cs) := by
  rw [fmtNumIpv6Std_append, fmtNumIpv6Std_append, fmtNumIpv6Std_zeros]
  omega

/-- A compact form without a null field. -/
theorem length_compact_groups (h : ∀ x ∈ ips, x < 65536) (h8 : ips.length ≤ 8) (h0 : ips ≠ []) :
    (prntIpv6Compact ips 9).length =
      fmtNumIpv6Std ips + (ips.length - 1) + (if ips.length ≠ 8 then 1 else 0) := by
  rw [prntIpv6Compact_groups h8, List.length_append, length_join_groups h]
  unfold closing
  split_ifs <;> simp_all

/-- A compact form with a null field. -/
theorem length_compact_null (h : ∀ x ∈ bs ++ List.replicate (k + 1) 0 ++ cs, x < 65536)
    (hhead : cs.head? ≠ some 0) :
    (prntIpv6Compact (bs ++ List.replicate (k + 1) 0 ++ cs) bs.length).length + (k + 1) =
      fmtNumIpv6Std (bs ++ List.replicate (k + 1) 0 ++ cs) + (bs.length - 1) + 2 +
        (cs.length - 1) + (if bs.length + k + 1 + cs.length ≠ 8 ∧ cs ≠ [] then 1 else 0) := by
  have hb : ∀ x ∈ bs, x < 65536 := fun x hx => h x (by simp [hx])
  have hc : ∀ x ∈ cs, x < 65536 := fun x hx => h x (by simp [hx])
  rw [prntIpv6Compact_null bs k hhead]
  simp only [List.length_append, length_join_groups hb, length_join_groups hc,
    fmtNumIpv6Std_append, fmtNumIpv6Std_zeros, closing, List.length_replicate,
    List.length_cons, List.length_nil, ← Nat.add_assoc]
  split_ifs <;> simp <;> omega

/-! ## When the length is right -/

/-- The longest run of zeros is the one at the end, no other is as long, and of the others
the one at the beginning is longer than the rest. -/
def BothEnds (ips : List Nat) : Prop :=
  ∃ bs k, ips = bs ++ List.replicate (k + 1) 0 ∧ bs.getLast? ≠ some 0 ∧
    ¬ List.replicate (k + 1) 0 <:+: bs ∧ LeadsLongest bs

/-- The compact form does not end with a null field behind a shorter one that was found at
the beginning, and where an IPv4 address follows it does not end with a null field. -/
def Ipv6Counted (type : Ipv6Type) (ips : List Nat) : Prop :=
  match type with
  | .compact => ¬ BothEnds ips
  | .ipv4Compact => ¬ EndsLongest (ips.take 6)
  | _ => True

/-- The zeros at the end of a list. -/
theorem ends_unique {bs' : List Nat} {k' : Nat}
    (e : bs ++ List.replicate k 0 = bs' ++ List.replicate k' 0)
    (h : bs.getLast? ≠ some 0) (h' : bs'.getLast? ≠ some 0) : bs = bs' ∧ k = k' := by
  have hrev := congrArg List.reverse e
  simp only [List.reverse_append, List.reverse_replicate] at hrev
  have hk : k = k' := by
    have hz := congrArg zeroRun hrev
    rwa [zeroRun_eq (by rwa [List.head?_reverse]), zeroRun_eq (by rwa [List.head?_reverse])] at hz
  subst hk
  exact ⟨List.append_cancel_right e, rfl⟩

/-- The compact form of an address. -/
theorem fmtNumIpv6_compact (h8 : ips.length = 8) (h : ∀ x ∈ ips, x < 65536) :
    fmtNumIpv6 .compact ips = (prntIpv6 .compact ips).length ↔ ¬ BothEnds ips := by
  rw [fmtNumIpv6, prntIpv6]
  rcases numIpv6Compact_count ips with ⟨hno, e⟩ | ⟨bs, k, cs, rfl, hhead, hpos, hcase⟩
  · rw [e, length_compact_groups h (by omega) (by rintro rfl; cases h8), h8]
    refine iff_of_true (by simp) ?_
    rintro ⟨bs, k, rfl, -⟩
    exact hno (by simp)
  · have hlen := length_compact_null h hhead
    have hsum := zeros_le_std bs cs (k + 1)
    have h8' : bs.length + k + 1 + cs.length = 8 := by
      simpa [← Nat.add_assoc] using h8
    rw [if_neg (by omega)] at hlen
    rw [hpos]
    rcases hcase with ⟨hcs, hno, e⟩ | ⟨rfl, hlast, hrun, hcase⟩
    · have hcs' := List.length_pos_iff.mpr hcs
      refine iff_of_true ?_ fun ⟨as, j, ea, _, hj, _⟩ => hno ⟨as, j, ea, hj⟩
      rw [e]
      split
      · rename_i hb
        subst hb
        dsimp only [List.length_nil] at hlen h8' ⊢
        omega
      · rename_i hb
        have hb' := List.length_pos_iff.mpr hb
        omega
    · have hboth : BothEnds (bs ++ List.replicate (k + 1) 0 ++ []) ↔ LeadsLongest bs := by
        rw [List.append_nil]
        constructor
        · rintro ⟨as, j, ea, ha, -, hlead⟩
          obtain ⟨rfl, -⟩ := ends_unique ea hlast ha
          exact hlead
        · exact fun hlead => ⟨bs, k, rfl, hlast, hrun, hlead⟩
      rw [hboth]
      dsimp only [List.length_nil] at hlen h8'
      rcases hcase with ⟨rfl, e⟩ | ⟨hb, hlead, e⟩ | ⟨hb, hlead, e⟩
      · refine iff_of_true ?_ not_leadsLongest_nil
        dsimp only [List.length_nil] at hlen h8' ⊢
        rw [e]
        omega
      · refine iff_of_false ?_ fun h => h hlead
        have hb' := List.length_pos_iff.mpr hb
        have hk : k ≠ 0 := by
          rintro rfl
          obtain ⟨n, hn, m, rfl, -, -⟩ := hlead
          refine hrun (replicate_infix_of_le (n := n) (by omega) ?_)
          exact (List.prefix_append _ _).isInfix
        rw [e]
        omega
      · refine iff_of_true ?_ hlead
        have hb' := List.length_pos_iff.mpr hb
        rw [e]
        omega

/-- The compact form before an IPv4 address. -/
theorem fmtNumIpv6_ipv4Compact (h8 : ips.length = 8) (h : ∀ x ∈ ips, x < 65536) :
    fmtNumIpv6 .ipv4Compact ips = (prntIpv6 .ipv4Compact ips).length ↔
      ¬ EndsLongest (ips.take 6) := by
  rw [fmtNumIpv6, prntIpv6, List.length_append, length_prntIpv4End, Nat.add_right_cancel_iff]
  have h6 : (ips.take 6).length = 6 := by
    rw [List.length_take]
    omega
  have h : ∀ x ∈ ips.take 6, x < 65536 := fun x hx => h x (List.mem_of_mem_take hx)
  generalize ips.take 6 = ips at h h6
  rcases numIpv6Compact_count ips with ⟨hno, e⟩ | ⟨bs, k, cs, rfl, hhead, hpos, hcase⟩
  · rw [e, length_compact_groups h (by omega) (by rintro rfl; cases h6), h6]
    refine iff_of_true (by simp) ?_
    rintro ⟨bs, k, rfl, -⟩
    exact hno (by simp)
  · have hlen := length_compact_null h hhead
    have hsum := zeros_le_std bs cs (k + 1)
    have h6' : bs.length + k + 1 + cs.length = 6 := by
      simpa [← Nat.add_assoc] using h6
    rw [hpos]
    rcases hcase with ⟨hcs, hno, e⟩ | ⟨rfl, hlast, hrun, hcase⟩
    · have hcs' := List.length_pos_iff.mpr hcs
      rw [if_pos ⟨by omega, hcs⟩] at hlen
      refine iff_of_true ?_ hno
      rw [e]
      split
      · rename_i hb
        subst hb
        dsimp only [List.length_nil] at hlen h6' ⊢
        omega
      · rename_i hb
        have hb' := List.length_pos_iff.mpr hb
        omega
    · rw [if_neg fun h => h.2 rfl] at hlen
      refine iff_of_false ?_ fun h => h ⟨bs, k, List.append_nil _, hrun⟩
      dsimp only [List.length_nil] at hlen h6'
      rcases hcase with ⟨rfl, e⟩ | ⟨hb, -, e⟩ | ⟨hb, -, e⟩
      · dsimp only [List.length_nil] at hlen h6'
        rw [e, List.length_nil]
        omega
      · have hb' := List.length_pos_iff.mpr hb
        rw [e]
        omega
      · have hb' := List.length_pos_iff.mpr hb
        rw [e]
        omega

/-- The length that is computed is that of the text for exactly these addresses. -/
theorem fmtNumIpv6_eq_iff (type : Ipv6Type) (h8 : ips.length = 8) (h : ∀ x ∈ ips, x < 65536) :
    fmtNumIpv6 type ips = (prntIpv6 type ips).length ↔ Ipv6Counted type ips := by
  have h6 : (ips.take 6).length = 6 := by
    rw [List.length_take]
    omega
  have ht : ∀ x ∈ ips.take 6, x < 65536 := fun x hx => h x (List.mem_of_mem_take hx)
  cases type with
  | aligned => exact iff_of_true (by rw [fmtNumIpv6, prntIpv6, length_join_hex h, h8]) trivial
  | std => exact iff_of_true (by rw [fmtNumIpv6, prntIpv6, length_join_groups h, h8]) trivial
  | compact => exact fmtNumIpv6_compact h8 h
  | ipv4Aligned =>
    refine iff_of_true ?_ trivial
    rw [fmtNumIpv6, prntIpv6, List.length_append, List.length_append, length_prntIpv4End,
      length_join_hex ht, h6]
    rfl
  | ipv4Std =>
    refine iff_of_true ?_ trivial
    rw [fmtNumIpv6, prntIpv6, List.length_append, List.length_append, length_prntIpv4End,
      length_join_groups ht, h6]
    rfl
  | ipv4Compact => exact fmtNumIpv6_ipv4Compact h8 h

/-! ## The field -/

/-- The width that is asked for. -/
def FmtSpec.width (spec : FmtSpec) : Nat := if spec.fmtFieldWidth then spec.objFieldWidth else 0

/-- A text in its field. -/
def FmtSpec.field (spec : FmtSpec) (out : List UInt8) : List UInt8 :=
  if spec.fmtMinus then out ++ List.replicate (spec.width - out.length) 0x20
  else List.replicate (spec.width - out.length) 0x20 ++ out

theorem FmtSpec.length_field (spec : FmtSpec) (out : List UInt8) :
    (spec.field out).length = max spec.width out.length := by
  unfold FmtSpec.field
  split <;> rw [List.length_append, List.length_replicate] <;> omega

variable {text out xs ys : List UInt8} {pos len : Nat} {spec : FmtSpec}

theorem textAddRepChr_eq (h : pos ≤ text.length) (chr : UInt8) (len : Nat) :
    textAddRepChr text pos chr len = some (insertAfter text pos (List.replicate len chr)) := by
  unfold textAddRepChr
  rw [if_neg (by omega)]
  split
  · rename_i h0
    rw [h0, List.replicate_zero, insertAfter_nil_right]
  · rfl

theorem textAddFmt_eq (h : pos ≤ text.length) (out : List UInt8) :
    textAddFmt text pos out = some (insertAfter text pos out) := by
  unfold textAddFmt
  split
  · rename_i h0
    rw [h0, insertAfter_nil_right]
  · rw [if_neg (by omega)]

/-- A second text behind the first one. -/
theorem textAddFmt_behind (h : pos ≤ text.length) :
    textAddFmt (insertAfter text pos xs) (pos + xs.length) ys =
      some (insertAfter text pos (xs ++ ys)) := by
  rw [textAddFmt_eq (by rw [length_insertAfter]; omega), insertAfter_insertAfter _ _ _ h]

/-- The spaces before a text of `len` characters. -/
def FmtSpec.lead (spec : FmtSpec) (len : Nat) : List UInt8 :=
  if spec.fmtMinus then [] else List.replicate (spec.width - len) 0x20

/-- The spaces behind a text of `len` characters. -/
def FmtSpec.trail (spec : FmtSpec) (len : Nat) : List UInt8 :=
  if spec.fmtMinus then List.replicate (spec.width - len) 0x20 else []

theorem FmtSpec.field_eq (spec : FmtSpec) (out : List UInt8) :
    spec.field out = spec.lead out.length ++ out ++ spec.trail out.length := by
  unfold FmtSpec.field FmtSpec.lead FmtSpec.trail
  split <;> simp

/-- The callbacks before and after an object put the spaces around it. -/
theorem scFmtCb_pads (spec : FmtSpec) (len : Nat) (hpos : pos ≤ text.length) :
    ∃ spec', scFmtCbBeg text pos spec len =
        some (insertAfter text pos (spec.lead len), pos + (spec.lead len).length, spec') ∧
      ∀ {after : List UInt8} {at_ : Nat}, at_ + len ≤ after.length →
        scFmtCbEnd after at_ spec' len = some (insertAfter after (at_ + len) (spec.trail len)) := by
  obtain ⟨minus, given, width⟩ := spec
  unfold scFmtCbBeg scFmtCbEnd FmtSpec.lead FmtSpec.trail FmtSpec.width
  dsimp only
  by_cases hw : given ∧ len < width
  · obtain ⟨rfl, hw⟩ := hw
    cases minus with
    | false =>
      refine ⟨⟨false, true, 0⟩, ?_, fun _ => ?_⟩
      · have hs : width - len ≠ 0 := by omega
        simp [hw, hs, textAddRepChr_eq hpos]
      · simp
    | true =>
      refine ⟨⟨true, true, width - len⟩, ?_, fun h => ?_⟩
      · simp [hw]
      · simp [textAddRepChr_eq h]
  · have hs : (if given then width else 0) - len = 0 := by
      cases given with
      | false => simp
      | true =>
        simp only [true_and] at hw
        simp only [if_true]
        omega
    refine ⟨⟨minus, false, 0⟩, ?_, fun h => ?_⟩
    · simp [hw, hs]
    · cases minus <;> simp [hs, textAddRepChr_eq h]

/-- With the right length the callbacks put the text into its field. -/
theorem scFmtAddCbIpv6Vec_field {type : Ipv6Type}
    (hlen : fmtNumIpv6 type ips = (prntIpv6 type ips).length) (hpos : pos ≤ text.length) :
    scFmtAddCbIpv6Vec type ips cidr text pos spec =
      some (insertAfter text pos (spec.field (fmtIpv6 type ips cidr))) := by
  have hall : fmtNumIpv6 type ips + (cidr.elim 0 fun c => 1 + fmtNum10Len c) =
      (fmtIpv6 type ips cidr).length := by
    rw [fmtIpv6, List.length_append, hlen]
    cases cidr with
    | none => rfl
    | some c => simp [fmtNum10Len_eq, Nat.add_comm]
  obtain ⟨spec', hbeg, hend⟩ := scFmtCb_pads spec (fmtIpv6 type ips cidr).length hpos
  have hlead : pos + (spec.lead (fmtIpv6 type ips cidr).length).length ≤
      (insertAfter text pos (spec.lead (fmtIpv6 type ips cidr).length)).length := by
    rw [length_insertAfter]
    omega
  unfold scFmtAddCbIpv6Vec
  rw [hall]
  dsimp only [bind]
  rw [hbeg, Option.bind_some]
  dsimp only
  rw [textAddFmt_eq hlead, Option.bind_some, length_insertAfter _ (prntIpv6 type ips),
    Nat.add_sub_cancel_left, FmtSpec.field_eq]
  cases cidr with
  | none =>
    simp only [fmtIpv6, Option.elim_none, List.append_nil] at hend hlead ⊢
    rw [Option.bind_some, hend (by rw [length_insertAfter]; omega),
      insertAfter_insertAfter _ _ _ hlead, List.append_assoc,
      insertAfter_insertAfter _ _ _ hpos]
  | some c =>
    simp only [fmtIpv6, Option.elim_some] at hend hlead ⊢
    rw [textAddFmt_behind hlead, Option.bind_some, hend (by rw [length_insertAfter]; omega),
      insertAfter_insertAfter _ _ _ hlead, List.append_assoc, insertAfter_insertAfter _ _ _ hpos]
    simp only [List.append_assoc]

/-- The length that is computed for an IPv6 address is that of its text, and the text is
padded with spaces on one side to the width that is asked for, for exactly these addresses. -/
theorem ipv6_field_iff (type : Ipv6Type) (ips : Ipv6Groups) :
    (fmtNumIpv6 type ips.val = (prntIpv6 type ips.val).length ∧
      ∀ (cidr : Option Nat) (text : List UInt8) (pos : Nat) (spec : FmtSpec), pos ≤ text.length →
        scFmtAddCbIpv6Vec type ips.val cidr text pos spec =
            some (insertAfter text pos (spec.field (fmtIpv6 type ips.val cidr))) ∧
          (spec.field (fmtIpv6 type ips.val cidr)).length =
            max spec.width (fmtIpv6 type ips.val cidr).length) ↔
      Ipv6Counted type ips.val := by
  rw [← fmtNumIpv6_eq_iff type ips.length ips.lt]
  exact ⟨And.left, fun h => ⟨h, fun _ _ _ spec hpos =>
    ⟨scFmtAddCbIpv6Vec_field h hpos, spec.length_field _⟩⟩⟩

/-- The address `0:1:1:1:1:1::`. -/
def zeroAtBothEnds : Ipv6Groups := ⟨[0, 1, 1, 1, 1, 1, 0, 0], rfl, by decide⟩

/-- The length of its compact form is one too many, so that no space fills a field that is one
wider than the text. -/
theorem ipv6_field_long :
    fmtNumIpv6 .compact zeroAtBothEnds.val = 14 ∧
      (prntIpv6 .compact zeroAtBothEnds.val).length = 13 ∧
      scFmtAddCbIpv6Vec .compact zeroAtBothEnds.val none [] 0 ⟨false, true, 14⟩ =
        some (prntIpv6 .compact zeroAtBothEnds.val) := by
  decide

end Vstr
