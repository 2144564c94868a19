import Vstr.Split.Whole

/-!
# Splitting with a limit

The source cuts a run of empty fields where the limit comes first. What the limit leaves of the
sections of a split without one is cut off there, with the flag for the remainder the rest of the
slice is the last section. It goes wrong where a run at the end fills the limit, as the last empty
field is added all the same, and where a run at the beginning is cut and its rest is taken for
fields in the middle.
-/

namespace Vstr

open Splice Query Separate

variable {E : Env} {P : Own} {s t : St} {limit orig fuel pos len added width k m fin : Nat}
  {xs : List (Option UInt8)} {ns : List Nat} {ys us zs : List Sect} {fl : SplitFlags} {buf : Buf}
  {chrs : Option (List UInt8)} {seps : Seps} {c : Sep (Option UInt8)} {found front : Bool}
  {spare : Prop} {x : Sects}

/-! ## What is cut off -/

/-- The sections `ys` of a split with a limit, of which `m` are left, and those `us` of a split
without one; `fin` is where the slice ends. -/
structure Limited (fl : SplitFlags) (m fin : Nat) (ys us : List Sect) : Prop where
  /-- Without `REMAIN` the same ones, as many as the limit lets. -/
  plain : fl.remain = false → ys = us.take m
  /-- With it all of them, or the last one goes to the end of the slice. -/
  rest : fl.remain = true → (ys = us ∧ us.length ≤ m) ∨
    ∃ y, ys = us.take (m - 1) ++ [y] ∧ y.pos + y.len = fin ∧ m - 1 ≤ us.length

/-- The same, but that the last empty field may be one more than the limit. -/
structure NearlyLimited (fl : SplitFlags) (spare : Prop) (m fin : Nat) (ys us : List Sect) :
    Prop where
  /-- One more. -/
  spared : fl.remain = false → spare → us.length = m + 1 → ys = us
  /-- As it should be. -/
  cut : ¬ (fl.remain = false ∧ spare ∧ us.length = m + 1) → Limited fl m fin ys us

theorem Limited.append (h : Limited fl m fin ys us) (hm : fl.remain = true → 0 < m)
    (zs : List Sect) : Limited fl (zs.length + m) fin (zs ++ ys) (zs ++ us) := by
  refine ⟨fun hr => ?_, fun hr => ?_⟩
  · rw [h.plain hr, List.take_length_add_append]
  · rcases h.rest hr with ⟨rfl, hl⟩ | ⟨y, rfl, hy, hl⟩
    · refine .inl ⟨rfl, ?_⟩
      rw [List.length_append]
      omega
    · refine .inr ⟨y, ?_, hy, ?_⟩
      · rw [Nat.add_sub_assoc (hm hr), List.take_length_add_append, List.append_assoc]
      · rw [List.length_append]
        omega

/-- What is added before is the same with and without a limit. -/
theorem NearlyLimited.append (h : NearlyLimited fl spare m fin ys us)
    (hm : fl.remain = true → 0 < m) (zs : List Sect) :
    NearlyLimited fl spare (zs.length + m) fin (zs ++ ys) (zs ++ us) := by
  have hl : (zs ++ us).length = zs.length + m + 1 ↔ us.length = m + 1 := by
    rw [List.length_append]
    omega
  refine ⟨fun hr hs hn => ?_, fun hn => (h.cut ?_).append hm zs⟩
  · rw [h.spared hr hs (hl.1 hn)]
  · rwa [hl] at hn

theorem NearlyLimited.congr {spare' : Prop} (h : NearlyLimited fl spare m fin ys us)
    (e : spare' ↔ spare) : NearlyLimited fl spare' m fin ys us := by
  rwa [propext e]

/-- All sections, and no more than the limit. -/
theorem NearlyLimited.all (h : us.length ≤ m) : NearlyLimited fl spare m fin us us :=
  ⟨fun _ _ _ => rfl, fun _ => ⟨fun _ => (List.take_of_length_le h).symm, fun _ => .inl ⟨rfl, h⟩⟩⟩

/-- All sections, and one more than the limit. -/
theorem NearlyLimited.last (hr : fl.remain = false) (hs : spare) (h : us.length = m + 1) :
    NearlyLimited fl spare m fin us us :=
  ⟨fun _ _ _ => rfl, fun hn => absurd ⟨hr, hs, h⟩ hn⟩

/-- The limit is used up. -/
theorem NearlyLimited.none (hr : fl.remain = false) (hz : zs.length = m)
    (h : spare → 2 ≤ us.length) : NearlyLimited fl spare m fin zs (zs ++ us) := by
  have hr' : ¬ fl.remain = true := by
    rw [hr]
    exact Bool.false_ne_true
  have h0 : NearlyLimited fl spare 0 fin [] us := by
    refine ⟨fun _ hs hl => ?_, fun _ => ⟨fun _ => rfl, fun h' => absurd h' hr'⟩⟩
    have := h hs
    omega
  subst hz
  have := h0.append (fun h' => absurd h' hr') zs
  rwa [List.append_nil, Nat.add_zero] at this

/-- The limit is used up but for the remainder. -/
theorem NearlyLimited.remainder (hr : fl.remain = true) (hz : zs.length + 1 = m)
    (h : pos + len = fin) : NearlyLimited fl spare m fin (zs ++ [⟨pos, len⟩]) (zs ++ us) := by
  have hr' : ¬ fl.remain = false := by
    rw [hr]
    exact Bool.true_eq_false_eq_False
  subst hz
  exact NearlyLimited.append ⟨fun h' => absurd h' hr', fun _ => ⟨fun h' => absurd h' hr',
    fun _ => .inr ⟨_, rfl, h, Nat.zero_le _⟩⟩⟩ (fun _ => Nat.one_pos) zs

theorem nullsAt_add (width pos j k : Nat) :
    nullsAt width pos (j + k) = nullsAt width pos j ++ nullsAt width (pos + j * width) k := by
  induction j generalizing pos with
  | zero => rw [Nat.zero_add, Nat.zero_mul, Nat.add_zero, nullsAt, List.nil_append]
  | succ j ih =>
    rw [Nat.succ_add, nullsAt, ih, nullsAt, List.cons_append, Nat.succ_mul,
      Nat.add_comm (j * width), Nat.add_assoc]

/-! ## The last fields -/

/-- The slice ends with two empty fields and the flags keep both, so that the last one may be
one more than the limit. -/
def spareLast (fl : SplitFlags) (front : Bool) (ns : List Nat) : Bool :=
  fl.endNull && fl.postNull && ([0, 0] : List Nat).isSuffixOf ns &&
    (!front || !bare ns || fl.begNull)

theorem spareLast_iff : spareLast fl front ns = true ↔ fl.endNull = true ∧ fl.postNull = true ∧
    [0, 0] <:+ ns ∧ (front = true → bare ns = true → fl.begNull = true) := by
  rw [spareLast, Bool.and_eq_true, Bool.and_eq_true, Bool.and_eq_true, List.isSuffixOf_iff_suffix,
    and_assoc, and_assoc]
  cases front <;> cases bare ns <;> cases fl.begNull <;> simp

theorem spareLast_field (n : Nat) : spareLast fl front ((n + 1) :: ns) = spareLast fl false ns := by
  rw [Bool.eq_iff_iff, spareLast_iff, spareLast_iff, List.suffix_cons_iff]
  simp

theorem spareLast_drop (hk : k ≤ lead ns) (hb : bare ns = false) :
    spareLast fl front ns = spareLast fl found (ns.drop k) := by
  induction k generalizing ns with
  | zero =>
    rw [Bool.eq_iff_iff, spareLast_iff, spareLast_iff, List.drop_zero, hb]
    simp
  | succ k ih =>
    obtain ⟨ms, -, rfl, hl⟩ := exists_of_lead (show 0 < lead ns by omega)
    rw [bare_cons_zero] at hb
    rw [List.drop_succ_cons, ← ih (by omega) hb, Bool.eq_iff_iff, spareLast_iff, spareLast_iff,
      List.suffix_cons_iff, bare_cons_zero]
    have hne : ([0, 0] : List Nat) ≠ 0 :: ms := by
      rintro h
      obtain rfl := (List.cons.inj h).2
      cases hb
    simp [hne]

theorem spareLast_bare (hne : ns ≠ []) (hb : bare ns = true) :
    spareLast fl front (0 :: ns) = true ↔ fl.endNull = true ∧ fl.postNull = true ∧
      ¬ (front = true ∧ ¬ fl.begNull = true) := by
  have hall : ns = List.replicate ns.length 0 := List.eq_replicate_of_mem fun n hn =>
    beq_iff_eq.1 (List.all_eq_true.1 hb n hn)
  have hsuffix : [0, 0] <:+ 0 :: ns := by
    refine ⟨List.replicate (ns.length - 1) 0, ?_⟩
    have hlen := List.length_pos_iff.2 hne
    rw [show ([0, 0] : List Nat) = List.replicate 2 0 from rfl, List.replicate_append_replicate,
      show ns.length - 1 + 2 = ns.length + 1 by omega, List.replicate_succ, ← hall]
  rw [spareLast_iff]
  constructor
  · rintro ⟨he, hp, -, h⟩
    exact ⟨he, hp, fun h' => h'.2 (h h'.1 hb)⟩
  · rintro ⟨he, hp, h⟩
    exact ⟨he, hp, hsuffix, fun hf _ => not_not.1 fun h' => h ⟨hf, h'⟩⟩

/-- Then there are two sections at least. -/
theorem two_le_wanted (hw : 0 < width) (pos : Nat) (h : spareLast fl front ns = true)
    (hs : ShortEnd ns) : 2 ≤ (wanted fl width front pos ns).length := by
  induction ns generalizing front pos with
  | nil => exact absurd (spareLast_iff.1 h).2.2.1.length_le (by simp)
  | cons n ns ih =>
    by_cases hns : ns = []
    · subst hns
      exact absurd (spareLast_iff.1 h).2.2.1.length_le (by simp)
    cases n with
    | succ n =>
      rw [spareLast_field] at h
      have := ih (pos + (n + 1 + width)) h ((shortEnd_cons rfl).1 hs)
      rw [wanted_field hns, List.length_cons]
      omega
    | zero =>
      cases hb : bare ns with
      | true =>
        obtain ⟨he, hp, hf⟩ := (spareLast_bare hns hb).1 h
        have hlen := List.length_pos_iff.2 hns
        rw [wanted_counted hns hw hb hs, if_neg hf, if_pos he, if_pos hp, List.length_append,
          length_nullsAt, List.length_singleton]
        omega
      | false =>
        have hb' : bare (0 :: ns) = false := hb
        have hpos : 1 ≤ lead (0 :: ns) := by
          rw [lead_cons_zero hns]
          omega
        rw [@spareLast_drop _ _ _ front _ hpos hb, List.drop_one, List.tail_cons] at h
        have := ih (pos + width) h ((shortEnd_cons hb').1 hs)
        rw [wanted_null hns hb, List.length_append]
        omega

/-- Where empty fields at the beginning are kept like those in the middle. -/
theorem wanted_same (h : fl.begNull = fl.midNull) (hb : bare ns = false) :
    wanted fl width front pos ns = wanted fl width false pos ns := by
  induction ns generalizing pos with
  | nil => rw [wanted, wanted]
  | cons n ns ih =>
    by_cases hns : ns = []
    · subst hns
      rw [wanted, wanted]
    cases n with
    | succ n => rw [wanted_field hns, wanted_field hns]
    | zero => rw [wanted_null hns hb, wanted_null hns hb, ih hb, h, ite_self, ite_self]

theorem stretch_drop (hk : k ≤ lead ns) :
    stretch width ns = k * width + stretch width (ns.drop k) := by
  induction k generalizing ns with
  | zero => rw [Nat.zero_mul, Nat.zero_add, List.drop_zero]
  | succ k ih =>
    obtain ⟨ms, hms, rfl, hl⟩ := exists_of_lead (show 0 < lead ns by omega)
    rw [stretch_cons _ hms, ih (show k ≤ lead ms by omega), List.drop_succ_cons, Nat.succ_mul]
    omega

/-! ## The loop -/

/-- More empty fields stand at the beginning than the limit lets, they are not kept, and those in
the middle are. -/
def CutRun (fl : SplitFlags) (limit : Nat) (ns : List Nat) : Prop :=
  fl.begNull = false ∧ fl.midNull = true ∧ bare ns = false ∧ limit ≤ lead ns ∧
    splitRoom fl limit < lead ns ∧ 0 < splitRoom fl limit

theorem splitRoom_remain (h : fl.remain = true) : splitRoom fl limit = limit - 1 := by
  rw [splitRoom, h, if_pos rfl]

theorem splitRoom_plain (h : fl.remain = false) : splitRoom fl limit = limit := by
  rw [splitRoom, h, if_neg Bool.false_ne_true, Nat.sub_zero]

theorem planEnd_rest (h : len ≠ 0) : planEnd fl limit found pos len added =
    if fl.remain = true ∨ found = false then [⟨pos, len⟩] else [] := by
  simp [planEnd, h]

theorem planEnd_last : planEnd fl limit found pos 0 added =
    if fl.postNull = true ∧ (limit = 0 ∨ added < limit) then [⟨pos, 0⟩] else [] := by
  simp [planEnd]

/-- What the loop wants when it ends. -/
theorem planEnd_limited (hw : 0 < width) (hne : ns ≠ []) (hl : limit ≠ 0)
    (ha : added ≤ splitRoom fl limit) (hfound : found = false → added = 0)
    (h : stretch width ns = 0 ∨ ¬ added < splitRoom fl limit) :
    NearlyLimited fl (spareLast fl front ns = true ∧ ShortEnd ns) (limit - added)
      (pos + stretch width ns) (planEnd fl limit found pos (stretch width ns) added)
      (wanted fl width front pos ns) := by
  by_cases hs : stretch width ns = 0
  · obtain ⟨n, ns, rfl⟩ := List.exists_cons_of_ne_nil hne
    obtain rfl : ns = [] := by
      by_contra hns
      rw [stretch_cons _ hns] at hs
      omega
    change n = 0 at hs
    subst hs
    have hs : stretch width [0] = 0 := rfl
    have hwant : wanted fl width front pos [0] = if fl.postNull then [⟨pos, 0⟩] else [] := by
      rw [wanted]
      simp
    by_cases hadd : added < limit
    · have hend : planEnd fl limit found pos (stretch width [0]) added =
          wanted fl width front pos [0] := by
        rw [hwant, hs, planEnd_last]
        simp [hadd]
      rw [hend]
      refine .all ?_
      rw [hwant]
      split
      · exact (show 1 ≤ limit - added by omega)
      · exact Nat.zero_le _
    · have hr : fl.remain = false := by
        by_contra hr
        rw [splitRoom_remain (Bool.of_not_eq_false hr)] at ha
        omega
      have hend : planEnd fl limit found pos (stretch width [0]) added = [] := by
        rw [hs, planEnd_last]
        simp [hadd, hl]
      rw [hend]
      exact .none hr (show 0 = limit - added by omega) fun h =>
        two_le_wanted hw pos h.1 h.2
  · have hroom := h.resolve_left hs
    cases hr : fl.remain with
    | true =>
      rw [splitRoom_remain hr] at ha hroom
      have hend : planEnd fl limit found pos (stretch width ns) added =
          [⟨pos, stretch width ns⟩] := by
        rw [planEnd_rest hs, if_pos (.inl hr)]
      rw [hend]
      have hone : ([] : List Sect).length + 1 = limit - added := by
        rw [List.length_nil]
        omega
      exact NearlyLimited.remainder hr hone rfl
    | false =>
      rw [splitRoom_plain hr] at ha hroom
      have hend : planEnd fl limit found pos (stretch width ns) added = [] := by
        rw [planEnd_rest hs, if_neg]
        rintro (h | h)
        · exact Bool.false_ne_true (hr.symm.trans h)
        · have := hfound h
          omega
      rw [hend]
      exact .none hr (show 0 = limit - added by omega) fun h =>
        two_le_wanted hw pos h.1 h.2

theorem planNullEnd_off (he : fl.endNull = false) (h : len ≠ 0) :
    planNullEnd fl limit width pos len k added = if fl.remain then [⟨pos, len⟩] else [] := by
  simp [planNullEnd, nullsAt, he, h]

theorem planNullEnd_on (he : fl.endNull = true) (h : splitQuota fl limit k added = m) :
    planNullEnd fl limit width pos len k added = nullsAt width pos m ++
      if (len - m * width ≠ 0 ∧ fl.remain = true) ∨ (len - m * width = 0 ∧ fl.postNull = true) then
        [⟨pos + m * width, len - m * width⟩]
      else [] := by
  subst h
  rw [planNullEnd, he, if_pos rfl]

/-- What is wanted behind empty fields at the end, `k` of which are taken and no others left. -/
theorem planNullEnd_last (hl : len = k * width) :
    (if (len - k * width ≠ 0 ∧ fl.remain = true) ∨ (len - k * width = 0 ∧ fl.postNull = true) then
      [(⟨pos + k * width, len - k * width⟩ : Sect)] else []) =
      if fl.postNull then [⟨pos + k * width, 0⟩] else [] := by
  rw [hl, Nat.sub_self]
  simp

/-- What is wanted behind others that are left. -/
theorem planNullEnd_rest (hl : k * width < len) :
    (if (len - k * width ≠ 0 ∧ fl.remain = true) ∨ (len - k * width = 0 ∧ fl.postNull = true) then
      [(⟨pos + k * width, len - k * width⟩ : Sect)] else []) =
      if fl.remain then [⟨pos + k * width, len - k * width⟩] else [] := by
  have hne : len - k * width ≠ 0 := by omega
  simp [hne]

/-- Where all counted empty fields at the end are taken. -/
theorem planNullEnd_full (ha : added < splitRoom fl limit) (he : fl.endNull = true)
    (hk : splitQuota fl limit k added = k) (hc : k * width ≤ len) :
    NearlyLimited fl (fl.endNull = true ∧ fl.postNull = true ∧ k * width = len) (limit - added)
      (pos + len) (planNullEnd fl limit width pos len k added)
      (planNullEnd fl 0 width pos len k 0) := by
  have hroom : splitRoom fl limit ≤ limit := Nat.sub_le _ _
  rw [planNullEnd_on he hk, planNullEnd_on he splitQuota_zero]
  rw [splitQuota] at hk
  by_cases hcut : limit ≠ 0 ∧ limit ≤ added + k
  · rw [if_pos hcut] at hk
    have hr : fl.remain = false := by
      by_contra hr
      rw [splitRoom_remain (Bool.of_not_eq_false hr)] at hk
      omega
    rcases Nat.lt_or_eq_of_le hc with hlt | heq
    · rw [planNullEnd_rest hlt, if_neg (by simp [hr]), List.append_nil]
      refine .all ?_
      rw [length_nullsAt]
      omega
    · rw [planNullEnd_last heq.symm]
      cases hp : fl.postNull with
      | true =>
        refine .last hr ⟨he, rfl, heq⟩ ?_
        rw [if_pos rfl, List.length_append, length_nullsAt, List.length_singleton]
        omega
      | false =>
        refine .all ?_
        rw [if_neg Bool.false_ne_true, List.append_nil, length_nullsAt]
        omega
  · refine .all ?_
    rw [List.length_append, length_nullsAt]
    split
    · exact (show k + 1 ≤ limit - added by omega)
    · exact (show k ≤ limit - added by omega)

/-- Where the limit cuts them. -/
theorem planNullEnd_cut (hw : 0 < width) (he : fl.endNull = true) (hm : m < k)
    (hk : splitQuota fl limit k added = m) (ha : added < splitRoom fl limit)
    (hc : k * width ≤ len) :
    NearlyLimited fl (fl.endNull = true ∧ fl.postNull = true ∧ k * width = len) (limit - added)
      (pos + len) (planNullEnd fl limit width pos len k added)
      (planNullEnd fl 0 width pos len k 0) := by
  have hroom : splitRoom fl limit ≤ limit := Nat.sub_le _ _
  have hlt := Nat.mul_lt_mul_of_pos_right hm hw
  rw [planNullEnd_on he hk, planNullEnd_on he splitQuota_zero, planNullEnd_rest (by omega)]
  have hcut : limit ≠ 0 ∧ limit ≤ added + k := by
    by_contra hcut
    rw [splitQuota, if_neg hcut] at hk
    omega
  rw [splitQuota, if_pos hcut] at hk
  obtain ⟨j, rfl⟩ : ∃ j, k = m + (j + 1) := ⟨k - m - 1, by omega⟩
  rw [nullsAt_add, List.append_assoc]
  cases hr : fl.remain with
  | true =>
    rw [splitRoom_remain hr] at hk ha
    rw [if_pos rfl]
    refine .remainder hr (by rw [length_nullsAt]; omega) ?_
    omega
  | false =>
    rw [splitRoom_plain hr] at hk ha
    rw [if_neg Bool.false_ne_true, List.append_nil]
    refine .none hr (by rw [length_nullsAt]; omega) fun h => ?_
    rw [← hr, planNullEnd_last h.2.2.symm, if_pos h.2.1, List.length_append, length_nullsAt,
      List.length_singleton]
    omega

/-- What is wanted for nothing but separators, of which `k` are counted. -/
theorem planNullEnd_limited (hw : 0 < width) (ha : added < splitRoom fl limit)
    (hc : k * width ≤ len) (hlen : len ≠ 0) :
    NearlyLimited fl (fl.endNull = true ∧ fl.postNull = true ∧ k * width = len) (limit - added)
      (pos + len) (planNullEnd fl limit width pos len k added)
      (planNullEnd fl 0 width pos len k 0) := by
  have hroom : splitRoom fl limit ≤ limit := Nat.sub_le _ _
  by_cases he : fl.endNull = true
  · obtain ⟨m, hm⟩ : ∃ m, splitQuota fl limit k added = m := ⟨_, rfl⟩
    have hle : m ≤ k := by
      rw [← hm]
      exact splitQuota_le (.inr ha)
    rcases Nat.lt_or_eq_of_le hle with hlt | rfl
    · exact planNullEnd_cut hw he hlt hm ha hc
    · exact planNullEnd_full ha he hm hc
  · have he' := Bool.of_not_eq_true he
    rw [planNullEnd_off he' hlen, planNullEnd_off he' hlen]
    refine .all ?_
    split
    · exact (show 1 ≤ limit - added by omega)
    · exact Nat.zero_le _

/-- What the loop wants for nothing but separators. -/
theorem plan_bare_limited (hne : ns ≠ []) (hb : bare ns = true) (hw : 0 < width)
    (ha : added < splitRoom fl limit) (hf : ¬ (front = true ∧ ¬ fl.begNull = true)) :
    NearlyLimited fl (spareLast fl front (0 :: ns) = true ∧ ShortEnd (0 :: ns)) (limit - added)
      (pos + stretch width (0 :: ns))
      (planNullEnd fl limit width pos (stretch width (0 :: ns)) (lead (0 :: ns) % 2 ^ 32) added)
      (wanted fl width front pos (0 :: ns)) := by
  have hb' : bare (0 :: ns) = true := hb
  obtain ⟨h1, h2⟩ := @lead_bare width _ (List.cons_ne_nil 0 ns) hb'
  have hlen := List.length_pos_iff.2 hne
  rw [wanted_bare hne hb, if_neg hf, spareLast_bare hne hb, shortEnd_bare hb']
  rw [List.length_cons, Nat.add_sub_cancel] at h1 h2
  rw [h1, h2]
  have hmod := Nat.mod_le ns.length (2 ^ 32)
  have hlong := Nat.mod_lt ns.length (Nat.two_pow_pos 32)
  refine (planNullEnd_limited hw ha (Nat.mul_le_mul_right _ hmod)
    (Nat.mul_pos hlen hw).ne').congr ?_
  rw [and_assoc, and_assoc]
  refine and_congr_right fun _ => and_congr_right fun _ => ⟨fun h => ?_, fun h => ⟨hf, ?_⟩⟩
  · rw [Nat.mod_eq_of_lt h.2]
  · have := Nat.eq_of_mul_eq_mul_right hw h
    omega

/-- How many empty fields are taken, and when they are not all. -/
theorem splitQuota_room (hl : limit ≠ 0) (ha : added < splitRoom fl limit)
    (hk : splitQuota fl limit m added = k) (null : Bool) :
    added + (if null then k else 0) ≤ splitRoom fl limit ∧
      (k ≠ m → limit ≤ added + m ∧ k = splitRoom fl limit - added) := by
  have hr : limit - 1 ≤ splitRoom fl limit := by
    rw [splitRoom]
    split <;> omega
  rw [splitQuota] at hk
  split at hk <;> split <;> omega

/-- Where no run at the beginning is cut, it does not matter behind it what was before. -/
theorem wanted_behind {null : Bool} (hk : k ≤ lead ns) (hb : bare ns = false)
    (hcut : k ≠ lead ns → limit ≤ added + lead ns ∧ k = splitRoom fl limit - added)
    (h0 : front = true → added = 0) (hnull : (if front then fl.begNull else fl.midNull) = null)
    (hrun : front = true → ¬ CutRun fl limit ns)
    (hgo : added + (if null then k else 0) < splitRoom fl limit) :
    wanted fl width front pos (ns.drop k) = wanted fl width false pos (ns.drop k) := by
  by_cases hkl : k = lead ns
  · exact wanted_front (by rw [lead_drop hk, hkl, Nat.sub_self])
  cases hfr : front with
  | false => rfl
  | true =>
    obtain ⟨hlim, hke⟩ := hcut hkl
    have ha0 := h0 hfr
    have hnull0 : null = false := by
      by_contra h
      rw [Bool.not_eq_false] at h
      rw [h, if_pos rfl] at hgo
      omega
    rw [hfr, if_pos rfl] at hnull
    refine wanted_same ?_ (by rw [bare_drop hk, hb])
    by_contra hdiff
    refine hrun hfr ⟨hnull.trans hnull0, ?_, hb, by omega, by omega, by omega⟩
    rw [hnull, hnull0] at hdiff
    exact Bool.of_not_eq_false fun h => hdiff h.symm

theorem shortEnd_drop (hk : k ≤ lead ns) (hb : bare ns = false) :
    ShortEnd (ns.drop k) ↔ ShortEnd ns := by
  induction k generalizing ns with
  | zero => rw [List.drop_zero]
  | succ k ih =>
    obtain ⟨ms, -, rfl, hl⟩ := exists_of_lead (show 0 < lead ns by omega)
    rw [shortEnd_cons hb, List.drop_succ_cons]
    exact ih (by omega) hb

/-- Empty fields that are taken in front of others. -/
theorem nulls_limited {null : Bool} (hl : limit ≠ 0) (hk : k ≤ lead ns) (hb : bare ns = false)
    (hnull : (if front then fl.begNull else fl.midNull) = null)
    (hadd : added + (if null then k else 0) ≤ splitRoom fl limit)
    (h : NearlyLimited fl (spareLast fl front (ns.drop k) = true ∧ ShortEnd (ns.drop k))
      (limit - (added + if null then k else 0)) (pos + k * width + stretch width (ns.drop k)) zs
      (wanted fl width front (pos + k * width) (ns.drop k))) :
    NearlyLimited fl (spareLast fl front ns = true ∧ ShortEnd ns) (limit - added)
      (pos + stretch width ns) ((if null then nullsAt width pos k else []) ++ zs)
      (wanted fl width front pos ns) := by
  have hroom : splitRoom fl limit ≤ limit := Nat.sub_le _ _
  have hlen : (if null then nullsAt width pos k else []).length = if null then k else 0 := by
    split
    · exact length_nullsAt width pos k
    · rfl
  have h' := h.append (fun hr => by
    rw [splitRoom_remain hr] at hadd
    omega) (if null then nullsAt width pos k else [])
  rw [hlen] at h'
  rw [wanted_nulls hk hb, hnull, spareLast_drop hk hb, ← shortEnd_drop hk hb, stretch_drop hk,
    ← Nat.add_assoc pos]
  have e : (if null then k else 0) + (limit - (added + if null then k else 0)) = limit - added := by
    omega
  rwa [e] at h'

/-- A field that is taken in front of others. -/
theorem field_limited (hns : ns ≠ []) (hgo : added < splitRoom fl limit) {n : Nat}
    (h : NearlyLimited fl (spareLast fl false ns = true ∧ ShortEnd ns) (limit - (added + 1))
      (pos + (n + 1 + width) + stretch width ns) zs
      (wanted fl width false (pos + (n + 1 + width)) ns)) :
    NearlyLimited fl (spareLast fl front ((n + 1) :: ns) = true ∧ ShortEnd ((n + 1) :: ns))
      (limit - added) (pos + stretch width ((n + 1) :: ns)) (⟨pos, n + 1⟩ :: zs)
      (wanted fl width front pos ((n + 1) :: ns)) := by
  have hroom : splitRoom fl limit ≤ limit := Nat.sub_le _ _
  have hm : fl.remain = true → added + 1 < limit := by
    intro hr
    rw [splitRoom_remain hr] at hgo
    omega
  have h' := h.append (fun hr => by have := hm hr; omega) [⟨pos, n + 1⟩]
  rw [wanted_field hns, spareLast_field, shortEnd_cons rfl, stretch_cons _ hns,
    ← Nat.add_assoc pos]
  rw [List.length_singleton, show 1 + (limit - (added + 1)) = limit - added by omega] at h'
  exact h'

/-- The turn that takes empty fields, if the rest wants what the limit leaves of it. -/
theorem plan_null_limited (hw : 0 < width) (hl : limit ≠ 0) (hns : ns ≠ [])
    (hb : bare (0 :: ns) = false) (hs : ShortInside (0 :: ns)) (hf : front = decide (pos = orig))
    (hgo : added < splitRoom fl limit) (h0 : front = true → added = 0)
    (hrun : front = true → ¬ CutRun fl limit (0 :: ns))
    (hrest : ∀ {k added' : Nat} {zs : List Sect}, 0 < k * width → (0 :: ns).drop k ≠ [] →
      added' ≤ splitRoom fl limit →
      plan fl limit width orig fuel true (pos + k * width) added' ((0 :: ns).drop k) = some zs →
      NearlyLimited fl (spareLast fl false ((0 :: ns).drop k) = true ∧
          ShortEnd ((0 :: ns).drop k)) (limit - added')
        (pos + k * width + stretch width ((0 :: ns).drop k)) zs
        (wanted fl width false (pos + k * width) ((0 :: ns).drop k)))
    (hp : plan fl limit width orig (fuel + 1) found pos added (0 :: ns) = some ys) :
    NearlyLimited fl (spareLast fl front (0 :: ns) = true ∧ ShortEnd (0 :: ns)) (limit - added)
      (pos + stretch width (0 :: ns)) ys (wanted fl width front pos (0 :: ns)) := by
  have hgo' : ¬ (limit ≠ 0 ∧ ¬ added < splitRoom fl limit) := fun h => h.2 hgo
  have hlong := Nat.mod_eq_of_lt (hs 0 hb)
  rw [List.drop_zero] at hlong
  obtain ⟨k, hk⟩ : ∃ k, splitQuota fl limit (lead (0 :: ns)) added = k := ⟨_, rfl⟩
  obtain ⟨null, hnull⟩ : ∃ null, (if pos = orig then fl.begNull else fl.midNull) = null :=
    ⟨_, rfl⟩
  have hk' : splitQuota fl limit (lead (0 :: ns) % 2 ^ 32) added = k := by
    rw [hlong]
    exact hk
  rw [plan_null hns hw hb hgo' hk' hnull] at hp
  obtain ⟨zs, hz, rfl⟩ := Option.map_eq_some_iff.1 hp
  have hkl : k ≤ lead (0 :: ns) := by
    rw [← hk]
    exact splitQuota_le (.inr hgo)
  have hkpos : 0 < k * width := by
    rw [← hk]
    exact Nat.mul_pos (splitQuota_pos (.inr hgo) (by rw [lead_cons_zero hns]; omega)) hw
  have hadd := splitQuota_room hl hgo hk null
  have hnull' : (if front then fl.begNull else fl.midNull) = null := by
    rw [← hnull, hf]
    simp only [decide_eq_true_eq]
  have hne' : (0 :: ns).drop k ≠ [] := by
    have := lead_lt (List.cons_ne_nil 0 ns)
    exact List.ne_nil_of_length_pos (by rw [List.length_drop]; omega)
  refine nulls_limited hl hkl hb hnull' hadd.1 ?_
  by_cases hgo2 : added + (if null then k else 0) < splitRoom fl limit
  · rw [wanted_behind hkl hb hadd.2 h0 hnull' hrun hgo2,
      ← @spareLast_drop _ _ _ _ front hkl hb, spareLast_drop hkl hb]
    exact hrest hkpos hne' hadd.1 hz
  · cases fuel with
    | zero => cases hz
    | succ fuel =>
      rw [plan_stop (.inr ⟨hl, hgo2⟩)] at hz
      rw [← Option.some.inj hz]
      exact planEnd_limited hw hne' hl hadd.1 Bool.noConfusion (.inr hgo2)

/-- With a limit the loop wants what the limit leaves of the fields that the flags keep, if no run
at the beginning is cut; the last empty field may be one more. -/
theorem plan_limited (hw : 0 < width) (hne : ns ≠ []) (hl : limit ≠ 0) (ho : orig ≤ pos)
    (hf : front = decide (pos = orig)) (ha : added ≤ splitRoom fl limit)
    (hfound : found = false → added = 0) (h0 : front = true → added = 0)
    (hs : ShortInside ns) (hrun : front = true → ¬ CutRun fl limit ns)
    (hp : plan fl limit width orig fuel found pos added ns = some ys) :
    NearlyLimited fl (spareLast fl front ns = true ∧ ShortEnd ns) (limit - added)
      (pos + stretch width ns) ys (wanted fl width front pos ns) := by
  induction fuel generalizing found front pos added ns ys with
  | zero => cases hp
  | succ fuel ih =>
    by_cases hstop : stretch width ns = 0 ∨ ¬ added < splitRoom fl limit
    · rw [plan_stop (hstop.imp_right fun h => ⟨hl, h⟩)] at hp
      rw [← Option.some.inj hp]
      exact planEnd_limited hw hne hl ha hfound hstop
    obtain ⟨hlen, hgo⟩ := not_or.1 hstop
    rw [not_not] at hgo
    have hgo' : ¬ (limit ≠ 0 ∧ ¬ added < splitRoom fl limit) := fun h => h.2 hgo
    obtain ⟨n, ns, rfl⟩ := List.exists_cons_of_ne_nil hne
    by_cases hns : ns = []
    · subst hns
      have hn : n ≠ 0 := hlen
      have hroom : splitRoom fl limit ≤ limit := Nat.sub_le _ _
      rw [plan_one hn hgo', planEnd_rest hn, if_pos (.inr rfl)] at hp
      rw [← Option.some.inj hp, wanted, if_pos (.inl hn)]
      exact .all (show 1 ≤ limit - added by omega)
    cases n with
    | succ n =>
      rw [plan_field hns hgo'] at hp
      obtain ⟨zs, hz, rfl⟩ := Option.map_eq_some_iff.1 hp
      exact field_limited hns hgo (@ih _ _ _ _ true false hns (by omega)
        (decide_eq_false (by omega)).symm hgo Bool.noConfusion Bool.noConfusion (hs.drop 1)
        (fun h => absurd h Bool.false_ne_true) hz)
    | zero =>
      cases hb : bare ns with
      | true =>
        rw [plan_bare hns hw hb hgo'] at hp
        by_cases hret : pos = orig ∧ ¬ fl.begNull = true
        · rw [if_pos hret] at hp
          have hwant : wanted fl width front pos (0 :: ns) = [] := by
            rw [wanted_bare hns hb, if_pos ⟨by rw [hf, decide_eq_true hret.1], hret.2⟩]
          rw [← Option.some.inj hp, hwant]
          exact .all (Nat.zero_le _)
        · rw [if_neg hret] at hp
          rw [← Option.some.inj hp]
          refine plan_bare_limited hns hb hw hgo fun h => hret ⟨?_, h.2⟩
          rw [hf] at h
          exact of_decide_eq_true h.1
      | false =>
        refine plan_null_limited hw hl hns hb hs hf hgo h0 hrun (fun hk hne' ha' hz => ?_) hp
        exact @ih _ _ _ _ true false hne' (by omega) (decide_eq_false (by omega)).symm ha'
          Bool.noConfusion Bool.noConfusion (hs.drop _) (fun h => absurd h Bool.false_ne_true) hz

/-- A run at the beginning that is cut leaves an empty field in front. -/
theorem plan_cutRun (hw : 0 < width) (hl : limit ≠ 0) (hs : ShortInside ns)
    (hrun : CutRun fl limit ns)
    (hp : plan fl limit width pos fuel found pos 0 ns = some ys) :
    ∃ y, ys.head? = some y ∧ y.len = 0 := by
  obtain ⟨hbeg, hmid, hb, h1, h2, h3⟩ := hrun
  have hroom : splitRoom fl limit ≤ limit := Nat.sub_le _ _
  obtain ⟨ns, hns, rfl, hlead⟩ := exists_of_lead (show 0 < lead ns by omega)
  have hlong := Nat.mod_eq_of_lt (hs 0 hb)
  rw [List.drop_zero] at hlong
  have hk : splitQuota fl limit (lead (0 :: ns) % 2 ^ 32) 0 = splitRoom fl limit := by
    rw [hlong]
    exact if_pos ⟨hl, by omega⟩
  have hgo : ¬ (limit ≠ 0 ∧ ¬ 0 < splitRoom fl limit) := fun h => h.2 h3
  cases fuel with
  | zero => cases hp
  | succ fuel =>
    rw [plan_null hns hw hb hgo hk ((if_pos rfl).trans hbeg)] at hp
    obtain ⟨zs, hz, rfl⟩ := Option.map_eq_some_iff.1 hp
    have hb' : bare ((0 :: ns).drop (splitRoom fl limit)) = false := by
      rw [bare_drop h2.le]
      exact hb
    obtain ⟨ms, hms, e, -⟩ := exists_of_lead
      (show 0 < lead ((0 :: ns).drop (splitRoom fl limit)) by rw [lead_drop h2.le]; omega)
    have hs' := hs.drop (splitRoom fl limit)
    rw [e] at hz hb' hs'
    have hlong' := Nat.mod_eq_of_lt (hs' 0 hb')
    rw [List.drop_zero] at hlong'
    have hpos : 0 < splitRoom fl limit * width := Nat.mul_pos h3 hw
    cases fuel with
    | zero => cases hz
    | succ fuel =>
      obtain ⟨k, hk'⟩ : ∃ k, splitQuota fl limit (lead (0 :: ms) % 2 ^ 32) 0 = k := ⟨_, rfl⟩
      have hkpos : 0 < k := by
        rw [← hk', hlong']
        exact splitQuota_pos (.inr h3) (by rw [lead_cons_zero hms]; omega)
      rw [if_neg Bool.false_ne_true, Nat.add_zero,
        plan_null hms hw hb' hgo hk' ((if_neg (by omega)).trans hmid)] at hz
      obtain ⟨zs, -, rfl⟩ := Option.map_eq_some_iff.1 hz
      obtain ⟨k, rfl⟩ := Nat.exists_eq_succ_of_ne_zero hkpos.ne'
      exact ⟨_, rfl, rfl⟩

/-- Behind a run at the beginning that is not kept there is a field. -/
theorem wanted_cutRun (hbeg : fl.begNull = false) (hb : bare ns = false) :
    ∃ y, (wanted fl width true pos ns).head? = some y ∧ y.len ≠ 0 := by
  induction ns generalizing pos with
  | nil => cases hb
  | cons n ns ih =>
    cases n with
    | succ n =>
      by_cases hns : ns = []
      · subst hns
        exact ⟨_, by rw [wanted, if_pos (.inl (Nat.succ_ne_zero n))]; rfl, Nat.succ_ne_zero n⟩
      · exact ⟨_, by rw [wanted_field hns]; rfl, Nat.succ_ne_zero n⟩
    | zero =>
      have hns : ns ≠ [] := by
        rintro rfl
        cases hb
      obtain ⟨y, h⟩ := ih hb
      refine ⟨y, ?_⟩
      rw [wanted_null hns hb, if_pos rfl, hbeg]
      exact h

/-- Sections with something in front are not what a limit leaves of others. -/
theorem Limited.head_len (h : Limited fl limit fin ys us) (hr : 0 < splitRoom fl limit)
    {y u : Sect} (hy : ys.head? = some y) (hu : us.head? = some u) : y = u := by
  obtain ⟨us, rfl⟩ := List.head?_eq_some_iff.1 hu
  cases hrem : fl.remain with
  | false =>
    rw [splitRoom_plain hrem] at hr
    obtain ⟨l, rfl⟩ := Nat.exists_eq_succ_of_ne_zero hr.ne'
    rw [h.plain hrem] at hy
    exact (Option.some.inj hy).symm
  | true =>
    rw [splitRoom_remain hrem] at hr
    rcases h.rest hrem with ⟨rfl, -⟩ | ⟨z, rfl, -, -⟩
    · exact (Option.some.inj hy).symm
    · obtain ⟨l, hl⟩ := Nat.exists_eq_succ_of_ne_zero hr.ne'
      rw [hl] at hy
      exact (Option.some.inj hy).symm

/-! ## How many fields are kept -/

/-- How many fields of these lengths the flags keep, as `wanted`. -/
def kept (fl : SplitFlags) : Bool → List Nat → Nat
  | _, [] => 0
  | _, [n] => if n ≠ 0 ∨ fl.postNull = true then 1 else 0
  | front, 0 :: m :: ms =>
    if bare (m :: ms) then
      if front ∧ ¬ fl.begNull then 0
      else if fl.endNull then ms.length + 1 + if fl.postNull then 1 else 0
      else if fl.remain then 1 else 0
    else (if (if front then fl.begNull else fl.midNull) then 1 else 0) + kept fl front (m :: ms)
  | _, (_ + 1) :: m :: ms => kept fl false (m :: ms) + 1

theorem kept_field {n : Nat} (hne : ns ≠ []) :
    kept fl front ((n + 1) :: ns) = kept fl false ns + 1 := by
  obtain ⟨m, ms, rfl⟩ := List.exists_cons_of_ne_nil hne
  rw [kept]

theorem kept_null (hne : ns ≠ []) (hb : bare ns = false) :
    kept fl front (0 :: ns) =
      (if (if front then fl.begNull else fl.midNull) then 1 else 0) + kept fl front ns := by
  obtain ⟨m, ms, rfl⟩ := List.exists_cons_of_ne_nil hne
  rw [kept, if_neg (by rw [hb]; exact Bool.false_ne_true)]

theorem kept_bare (hne : ns ≠ []) (hb : bare ns = true) :
    kept fl front (0 :: ns) = if front = true ∧ ¬ fl.begNull = true then 0
      else if fl.endNull then ns.length + if fl.postNull then 1 else 0
      else if fl.remain then 1 else 0 := by
  obtain ⟨m, ms, rfl⟩ := List.exists_cons_of_ne_nil hne
  rw [kept, if_pos hb]
  rfl

theorem length_wanted (fl : SplitFlags) (hw : 0 < width) (front : Bool) (pos : Nat)
    (hs : ShortEnd ns) : (wanted fl width front pos ns).length = kept fl front ns := by
  induction ns generalizing front pos with
  | nil => rfl
  | cons n ns ih =>
    by_cases hns : ns = []
    · subst hns
      rw [wanted, kept]
      split <;> rfl
    cases n with
    | succ n =>
      rw [wanted_field hns, kept_field hns, List.length_cons, ih _ _ ((shortEnd_cons rfl).1 hs)]
    | zero =>
      cases hb : bare ns with
      | true =>
        rw [wanted_counted hns hw hb hs, kept_bare hns hb]
        split_ifs <;> simp [length_nullsAt]
      | false =>
        have hb' : bare (0 :: ns) = false := hb
        rw [wanted_null hns hb, kept_null hns hb, List.length_append,
          ih _ _ ((shortEnd_cons hb').1 hs)]
        split_ifs <;> rfl

/-- Where the flags keep two empty fields at the end, they keep too many of too many. -/
theorem kept_long (h : spareLast fl front ns = true) (hs : ¬ ShortEnd ns) :
    2 ^ 32 < kept fl front ns := by
  induction ns generalizing front with
  | nil => exact absurd (spareLast_iff.1 h).2.2.1.length_le (by simp)
  | cons n ns ih =>
    by_cases hns : ns = []
    · subst hns
      exact absurd (spareLast_iff.1 h).2.2.1.length_le (by simp)
    cases n with
    | succ n =>
      rw [spareLast_field] at h
      have := ih h (mt (shortEnd_cons rfl).2 hs)
      rw [kept_field hns]
      omega
    | zero =>
      cases hb : bare ns with
      | true =>
        have hb' : bare (0 :: ns) = true := hb
        obtain ⟨he, hp, hf⟩ := (spareLast_bare hns hb).1 h
        have hlong := mt (shortEnd_bare hb').2 hs
        rw [(@lead_bare 0 _ (List.cons_ne_nil 0 ns) hb').1, List.length_cons] at hlong
        rw [kept_bare hns hb, if_neg hf, if_pos he, if_pos hp]
        omega
      | false =>
        have hb' : bare (0 :: ns) = false := hb
        have hpos : 1 ≤ lead (0 :: ns) := by
          rw [lead_cons_zero hns]
          omega
        rw [@spareLast_drop _ _ _ front _ hpos hb, List.drop_one, List.tail_cons] at h
        have := ih h (mt (shortEnd_cons hb').2 hs)
        rw [kept_null hns hb]
        omega

/-! ## The theorem -/

/-- No more sections are added, and counted, than are wanted. -/
theorem splitFill_le (fl : SplitFlags) (ys : List Sect) (added : Nat) (x : Sects) (s : St) :
    ((splitFill fl ys added x).run s).1.1 ≤ added + ys.length ∧
      ((splitFill fl ys added x).run s).1.2.ptr.length ≤ x.ptr.length + ys.length := by
  induction ys generalizing added x s with
  | nil => exact ⟨Nat.le_refl _, Nat.le_refl _⟩
  | cons y ys ih =>
    obtain ⟨ok, x', n, hx, e⟩ := sectsAdd_run s.heap y.pos y.len x
    have e' : (sectsAdd y.pos y.len x).run s = ((ok, x'), s.tick n) := e s.base
    have hptr : x'.ptr.length ≤ x.ptr.length + 1 := by
      rw [hx.ptr]
      split
      · rw [List.length_append, List.length_singleton]
      · exact Nat.le_succ _
    rw [splitFill_cons_run e', List.length_cons]
    cases ok with
    | true =>
      obtain ⟨h1, h2⟩ := ih (added + 1) x' (s.tick n)
      exact ⟨h1.trans (by omega), h2.trans (by omega)⟩
    | false =>
      have herr : (splitHdlErr fl added x').2.ptr.length ≤ x'.ptr.length ∧
          ∀ r, (splitHdlErr fl added x').1 = some r → r ≤ 1 := by
        unfold splitHdlErr
        split
        · refine ⟨List.length_take_le' _ _, fun r h => ?_⟩
          rw [← Option.some.inj h]
          exact Nat.zero_le 1
        · split
          · refine ⟨Nat.le_refl _, fun r h => ?_⟩
            rw [← Option.some.inj h]
          · exact ⟨Nat.le_refl _, fun r h => absurd h (Option.some_ne_none r).symm⟩
      unfold afterAdd
      dsimp only
      generalize splitHdlErr fl added x' = r at herr
      obtain ⟨- | ret, x''⟩ := r
      · obtain ⟨h1, h2⟩ := ih (added + 1) x'' (s.tick n)
        have := herr.1
        dsimp only at this
        exact ⟨h1.trans (by omega), h2.trans (by omega)⟩
      · have h1 := herr.1
        have h2 := herr.2 ret rfl
        dsimp only at h1
        exact ⟨h2.trans (by omega), h1.trans (by omega)⟩

/-- What a call with a limit adds and returns, next to a call without one: at most `limit`
sections, which are those of the other call. -/
structure RespectsLimit (m : Nat → Sects → StateM St (Option (Nat × Sects))) (fl : SplitFlags)
    (limit fin : Nat) (s : St) : Prop where
  /-- At most `limit` sections. -/
  bound : ∀ x ret x', ((m limit x).run s).1 = some (ret, x') →
    ret ≤ limit ∧ x'.ptr.length ≤ x.ptr.length + limit
  /-- The same sections. -/
  same : ∃ ys us, Splits (m limit) fl s ys ∧ Splits (m 0) fl s us ∧ Limited fl limit fin ys us

/-- The slice ends with two empty fields that are kept, and one field more than the limit is. -/
def OneMore (fl : SplitFlags) (limit : Nat) (ns : List Nat) : Prop :=
  fl.remain = false ∧ spareLast fl true ns = true ∧ kept fl true ns = limit + 1

theorem Limited.length_le (h : Limited fl limit fin ys us) (hl : limit ≠ 0) :
    ys.length ≤ limit := by
  cases hr : fl.remain with
  | false =>
    rw [h.plain hr]
    exact List.length_take_le _ _
  | true =>
    rcases h.rest hr with ⟨rfl, hle⟩ | ⟨y, rfl, -, -⟩
    · exact hle
    · rw [List.length_append, List.length_take, List.length_singleton]
      omega

theorem RespectsLimit.of {m : Nat → Sects → StateM St (Option (Nat × Sects))} (hl : limit ≠ 0)
    (hy : Splits (m limit) fl s ys) (hu : Splits (m 0) fl s us) (h : Limited fl limit fin ys us) :
    RespectsLimit m fl limit fin s := by
  refine ⟨fun x ret x' e => ?_, ys, us, hy, hu, h⟩
  have hle := h.length_le hl
  obtain ⟨h1, h2⟩ := splitFill_le fl ys 0 x s
  rw [(hy x).1] at e
  rw [Option.some.inj e] at h1 h2
  dsimp only at h1 h2
  omega

/-- The loop respects the limit unless a run at the beginning is cut or the last field is one more
than the limit. -/
theorem splitLoop_limit_iff (hf : seps.Finds c) (ht : seps.Tells c (c.lens xs))
    (w : Window E P s pos len xs) (hs : ShortInside (c.lens xs)) (hl : limit ≠ 0)
    (hlt : limit < 2 ^ 32) (fl : SplitFlags) :
    RespectsLimit (fun limit x => splitLoop seps fl limit pos (len + 1) 0 ⟨pos, len, 0, x⟩) fl limit
      (pos + len) s ↔ ¬ CutRun fl limit (c.lens xs) ∧ ¬ OneMore fl limit (c.lens xs) := by
  obtain ⟨ys, e, hy⟩ := splitLoop_splits hf ht w hs fl limit
  have hu := splitLoop_wanted hf ht w hs fl
  have hfin : stretch c.width (c.lens xs) = len := by rw [c.stretch_lens, w.length]
  have hn (hrun : ¬ CutRun fl limit (c.lens xs)) : NearlyLimited fl
      (spareLast fl true (c.lens xs) = true ∧ ShortEnd (c.lens xs)) limit (pos + len) ys
      (wanted fl c.width true pos (c.lens xs)) := by
    rw [← hfin]
    exact plan_limited c.width_pos c.lens_ne_nil hl (Nat.le_refl _) (decide_eq_true rfl).symm
      (Nat.zero_le _) (fun _ => rfl) (fun _ => rfl) hs (fun _ => hrun) e
  constructor
  · rintro ⟨-, ys', us', hy', hu', h⟩
    obtain rfl := hy.addsAll.unique hy'.addsAll
    obtain rfl := hu.addsAll.unique hu'.addsAll
    have hnrun : ¬ CutRun fl limit (c.lens xs) := by
      intro hrun
      obtain ⟨y, hy0, hylen⟩ := plan_cutRun c.width_pos hl hs hrun e
      obtain ⟨u, hu0, hulen⟩ := wanted_cutRun hrun.1 hrun.2.2.1
      rw [h.head_len hrun.2.2.2.2.2 hy0 hu0] at hylen
      exact hulen hylen
    refine ⟨hnrun, fun ⟨hr, hspare, hk⟩ => ?_⟩
    have he : ShortEnd (c.lens xs) := by
      by_contra he
      have := kept_long hspare he
      omega
    rw [← length_wanted fl c.width_pos true pos he] at hk
    have hlen := h.length_le hl
    rw [(hn hnrun).spared hr ⟨hspare, he⟩ hk, hk] at hlen
    omega
  · rintro ⟨hnrun, hnone⟩
    refine .of hl hy hu ((hn hnrun).cut fun ⟨hr, hspare, hk⟩ => hnone ⟨hr, hspare.1, ?_⟩)
    rw [length_wanted fl c.width_pos true pos hspare.2] at hk
    exact hk

/-- A call that does not return without a limit has nothing that a limit leaves of it. -/
theorem not_respectsLimit (hf : seps.Finds c) {Q : List Nat → Prop} (hq : seps.Stalls c Q)
    (w : Window E P s pos len xs) (h : Q (c.lens xs)) (fl : SplitFlags) :
    ¬ RespectsLimit (fun limit x => splitLoop seps fl limit pos (len + 1) 0 ⟨pos, len, 0, x⟩) fl
      limit (pos + len) s := by
  rintro ⟨-, ys, us, -, hu, -⟩
  have hnone : ((splitLoop seps fl 0 pos (len + 1) 0
      ⟨pos, len, 0, ⟨[], (c.lens xs).length, true, true, false⟩⟩).run s).1 = none :=
    splitLoop_stalls hf hq w h (.inl (Nat.zero_add _).le) (len + 1)
  cases hnone.symm.trans (hu _).1

/-- An empty slice with any separator. -/
theorem splits_nothing (fl : SplitFlags) (limit pos : Nat) (buf : Buf) (s : St) :
    Splits (fun x => splitAnyBuf pos 0 buf x limit fl) fl s
      (if fl.postNull = true then [⟨pos, 0⟩] else []) := by
  intro x
  have h := fills_end s fl limit 0 ⟨pos, 0, 0, x⟩
  have hp : planEnd fl limit (decide ((0 : Nat) ≠ 0)) pos 0 0 =
      if fl.postNull = true then [⟨pos, 0⟩] else [] := by
    rw [planEnd_last]
    simp [Nat.eq_zero_or_pos limit]
  dsimp only at h
  rw [hp] at h
  change Fills (splitAnyBuf pos 0 buf x limit fl) s _
  rw [splitAnyBuf, splitBufMore, Nat.zero_add, Nat.add_zero, splitLoop_succ, splitTurn,
    if_pos (.inl rfl)]
  exact h

/-- With an empty separator nothing but an empty slice is split. -/
theorem splitBuf_limit_empty (w : Window E P s pos len xs) (hb : buf.len = 0) (hl : limit ≠ 0)
    (fl : SplitFlags) :
    RespectsLimit (fun limit x => splitAnyBuf pos len buf x limit fl) fl limit (pos + len) s ↔
      len = 0 := by
  constructor
  · rintro ⟨-, ys, us, -, hu, -⟩
    by_contra hlen
    have h := (hu (Sects.decl 0)).1
    have hnone : ((splitAnyBuf pos len buf (Sects.decl 0) 0 fl).run s).1 = none := by
      rw [splitAnyBuf, splitBufMore, splitLoop_succ, run_bind,
        splitTurn_empty (a := ⟨pos, len, 0, _⟩) hb w.one_le hlen (.inl rfl)]
      rfl
    cases hnone.symm.trans h
  · rintro rfl
    refine .of hl (splits_nothing fl limit pos buf s) (splits_nothing fl 0 pos buf s) ?_
    have hle : (if fl.postNull = true then [(⟨pos, 0⟩ : Sect)] else []).length ≤ limit := by
      split
      · exact Nat.one_le_iff_ne_zero.2 hl
      · exact Nat.zero_le _
    exact ⟨fun _ => (List.take_of_length_le hle).symm, fun _ => .inl ⟨rfl, hle⟩⟩

/-- A split with a limit adds and returns at most that many sections, those of the split without
one, the last of them to the end of the slice with `REMAIN`, if that other one returns and unless
more empty fields than the limit stand at the beginning and are not kept while those in the middle
are, or the slice ends with two empty fields and one field more than the limit is kept. -/
theorem split_limit_iff (w : Window E P s pos len xs) (hl : limit ≠ 0) (hlt : limit < 2 ^ 32)
    (fl : SplitFlags) :
    (∀ (buf : Buf) (hb : buf.len ≠ 0),
      RespectsLimit (fun limit x => splitAnyBuf pos len buf x limit fl) fl limit (pos + len) s ↔
        ShortInside ((buf.sep hb).lens xs) ∧ ¬ CutRun fl limit ((buf.sep hb).lens xs) ∧
          ¬ OneMore fl limit ((buf.sep hb).lens xs)) ∧
    (∀ buf : Buf, buf.len = 0 →
      (RespectsLimit (fun limit x => splitAnyBuf pos len buf x limit fl) fl limit (pos + len) s ↔
        len = 0)) ∧
    ∀ chrs : Option (List UInt8),
      RespectsLimit (fun limit x => splitChrs pos len chrs x limit fl) fl limit (pos + len) s ↔
        Short ((xs.splitOnP (inChrs chrs)).map List.length) ∧
          ¬ CutRun fl limit ((xs.splitOnP (inChrs chrs)).map List.length) ∧
          ¬ OneMore fl limit ((xs.splitOnP (inChrs chrs)).map List.length) := by
  refine ⟨fun buf hb => ?_, fun buf hb => splitBuf_limit_empty w hb hl fl, fun chrs => ?_⟩
  · by_cases hs : ShortInside ((buf.sep hb).lens xs)
    · rw [and_iff_right hs]
      exact splitLoop_limit_iff (bufSeps_finds hb) (bufSeps_tells hb _) w hs hl hlt fl
    · refine iff_of_false ?_ fun h => hs h.1
      exact not_respectsLimit (bufSeps_finds hb) (bufSeps_stalls hb) w hs fl
  · rw [← lens_chrs]
    by_cases hs : Short ((chrsSep chrs).lens xs)
    · rw [and_iff_right hs]
      exact splitLoop_limit_iff (chrsSeps_finds chrs) (chrsSeps_tells chrs hs) w hs.inside hl hlt fl
    · refine iff_of_false ?_ fun h => hs h.1
      exact not_respectsLimit (chrsSeps_finds chrs) (chrsSeps_stalls chrs) w hs fl

/-- Two fields of three. -/
theorem split_limit_two : ∃ P, Window alone P (written [0x61, 0x2C, 0x62, 0x2C, 0x63]) 1 5
      ([0x61, 0x2C, 0x62, 0x2C, 0x63].map some) ∧
    RespectsLimit (fun limit x => splitAnyBuf 1 5 (.bytes [0x2C]) x limit .plain) .plain 2 6
      (written [0x61, 0x2C, 0x62, 0x2C, 0x63]) := by
  obtain ⟨P, w⟩ := window_text [0x61, 0x2C, 0x62, 0x2C, 0x63]
  have hb : Buf.len (.bytes [0x2C]) ≠ 0 := Nat.one_ne_zero
  have hlens : (Buf.sep (.bytes [0x2C]) hb).lens
      ([0x61, 0x2C, 0x62, 0x2C, 0x63].map some) = [1, 1, 1] := rfl
  refine ⟨P, w, ((split_limit_iff w (by decide) (by decide) .plain).1 (.bytes [0x2C]) hb).2 ?_⟩
  rw [hlens]
  exact ⟨(short_of_length (by decide)).inside, fun h => absurd h.2.1 (by decide),
    fun h => absurd h.2.1 (by decide)⟩

/-- Three separators and nothing else are one section more than a limit of three, and of three
separators in front a limit of two leaves an empty field. -/
theorem split_limit_exceeded :
    (∃ P, Window alone P (written [0x2C, 0x2C, 0x2C]) 1 3 ([0x2C, 0x2C, 0x2C].map some) ∧
      ¬ RespectsLimit (fun limit x => splitAnyBuf 1 3 (.bytes [0x2C]) x limit
        ⟨false, true, false, true, true, false⟩) ⟨false, true, false, true, true, false⟩ 3 4
        (written [0x2C, 0x2C, 0x2C])) ∧
    ∃ P, Window alone P (written [0x2C, 0x2C, 0x2C, 0x61]) 1 4
        ([0x2C, 0x2C, 0x2C, 0x61].map some) ∧
      ¬ RespectsLimit (fun limit x => splitAnyBuf 1 4 (.bytes [0x2C]) x limit
        ⟨false, false, true, false, false, false⟩) ⟨false, false, true, false, false, false⟩ 2 5
        (written [0x2C, 0x2C, 0x2C, 0x61]) := by
  have hb : Buf.len (.bytes [0x2C]) ≠ 0 := Nat.one_ne_zero
  constructor
  · obtain ⟨P, w⟩ := window_text [0x2C, 0x2C, 0x2C]
    have hlens : (Buf.sep (.bytes [0x2C]) hb).lens ([0x2C, 0x2C, 0x2C].map some) =
      [0, 0, 0, 0] := rfl
    refine ⟨P, w, fun h => ?_⟩
    have h' := (splitLoop_limit_iff (bufSeps_finds hb) (bufSeps_tells hb _) w
      (by rw [hlens]; exact (short_of_length (by decide)).inside) (by decide) (by decide) _).1 h
    rw [hlens] at h'
    exact h'.2 ⟨rfl, rfl, rfl⟩
  · obtain ⟨P, w⟩ := window_text [0x2C, 0x2C, 0x2C, 0x61]
    have hlens : (Buf.sep (.bytes [0x2C]) hb).lens ([0x2C, 0x2C, 0x2C, 0x61].map some) =
      [0, 0, 0, 1] := rfl
    refine ⟨P, w, fun h => ?_⟩
    have h' := (splitLoop_limit_iff (bufSeps_finds hb) (bufSeps_tells hb _) w
      (by rw [hlens]; exact (short_of_length (by decide)).inside) (by decide) (by decide) _).1 h
    rw [hlens] at h'
    exact h'.1 ⟨rfl, rfl, rfl, by decide, by decide, by decide⟩

end Vstr
