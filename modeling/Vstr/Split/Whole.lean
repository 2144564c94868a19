import Vstr.Split.Stop

/-!
# Splitting without a limit

With every flag for empty fields the sections are all fields of the slice, and with none of
them the fields that are not empty. A list that grows takes them all, or none of them when the
memory for it is refused.
-/

namespace Vstr

open Splice Query Separate

variable {E : Env} {P : Own} {s t : St} {limit orig fuel pos len added width k : Nat}
  {xs : List (Option UInt8)} {ns : List Nat} {ys : List Sect} {fl : SplitFlags} {buf : Buf}
  {chrs : Option (List UInt8)} {seps : Seps} {c : Sep (Option UInt8)} {found front : Bool}
  {x : Sects}

/-! ## A whole call -/

/-- The fuel of a call is enough for its plan. -/
theorem plan_some (hw : 0 < width) (hne : ns ≠ []) (hs : ShortInside ns)
    (hfuel : ns.length ≤ fuel) :
    ∃ ys, plan fl limit width orig fuel found pos added ns = some ys := by
  induction fuel generalizing found pos added ns with
  | zero => exact absurd (List.length_eq_zero_iff.1 (Nat.le_zero.1 hfuel)) hne
  | succ fuel ih =>
    by_cases hgo : limit ≠ 0 ∧ ¬ added < splitRoom fl limit
    · exact ⟨_, plan_stop (.inr hgo)⟩
    have hg : Going fl limit added := not_not.1 fun h => hgo (not_going_iff.1 h)
    obtain ⟨n, ns, rfl⟩ := List.exists_cons_of_ne_nil hne
    rw [List.length_cons] at hfuel
    by_cases hns : ns = []
    · subst hns
      by_cases hn : n = 0
      · exact ⟨_, plan_stop (.inl hn)⟩
      · exact ⟨_, plan_one hn hgo⟩
    cases n with
    | succ n =>
      obtain ⟨ys, e⟩ := ih hns (hs.drop 1) (by omega)
      exact ⟨_, by rw [plan_field hns hgo, e, Option.map_some]⟩
    | zero =>
      cases hb : bare ns with
      | true =>
        rw [plan_bare hns hw hb hgo]
        split <;> exact ⟨_, rfl⟩
      | false =>
        obtain ⟨k, hk⟩ : ∃ k, splitQuota fl limit (lead (0 :: ns) % 2 ^ 32) added = k := ⟨_, rfl⟩
        have hlong := Nat.mod_eq_of_lt (hs 0 (show bare (0 :: ns) = false from hb))
        rw [List.drop_zero] at hlong
        have hpos : 0 < k := by
          rw [← hk, hlong]
          exact splitQuota_pos hg (by rw [lead_cons_zero hns]; omega)
        have hle : k ≤ lead (0 :: ns) := by
          rw [← hk, hlong]
          exact splitQuota_le hg
        have hlt := lead_lt (List.cons_ne_nil 0 ns)
        have hlen : ((0 :: ns).drop k).length = (0 :: ns).length - k := List.length_drop
        rw [List.length_cons] at hlt hlen
        have hrest : ∃ ys, plan fl limit width orig fuel true (pos + k * width)
            (added + if (if pos = orig then fl.begNull else fl.midNull) then k else 0)
            ((0 :: ns).drop k) = some ys :=
          ih (List.ne_nil_of_length_pos (by omega)) (hs.drop k) (by omega)
        obtain ⟨ys, e⟩ := hrest
        exact ⟨_, by rw [plan_null hns hw hb hgo hk rfl, e, Option.map_some]⟩

/-- What a call does to a list: it adds these sections, whatever the list. -/
def Splits (m : Sects → StateM St (Option (Nat × Sects))) (fl : SplitFlags) (s : St)
    (ys : List Sect) : Prop :=
  ∀ x, Fills (m x) s (splitFill fl ys 0 x)

/-- A call wants the sections of its plan. -/
theorem splitLoop_splits (hf : seps.Finds c) (ht : seps.Tells c (c.lens xs))
    (w : Window E P s pos len xs) (hs : ShortInside (c.lens xs)) (fl : SplitFlags) (limit : Nat) :
    ∃ ys, plan fl limit c.width pos (len + 1) false pos 0 (c.lens xs) = some ys ∧
      Splits (fun x => splitLoop seps fl limit pos (len + 1) 0 ⟨pos, len, 0, x⟩) fl s ys := by
  have hl := length_le_stretch c.width_pos (c.lens xs)
  rw [c.stretch_lens, w.length] at hl
  obtain ⟨ys, e⟩ := plan_some c.width_pos c.lens_ne_nil hs hl
  exact ⟨ys, e, fun x => splitLoop_fills (a := ⟨pos, len, 0, x⟩) hf w ht (Nat.le_refl _)
    (fun _ => rfl) e⟩

/-- Without a limit a call wants the fields that the flags keep. -/
theorem splitLoop_wanted (hf : seps.Finds c) (ht : seps.Tells c (c.lens xs))
    (w : Window E P s pos len xs) (hs : ShortInside (c.lens xs)) (fl : SplitFlags) :
    Splits (fun x => splitLoop seps fl 0 pos (len + 1) 0 ⟨pos, len, 0, x⟩) fl s
      (wanted fl c.width true pos (c.lens xs)) := by
  obtain ⟨ys, e, h⟩ := splitLoop_splits hf ht w hs fl 0
  have hl := length_le_stretch c.width_pos (c.lens xs)
  rw [c.stretch_lens, w.length] at hl
  rw [plan_unlimited c.width_pos c.lens_ne_nil hs hl (Nat.le_refl _) (decide_eq_true rfl).symm] at e
  rwa [Option.some.inj e]

/-! ## Which fields -/

/-- The sections of all fields of these lengths. -/
def fieldSects (width pos : Nat) : List Nat → List Sect
  | [] => []
  | n :: ns => ⟨pos, n⟩ :: fieldSects width (pos + n + width) ns

theorem fieldSects_bare (hne : ns ≠ []) (hb : bare ns = true) :
    fieldSects width pos ns =
      nullsAt width pos (ns.length - 1) ++ [⟨pos + (ns.length - 1) * width, 0⟩] := by
  induction ns generalizing pos with
  | nil => exact absurd rfl hne
  | cons n ns ih =>
    cases n with
    | succ n => cases hb
    | zero =>
      by_cases hns : ns = []
      · subst hns
        rw [List.length_singleton, Nat.sub_self, Nat.zero_mul]
        rfl
      · obtain ⟨m, ms, rfl⟩ := List.exists_cons_of_ne_nil hns
        rw [fieldSects, ih hns hb]
        simp only [List.length_cons, Nat.add_sub_cancel]
        rw [nullsAt, Nat.succ_mul ms.length, Nat.add_zero, Nat.add_comm (ms.length * width),
          ← Nat.add_assoc]
        rfl

/-- All flags for empty fields. -/
structure SplitFlags.AllNull (fl : SplitFlags) : Prop where
  /-- `REMAIN`. -/
  remain : fl.remain = false
  /-- `BEG_NULL`. -/
  begNull : fl.begNull = true
  /-- `MID_NULL`. -/
  midNull : fl.midNull = true
  /-- `END_NULL`. -/
  endNull : fl.endNull = true
  /-- `POST_NULL`. -/
  postNull : fl.postNull = true

/-- No flag for empty fields. -/
structure SplitFlags.NoNull (fl : SplitFlags) : Prop where
  /-- `REMAIN`. -/
  remain : fl.remain = false
  /-- `BEG_NULL`. -/
  begNull : fl.begNull = false
  /-- `MID_NULL`. -/
  midNull : fl.midNull = false
  /-- `END_NULL`. -/
  endNull : fl.endNull = false
  /-- `POST_NULL`. -/
  postNull : fl.postNull = false

/-- With all flags every field is kept. -/
theorem wanted_allNull (h : fl.AllNull) (hw : 0 < width) (front : Bool) (pos : Nat)
    (hs : ShortEnd ns) : wanted fl width front pos ns = fieldSects width pos ns := by
  induction ns generalizing front pos with
  | nil => rw [wanted, fieldSects]
  | cons n ns ih =>
    by_cases hns : ns = []
    · subst hns
      rw [wanted, if_pos (.inr h.postNull)]
      rfl
    · cases n with
      | succ n =>
        rw [wanted_field hns, ih _ _ ((shortEnd_cons rfl).1 hs), fieldSects, ← Nat.add_assoc pos]
      | zero =>
        cases hb : bare ns with
        | true =>
          rw [fieldSects_bare (List.cons_ne_nil 0 ns) hb, wanted_counted hns hw hb hs,
            if_neg (by simp [h.begNull]), if_pos h.endNull, if_pos h.postNull]
          rfl
        | false =>
          have hb' : bare (0 :: ns) = false := hb
          rw [wanted_null hns hb, ih _ _ ((shortEnd_cons hb').1 hs), fieldSects, h.begNull,
            h.midNull,
            ite_self, if_pos rfl]
          rfl

/-- Of too many empty fields at the end not all are kept. -/
theorem wanted_allNull_long (h : fl.AllNull) (hw : 0 < width) (front : Bool) (pos : Nat)
    (hs : ¬ ShortEnd ns) : (wanted fl width front pos ns).length < ns.length := by
  induction ns generalizing front pos with
  | nil => exact absurd (fun i _ => by rw [List.drop_nil]; exact Nat.two_pow_pos 32) hs
  | cons n ns ih =>
    have hns : ns ≠ [] := by
      rintro rfl
      refine hs fun i _ => ?_
      rw [lead_singleton_drop]
      exact Nat.two_pow_pos 32
    rw [List.length_cons]
    cases n with
    | succ n =>
      rw [wanted_field hns, List.length_cons]
      exact Nat.succ_lt_succ (ih _ _ (mt (shortEnd_cons rfl).2 hs))
    | zero =>
      cases hb : bare ns with
      | false =>
        have hb' : bare (0 :: ns) = false := hb
        have hlt := ih front (pos + width) (mt (shortEnd_cons hb').2 hs)
        rw [wanted_null hns hb, h.begNull, h.midNull, ite_self, if_pos rfl, List.length_append,
          List.length_singleton]
        omega
      | true =>
        obtain ⟨h1, h2⟩ := @lead_bare width _ (List.cons_ne_nil 0 ns) hb
        have hlong := mt (shortEnd_bare (show bare (0 :: ns) = true from hb)).2 hs
        rw [List.length_cons, Nat.add_sub_cancel] at h1 h2
        rw [h1] at hlong
        have hmod := Nat.mod_lt ns.length (Nat.two_pow_pos 32)
        have hrest : ns.length * width - ns.length % 2 ^ 32 * width ≠ 0 := by
          have := Nat.mul_lt_mul_of_pos_right (show ns.length % 2 ^ 32 < ns.length by omega) hw
          omega
        rw [wanted_bare hns hb, if_neg (by simp [h.begNull]), h1, h2, planNullEnd,
          if_pos h.endNull, splitQuota_zero, if_neg, List.append_nil, length_nullsAt]
        · omega
        · rintro (⟨-, hr⟩ | ⟨hz, -⟩)
          · exact Bool.false_ne_true (h.remain.symm.trans hr)
          · exact hrest hz

/-- Without flags the fields that are not empty are kept. -/
theorem wanted_noNull (h : fl.NoNull) (front : Bool) (pos : Nat) (ns : List Nat) :
    wanted fl width front pos ns = (fieldSects width pos ns).filter (·.len ≠ 0) := by
  induction ns generalizing front pos with
  | nil => rw [wanted, fieldSects, List.filter_nil]
  | cons n ns ih =>
    by_cases hns : ns = []
    · subst hns
      rw [wanted, h.postNull]
      by_cases hn : n = 0 <;> simp [fieldSects, hn]
    · cases n with
      | succ n =>
        rw [wanted_field hns, ih, fieldSects, List.filter_cons_of_pos (by simp),
          ← Nat.add_assoc pos]
      | zero =>
        cases hb : bare ns with
        | true =>
          have hn : ∀ k, (nullsAt width pos k).filter (·.len ≠ 0) = [] := by
            intro k
            induction k generalizing pos with
            | zero => rfl
            | succ k ihk => rw [nullsAt, List.filter_cons_of_neg (by simp), ihk]
          obtain ⟨m, ms, rfl⟩ := List.exists_cons_of_ne_nil hns
          rw [fieldSects_bare (List.cons_ne_nil 0 (m :: ms)) hb, wanted, if_pos hb,
            List.filter_append, hn, planNullEnd, h.endNull, h.remain, h.postNull]
          simp [nullsAt]
        | false =>
          rw [wanted_null hns hb, ih, fieldSects, h.begNull, h.midNull, ite_self,
            List.filter_cons_of_neg (by simp)]
          rfl

/-! ## A list that grows -/

/-- Sections are added one after the other, as long as there is memory. -/
def addSects : List Sect → Sects → StateM St (Bool × Sects)
  | [], x => return (true, x)
  | y :: ys, x => do
    match ← sectsAdd y.pos y.len x with
    | (true, x) => addSects ys x
    | (false, x) => return (false, x)

/-- One section is added, and then the others. -/
theorem splitFill_cons_run {y : Sect} {x' : Sects} {ok : Bool}
    (e : (sectsAdd y.pos y.len x).run s = ((ok, x'), t)) :
    (splitFill fl (y :: ys) added x).run s =
      (match afterAdd fl ⟨0, 0, added, x⟩ (ok, x') with
        | (some ret, a) => (pure (ret, a.sects) : StateM St (Nat × Sects))
        | (none, a) => splitFill fl ys a.added a.sects).run t := by
  rw [splitFill, splitAdd_eq, bind_assoc, run_bind]
  dsimp only
  rw [e]
  rfl

/-- A list that grows takes all sections, or it is as before. -/
theorem splitFill_grows (hc : x.canAddSz = true) (ha : added ≤ x.ptr.length) (s : St) :
    (((addSects ys x).run s).1.1 = true →
      ((splitFill fl ys added x).run s).1 = (added + ys.length, ((addSects ys x).run s).1.2) ∧
        ((addSects ys x).run s).1.2.ptr = x.ptr ++ ys) ∧
    (((addSects ys x).run s).1.1 = false →
      ((splitFill fl ys added x).run s).1 = (0, { ((addSects ys x).run s).1.2 with
        ptr := x.ptr.take (x.ptr.length - added) })) := by
  induction ys generalizing x added s with
  | nil => exact ⟨fun _ => ⟨rfl, (List.append_nil _).symm⟩,
      fun h => Bool.noConfusion (show true = false from h)⟩
  | cons y ys ih =>
    obtain ⟨ok, x', n, hx, e⟩ := sectsAdd_run s.heap y.pos y.len x
    have e' : (sectsAdd y.pos y.len x).run s = ((ok, x'), s.tick n) := e s.base
    have hadd : (addSects (y :: ys) x).run s =
        (if ok then addSects ys x' else (pure (false, x') : StateM St (Bool × Sects))).run
          (s.tick n) := by
      rw [addSects, run_bind, e']
      cases ok <;> rfl
    rw [splitFill_cons_run e', hadd]
    cases ok with
    | true =>
      have hp : x'.ptr = x.ptr ++ [y] := hx.ptr
      obtain ⟨h1, h2⟩ := @ih (added + 1) x' (by rw [hx.canAddSz, hc])
        (by rw [hp, List.length_append, List.length_singleton]; omega) (s.tick n)
      rw [hp, List.length_append, List.length_singleton, Nat.add_sub_add_right,
        List.take_append_of_le_length (Nat.sub_le _ _)] at h2
      rw [hp, List.append_assoc, List.singleton_append, Nat.add_right_comm] at h1
      exact ⟨h1, h2⟩
    | false =>
      have hm : x'.mallocBad = true := hx.mallocBad hc rfl
      have hp : x'.ptr = x.ptr := hx.ptr
      refine ⟨fun h => Bool.noConfusion (show false = true from h), fun _ => ?_⟩
      have herr : splitHdlErr fl added x' =
          (some 0, { x' with ptr := x'.ptr.take (x'.ptr.length - added) }) := if_pos hm
      rw [afterAdd]
      dsimp only
      rw [herr, hp]
      rfl

/-- All sections are added and counted, or the list could not grow and is as before. -/
def AddsAll (m : Sects → StateM St (Option (Nat × Sects))) (s : St) (ys : List Sect) : Prop :=
  ∀ x, x.canAddSz = true →
    (((addSects ys x).run s).1.1 = true →
      ((m x).run s).1 = some (ys.length, ((addSects ys x).run s).1.2) ∧
        ((addSects ys x).run s).1.2.ptr = x.ptr ++ ys) ∧
    (((addSects ys x).run s).1.1 = false →
      ((m x).run s).1 = some (0, { ((addSects ys x).run s).1.2 with ptr := x.ptr }))

theorem Splits.addsAll {m : Sects → StateM St (Option (Nat × Sects))} (h : Splits m fl s ys) :
    AddsAll m s ys := by
  intro x hc
  obtain ⟨h1, h2⟩ := splitFill_grows hc (Nat.zero_le x.ptr.length) s
  rw [Nat.zero_add] at h1
  rw [Nat.sub_zero, List.take_length] at h2
  have e := (h x).1
  exact ⟨fun ht => ⟨by rw [e, (h1 ht).1], (h1 ht).2⟩, fun hf => by rw [e, h2 hf]⟩

/-- The numbers of the list stay those of an `unsigned int`. -/
theorem Splits.fits {m : Sects → StateM St (Option (Nat × Sects))} (h : Splits m fl s ys)
    (hx : x.Fits) {r : Nat × Sects} (e : ((m x).run s).1 = some r) : r.2.Fits := by
  rw [(h x).1] at e
  rw [← Option.some.inj e]
  exact splitFill_fits fl ys 0 hx s

/-! ## A list with room -/

theorem addSects_room (h : x.ptr.length + ys.length ≤ x.sz) (s : St) :
    ((addSects ys x).run s).1.1 = true := by
  induction ys generalizing x s with
  | nil => rfl
  | cons y ys ih =>
    rw [List.length_cons] at h
    have e := sectsAdd_yields s y.pos y.len (x := x) (by omega)
    rw [addSects, run_bind, e.1]
    refine ih (x := x.push y.pos y.len) ?_ _
    rw [Sects.push, List.length_append, List.length_singleton]
    exact (show x.ptr.length + 1 + ys.length ≤ x.sz by omega)

/-! ## The theorem -/

theorem lens_chrs (chrs : Option (List UInt8)) (xs : List (Option UInt8)) :
    (chrsSep chrs).lens xs = (xs.splitOnP (inChrs chrs)).map List.length := by
  rw [Sep.lens, chrsSep, fields_among]

/-- One character as a set and as a string. -/
theorem lens_chr (b : UInt8) (hb : Buf.len (.bytes [b]) ≠ 0) (xs : List (Option UInt8)) :
    (chrsSep (some [b])).lens xs = (Buf.sep (.bytes [b]) hb).lens xs := by
  have hh : ∀ ys, (chrsSep (some [b])).hit ys = (Buf.sep (.bytes [b]) hb).hit ys := by
    intro ys
    change ys.head?.any (inChrs (some [b])) = decide ([some b] <+: ys)
    rcases ys with - | ⟨- | y, ys⟩
    · rfl
    · simp [inChrs, List.cons_prefix_cons]
    · simp [inChrs, List.cons_prefix_cons, eq_comm]
  rw [Sep.lens, Sep.lens, Sep.fields_congr _ hh rfl]

/-- A call without a limit gives these fields, or those that are not empty. -/
structure GivesFields (m : SplitFlags → Sects → StateM St (Option (Nat × Sects))) (s : St)
    (ys : List Sect) : Prop where
  /-- All flags for empty fields. -/
  all : ∀ fl : SplitFlags, fl.AllNull → AddsAll (m fl) s ys
  /-- No flag for empty fields. -/
  plain : ∀ fl : SplitFlags, fl.NoNull → AddsAll (m fl) s (ys.filter (·.len ≠ 0))

theorem length_fieldSects (width pos : Nat) (ns : List Nat) :
    (fieldSects width pos ns).length = ns.length := by
  induction ns generalizing pos with
  | nil => rfl
  | cons n ns ih => rw [fieldSects, List.length_cons, List.length_cons, ih]

/-- Two splits that add the same sections to every list want the same ones. -/
theorem AddsAll.unique {m : Sects → StateM St (Option (Nat × Sects))} {zs : List Sect}
    (h : AddsAll m s ys) (h' : AddsAll m s zs) : ys = zs := by
  have hroom := addSects_room (x := ⟨[], ys.length + zs.length, true, true, false⟩)
    (show 0 + ys.length ≤ ys.length + zs.length by omega) s
  have hroom' := addSects_room (x := ⟨[], ys.length + zs.length, true, true, false⟩)
    (show 0 + zs.length ≤ ys.length + zs.length by omega) s
  have e := (h _ rfl).1 hroom
  have e' := (h' _ rfl).1 hroom'
  have hx := congrArg Prod.snd (Option.some.inj (e.1.symm.trans e'.1))
  dsimp only at hx
  rw [hx, e'.2] at e
  exact e.2.symm

/-- A call that does not return gives no fields. -/
theorem not_givesFields (hf : seps.Finds c) {Q : List Nat → Prop} (hq : seps.Stalls c Q)
    (w : Window E P s pos len xs) (h : Q (c.lens xs)) :
    ¬ GivesFields (fun fl x => splitLoop seps fl 0 pos (len + 1) 0 ⟨pos, len, 0, x⟩) s
      (fieldSects c.width pos (c.lens xs)) := by
  intro hg
  have hl := length_fieldSects c.width pos (c.lens xs)
  have hadd := addSects_room (x := ⟨[], (c.lens xs).length, true, true, false⟩)
    (by rw [hl]; exact (Nat.zero_add _).le) s
  have he := ((hg.all ⟨false, true, true, true, true, false⟩ ⟨rfl, rfl, rfl, rfl, rfl⟩ _ rfl).1
    hadd).1
  have hnone : ((splitLoop seps ⟨false, true, true, true, true, false⟩ 0 pos (len + 1) 0
      ⟨pos, len, 0, ⟨[], (c.lens xs).length, true, true, false⟩⟩).run s).1 = none :=
    splitLoop_stalls hf hq w h (.inl (Nat.zero_add _).le) (len + 1)
  cases hnone.symm.trans he

/-- The loop gives all fields if those at the end can be counted as well. -/
theorem splitLoop_fields_iff (hf : seps.Finds c) (ht : seps.Tells c (c.lens xs))
    (w : Window E P s pos len xs) (hs : ShortInside (c.lens xs)) :
    GivesFields (fun fl x => splitLoop seps fl 0 pos (len + 1) 0 ⟨pos, len, 0, x⟩) s
      (fieldSects c.width pos (c.lens xs)) ↔ ShortEnd (c.lens xs) := by
  constructor
  · intro h
    by_contra he
    have hfl : SplitFlags.AllNull ⟨false, true, true, true, true, false⟩ :=
      ⟨rfl, rfl, rfl, rfl, rfl⟩
    have hall := (splitLoop_wanted hf ht w hs ⟨false, true, true, true, true, false⟩).addsAll
    have hlt := wanted_allNull_long hfl c.width_pos true pos he
    rw [hall.unique (h.all _ hfl), length_fieldSects] at hlt
    exact Nat.lt_irrefl _ hlt
  · intro he
    refine ⟨fun fl hfl => ?_, fun fl hfl => ?_⟩
    · have h := splitLoop_wanted hf ht w hs fl
      rw [wanted_allNull hfl c.width_pos true pos he] at h
      exact h.addsAll
    · have h := splitLoop_wanted hf ht w hs fl
      rw [wanted_noNull hfl] at h
      exact h.addsAll

/-- Without a limit a split gives the fields of the slice, all of them or those that are not
empty, if empty fields in a row can be counted. Then one character as a set is the same as a
string of one, with any limit and flags. -/
theorem split_recovers_fields_iff (w : Window E P s pos len xs) :
    (∀ (buf : Buf) (hb : buf.len ≠ 0),
      buf.contents.intercalate ((buf.sep hb).fields xs) = xs ∧
      (GivesFields (fun fl x => splitAnyBuf pos len buf x 0 fl) s
        (fieldSects buf.len pos (((buf.sep hb).fields xs).map List.length)) ↔
        Short (((buf.sep hb).fields xs).map List.length))) ∧
    (∀ chrs : Option (List UInt8),
      GivesFields (fun fl x => splitChrs pos len chrs x 0 fl) s
        (fieldSects 1 pos ((xs.splitOnP (inChrs chrs)).map List.length)) ↔
        Short ((xs.splitOnP (inChrs chrs)).map List.length)) ∧
    ∀ b : UInt8, Short ((xs.splitOnP (inChrs (some [b]))).map List.length) →
      ∀ x limit fl, ((splitChrs pos len (some [b]) x limit fl).run s).1 =
        ((splitAnyBuf pos len (.bytes [b]) x limit fl).run s).1 := by
  refine ⟨fun buf hb => ⟨fields_word_join _ xs, ?_⟩, fun chrs => ?_, fun b hs x limit fl => ?_⟩
  · rw [← Buf.width_sep hb]
    by_cases hs : ShortInside ((buf.sep hb).lens xs)
    · refine (splitLoop_fields_iff (bufSeps_finds hb) (bufSeps_tells hb _) w hs).trans ?_
      exact ⟨fun he => short_iff.2 ⟨hs, he⟩, fun h => (short_iff.1 h).2⟩
    · refine iff_of_false ?_ fun h => hs h.inside
      exact not_givesFields (bufSeps_finds hb) (bufSeps_stalls hb) w hs
  · rw [← lens_chrs]
    by_cases hs : Short ((chrsSep chrs).lens xs)
    · have h := splitLoop_fields_iff (chrsSeps_finds chrs) (chrsSeps_tells chrs hs) w hs.inside
      refine h.trans ?_
      exact ⟨fun _ => hs, fun _ => (short_iff.1 hs).2⟩
    · refine iff_of_false ?_ hs
      exact not_givesFields (chrsSeps_finds chrs) (chrsSeps_stalls chrs) w hs
  · rw [← lens_chrs] at hs
    have hb : Buf.len (.bytes [b]) ≠ 0 := Nat.one_ne_zero
    obtain ⟨ys, e, h⟩ := splitLoop_splits (chrsSeps_finds (some [b])) (chrsSeps_tells _ hs) w
      hs.inside fl limit
    rw [lens_chr b hb] at hs e
    obtain ⟨zs, e', h'⟩ := splitLoop_splits (bufSeps_finds hb) (bufSeps_tells hb _) w hs.inside fl
      limit
    obtain rfl : ys = zs := Option.some.inj (e.symm.trans e')
    exact (h x).1.trans (h' x).1.symm

/-- Two bytes, with separators in front, in the middle and behind. -/
theorem split_recovers_fields_short :
    ∃ P, Window alone P (written [0x2C, 0x61, 0x2C, 0x2C, 0x62, 0x2C]) 1 6
        ([0x2C, 0x61, 0x2C, 0x2C, 0x62, 0x2C].map some) ∧
      GivesFields (fun fl x => splitAnyBuf 1 6 (.bytes [0x2C]) x 0 fl)
        (written [0x2C, 0x61, 0x2C, 0x2C, 0x62, 0x2C])
        [⟨1, 0⟩, ⟨2, 1⟩, ⟨4, 0⟩, ⟨5, 1⟩, ⟨7, 0⟩] := by
  obtain ⟨P, w⟩ := window_text [0x2C, 0x61, 0x2C, 0x2C, 0x62, 0x2C]
  have hb : Buf.len (.bytes [0x2C]) ≠ 0 := Nat.one_ne_zero
  have hl : ((Buf.sep (.bytes [0x2C]) hb).fields
      ([0x2C, 0x61, 0x2C, 0x2C, 0x62, 0x2C].map some)).map List.length = [0, 1, 0, 1, 0] := rfl
  refine ⟨P, w, ((split_recovers_fields_iff w).1 (.bytes [0x2C]) hb).2.2 ?_⟩
  rw [hl]
  exact short_of_length (by decide)

/-- A run of separators that is cut to none is not passed. -/
theorem splitLoop_cut (hf : seps.Finds c) {Q : List Nat → Prop} (hq : seps.Stalls c Q)
    {a : SplitAt} {splitPos : Nat} (w : Window E P t a.pos a.len xs) (hhit : c.hit xs = true)
    (h : Q (c.lens xs)) (h0 : lead (c.lens xs) % 2 ^ 32 = 0) :
    ((splitLoop seps fl 0 orig fuel splitPos a).run t).1 = none := by
  induction fuel generalizing t splitPos with
  | zero => rfl
  | succ fuel ih =>
    have hpos := w.one_le
    have hle := c.width_le hhit
    have hw := c.width_pos
    have hl := w.length
    have hstop : ¬ (a.len = 0 ∨ ((0 : Nat) ≠ 0 ∧ ¬ a.added <
        uintSub 0 (if fl.remain then 1 else 0))) := by
      rintro (h | h)
      · omega
      · exact h.1 rfl
    have hfound : foundAt a.pos (c.lens xs) = a.pos := by
      obtain ⟨m, ms, e⟩ := List.exists_cons_of_ne_nil c.lens_ne_nil
      rw [c.lens_hit hhit, e]
      rfl
    have hu := hf.srch w
    have wu := w.reads hu.2
    have hturn : (splitTurn seps fl 0 orig splitPos a).run t =
        (splitTurnNull seps fl 0 orig a.pos a).run ((seps.srch a.pos a.len).run t).2 := by
      rw [splitTurn, if_neg hstop, run_bind, hu.1, hfound, if_neg (by omega), if_pos (.inr rfl)]
    have hnext : Yields Reads (splitTurnNull seps fl 0 orig a.pos a)
        ((seps.srch a.pos a.len).run t).2 (.next a.pos a) := by
      refine (hq.nullEnd wu hhit h).bind fun v _ => ?_
      rw [h0]
      exact .pure v _
    rw [splitLoop_succ, run_bind, hturn, hnext.1]
    exact ih (wu.reads hnext.2)

theorem lens_replicate (x : UInt8) (hb : Buf.len (.bytes [x]) ≠ 0) (k : Nat)
    (ys : List (Option UInt8)) :
    (Buf.sep (.bytes [x]) hb).lens (List.replicate k (some x) ++ ys) =
      List.replicate k 0 ++ (Buf.sep (.bytes [x]) hb).lens ys := by
  induction k with
  | zero => rfl
  | succ k ih =>
    rw [List.replicate_succ, List.replicate_succ, List.cons_append, List.cons_append, ← ih,
      Sep.lens_hit]
    · rfl
    · exact decide_eq_true ⟨_, rfl⟩

theorem lead_replicate (k : Nat) {ns : List Nat} (hne : ns ≠ []) :
    lead (List.replicate k 0 ++ ns) = k + lead ns := by
  induction k with
  | zero => rw [Nat.zero_add]; rfl
  | succ k ih =>
    rw [List.replicate_succ, List.cons_append, lead_cons_zero (by simp [hne]), ih]
    omega

/-- With so many separators at the beginning the byte behind them is not reached. -/
theorem split_run_lost :
    ∃ P, Window alone P (written (List.replicate 4294967296 (0x2C : UInt8) ++ [(0x61 : UInt8)])) 1
        4294967297 ((List.replicate 4294967296 (0x2C : UInt8) ++ [(0x61 : UInt8)]).map some) ∧
      ¬ AddsAll (fun x => splitAnyBuf 1 4294967297 (.bytes [0x2C]) x 0 .plain)
        (written (List.replicate 4294967296 (0x2C : UInt8) ++ [(0x61 : UInt8)]))
        [⟨4294967297, 1⟩] := by
  have h1 : (4294967297 : Nat) = 4294967296 + 1 := rfl
  have h2 : 4294967296 % 2 ^ 32 = 0 := by decide
  have h3 : 0 < 4294967296 := by decide
  rw [h1]
  generalize 4294967296 = n at h2 h3
  obtain ⟨P, w⟩ := window_text (List.replicate n (0x2C : UInt8) ++ [(0x61 : UInt8)])
  rw [List.length_append, List.length_replicate, List.length_singleton] at w
  refine ⟨P, w, fun h => ?_⟩
  have hb : Buf.len (.bytes [0x2C]) ≠ 0 := Nat.one_ne_zero
  have hlens : (Buf.sep (.bytes [0x2C]) hb).lens
      ((List.replicate n (0x2C : UInt8) ++ [(0x61 : UInt8)]).map some) =
        List.replicate n 0 ++ [1] := by
    rw [List.map_append, List.map_replicate, lens_replicate]
    rfl
  have hlead : lead (List.replicate n 0 ++ [1]) = n := lead_replicate n (List.cons_ne_nil 1 [])
  have hlong : ¬ ShortInside ((Buf.sep (.bytes [0x2C]) hb).lens
      ((List.replicate n (0x2C : UInt8) ++ [(0x61 : UInt8)]).map some)) := by
    rw [hlens]
    intro hs
    have hlt := hs 0 (by simp [bare])
    rw [List.drop_zero, hlead] at hlt
    omega
  have hhit : (Buf.sep (.bytes [0x2C]) hb).hit
      ((List.replicate n (0x2C : UInt8) ++ [(0x61 : UInt8)]).map some) = true := by
    obtain ⟨m, rfl⟩ := Nat.exists_eq_succ_of_ne_zero h3.ne'
    exact (Buf.sep (.bytes [0x2C]) hb).hit_of_lens hlens (by simp)
  have hadd := @addSects_room [⟨n + 1, 1⟩] ⟨[], 1, true, true, false⟩ (Nat.le_refl 1)
    (written (List.replicate n (0x2C : UInt8) ++ [(0x61 : UInt8)]))
  have he := ((h _ rfl).1 hadd).1
  have hcut : ((splitAnyBuf 1 (n + 1) (.bytes [0x2C]) ⟨[], 1, true, true, false⟩ 0 .plain).run
      (written (List.replicate n (0x2C : UInt8) ++ [(0x61 : UInt8)]))).1 = none :=
    splitLoop_cut (a := ⟨1, n + 1, 0, _⟩) (bufSeps_finds hb) (bufSeps_stalls hb) w hhit hlong
      (by rw [hlens, hlead, h2])
  cases hcut.symm.trans he

end Vstr
