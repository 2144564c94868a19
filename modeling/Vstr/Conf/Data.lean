import Vstr.Lib.Run
import Vstr.Model.Data

/-!
# Entries, holes and references

An entry that is there keeps its position until it is deleted, and a reference is held once for
each entry it is stored in. A search ends, with the right answer, exactly where no hole lies
before the first entry of that name.
-/

namespace Vstr.UsrData

open Runs

variable {s t : State} {e : Ent} {name : List UInt8} {data : Option Nat} {mem : Nat → Ent}
  {es : List Ent} {i j q fuel pos sz : Nat} {ref : Nat → Nat}

/-! ## What is stored -/

/-- There is an entry at an index. -/
def State.Live (s : State) (i : Nat) : Prop := i < s.len ∧ (s.nameAt i).isSome

/-- A list holds a reference so many times. -/
def held (es : List Ent) (r : Nat) : Nat := es.countP fun e => e.data = some r

/-- In how many entries a reference is stored. -/
def State.stored (s : State) (r : Nat) : Nat := held (s.ents.take s.len) r

/-- The user data between two steps. -/
structure State.Ok (s : State) : Prop where
  /-- The array is as long as it is believed to be. -/
  length : s.ents.length = s.sz
  /-- The entries lie inside. -/
  len : s.len ≤ s.sz
  /-- There is an array. -/
  pos : 0 < s.sz
  /-- A hole holds no reference. -/
  hole : ∀ i < s.len, s.nameAt i = none → s.dataAt i = none
  /-- Each stored reference is held once. -/
  ref : ∀ r, s.ref r = s.ext r + s.stored r

theorem held_append (es fs : List Ent) (r : Nat) : held (es ++ fs) r = held es r + held fs r :=
  List.countP_append

theorem held_singleton (e : Ent) (r : Nat) : held [e] r = if e.data = some r then 1 else 0 := by
  rw [held, List.countP_singleton]
  by_cases h : e.data = some r
  · rw [if_pos (by simpa using h), if_pos h]
  · rw [if_neg (by simpa using h), if_neg h]

/-- An entry in a list counts for itself. -/
theorem held_split (h : es[i]? = some e) (r : Nat) :
    held es r = held (es.take i) r + (held [e] r + held (es.drop (i + 1)) r) := by
  obtain ⟨hi, rfl⟩ := List.getElem?_eq_some_iff.1 h
  rw [← held_append, ← held_append, List.singleton_append, List.getElem_cons_drop hi,
    List.take_append_drop]

/-- An entry is written over another. -/
theorem held_set (h : es[i]? = some e) (e' : Ent) (r : Nat) :
    held (es.set i e') r + held [e] r = held es r + held [e'] r := by
  obtain ⟨hi, -⟩ := List.getElem?_eq_some_iff.1 h
  have h' : (es.set i e')[i]? = some e' := List.getElem?_set_self hi
  rw [held_split h, held_split h', List.take_set_of_le (Nat.le_refl i),
    List.drop_set_of_lt (by omega)]
  omega

/-! ## References -/

theorem holdData_apply (ref : Nat → Nat) (d : Option Nat) (r : Nat) :
    holdData ref d r = ref r + if d = some r then 1 else 0 := by
  rcases d with - | p
  · rw [if_neg (by simp)]
    rfl
  · by_cases h : r = p
    · rw [h, if_pos rfl]
      exact if_pos rfl
    · rw [if_neg (by simpa using Ne.symm h)]
      exact if_neg h

theorem dropData_apply (ref : Nat → Nat) (d : Option Nat) (r : Nat) :
    dropData ref d r = ref r - if d = some r then 1 else 0 := by
  rcases d with - | p
  · rw [if_neg (by simp)]
    rfl
  · by_cases h : r = p
    · rw [h, if_pos rfl]
      exact if_pos rfl
    · rw [if_neg (by simpa using Ne.symm h)]
      exact if_neg h

/-! ## The index that is taken -/

theorem firstHole_le (es : List Ent) : firstHole es ≤ es.length := by
  induction es with
  | nil => exact Nat.le_refl 0
  | cons e es ih =>
    rw [firstHole, List.length_cons]
    split <;> omega

theorem firstHole_hole (h : es[firstHole es]? = some e) : e.name = none := by
  induction es with
  | nil => cases h
  | cons f es ih =>
    by_cases hf : f.name.isSome
    · rw [firstHole, if_pos hf, List.getElem?_cons_succ] at h
      exact ih h
    · rw [firstHole, if_neg hf, List.getElem?_cons_zero, Option.some.injEq] at h
      rwa [← h, ← Option.not_isSome_iff_eq_none]

theorem nameAt_of_some (h : s.ents[i]? = some e) : s.nameAt i = e.name := by
  rw [State.nameAt, h]
  rfl

theorem dataAt_of_some (h : s.ents[i]? = some e) : s.dataAt i = e.data := by
  rw [State.dataAt, h]
  rfl

/-- An entry inside the array. -/
theorem State.Ok.get (h : s.Ok) (hi : i < s.len) : ∃ e, s.ents[i]? = some e := by
  have hl : i < s.ents.length := by
    rw [h.length]
    exact Nat.lt_of_lt_of_le hi h.len
  exact ⟨_, List.getElem?_eq_getElem hl⟩

/-- It is a hole, or just behind the last entry. -/
theorem State.Ok.addAt (h : s.Ok) : s.addAt ≤ s.len ∧ ¬ s.Live s.addAt := by
  by_cases hl : s.len = s.sz
  · have ha : s.addAt = firstHole (s.ents.take s.len) := by
      rw [State.addAt, if_pos hl, List.drop_zero, Nat.zero_add]
    have hle := firstHole_le (s.ents.take s.len)
    rw [List.length_take, ← ha] at hle
    refine ⟨by omega, fun hL => ?_⟩
    obtain ⟨e, he⟩ := h.get hL.1
    have hn : e.name = none := by
      apply firstHole_hole
      rw [← ha, List.getElem?_take_of_lt hL.1, he]
    have hs := hL.2
    rw [nameAt_of_some he, hn] at hs
    exact Bool.false_ne_true hs
  · have ha : s.addAt = s.len := by
      have hd : (s.ents.take s.len).drop s.len = [] := by
        rw [List.drop_eq_nil_iff, List.length_take]
        omega
      rw [State.addAt, if_neg hl, hd]
      rfl
    exact ⟨Nat.le_of_eq ha, fun hL => absurd hL.1 (by omega)⟩

/-! ## One entry is written -/

/-- Entries other than those of some indices stay where they are. -/
def Keeps (P : Nat → Prop) (s t : State) : Prop :=
  ∀ i, s.Live i → P i → t.Live i ∧ t.ents[i]? = s.ents[i]?

theorem Live.of_ents (hl : t.ents[i]? = s.ents[i]?) (h : s.Live i) (hi : i < t.len) :
    t.Live i := by
  refine ⟨hi, ?_⟩
  rw [State.nameAt, hl]
  exact h.2

theorem write_len : (s.write name i data).len = max s.len (i + 1) := by
  show (if s.len < i + 1 then i + 1 else s.len) = max s.len (i + 1)
  split <;> omega

section Write

variable (h : s.Ok) (hle : i ≤ s.len) (hi : i < s.sz) (hL : ¬ s.Live i)

include hL in
/-- The others stay. -/
theorem write_keeps : Keeps (fun _ => True) s (s.write name i data) := by
  intro j hj _
  have hij : i ≠ j := fun he => hL (he ▸ hj)
  have he : (s.write name i data).ents[j]? = s.ents[j]? := List.getElem?_set_ne hij
  refine ⟨Live.of_ents he hj ?_, he⟩
  rw [write_len]
  exact Nat.lt_of_lt_of_le hj.1 (Nat.le_max_left _ _)

include h hi in
/-- The entry is there. -/
theorem write_live : (s.write name i data).Live i ∧
    (s.write name i data).ents[i]? = some ⟨some name, data⟩ := by
  have hn : i < s.ents.length := by
    rw [h.length]
    exact hi
  have he : (s.write name i data).ents[i]? = some ⟨some name, data⟩ := List.getElem?_set_self hn
  refine ⟨⟨?_, ?_⟩, he⟩
  · rw [write_len]
    exact Nat.lt_of_lt_of_le (Nat.lt_succ_self i) (Nat.le_max_right _ _)
  · rw [nameAt_of_some he]
    rfl

include h hle hi hL

/-- What is held after an entry was written. -/
theorem stored_write (r : Nat) :
    (s.write name i data).stored r = s.stored r + if data = some r then 1 else 0 := by
  have hn : i < s.ents.length := by
    rw [h.length]
    exact hi
  rw [State.stored, write_len]
  show held ((s.ents.set i ⟨some name, data⟩).take (max s.len (i + 1))) r = _
  by_cases hlt : i < s.len
  · obtain ⟨e, he⟩ := h.get hlt
    have hd : e.data = none := by
      rw [← dataAt_of_some he]
      apply h.hole i hlt
      rw [← Option.not_isSome_iff_eq_none]
      exact fun hs => hL ⟨hlt, hs⟩
    have het : (s.ents.take s.len)[i]? = some e := by rw [List.getElem?_take_of_lt hlt, he]
    have hs := held_set het ⟨some name, data⟩ r
    rw [held_singleton, held_singleton, hd, if_neg (by simp)] at hs
    rw [Nat.max_eq_left hlt, List.take_set]
    exact hs
  · have hie : i = s.len := by omega
    subst hie
    have hm : max s.len (s.len + 1) = s.len + 1 := by omega
    rw [hm, List.take_add_one, List.take_set_of_le (Nat.le_refl _), List.getElem?_set_self hn,
      Option.toList_some, held_append, held_singleton]
    rfl

theorem write_ok : (s.write name i data).Ok where
  length := by
    show (s.ents.set i _).length = s.sz
    rw [List.length_set, h.length]
  len := by
    rw [write_len]
    have := h.len
    show max s.len (i + 1) ≤ s.sz
    omega
  pos := h.pos
  hole := by
    intro j hj hnone
    rw [write_len] at hj
    by_cases hij : i = j
    · subst hij
      have hn : i < s.ents.length := by
        rw [h.length]
        exact hi
      rw [nameAt_of_some (List.getElem?_set_self hn)] at hnone
      cases hnone
    · have he : (s.write name i data).ents[j]? = s.ents[j]? := List.getElem?_set_ne hij
      rw [State.nameAt, he] at hnone
      rw [State.dataAt, he]
      exact h.hole j (by omega) hnone
  ref := by
    intro r
    rw [stored_write h hle hi hL]
    show holdData s.ref data r = s.ext r + _
    rw [holdData_apply, h.ref r, Nat.add_assoc]

end Write

/-! ## More room -/

theorem grow_get (mem : Nat → Ent) (h : s.Ok) (hsz : s.sz ≤ sz) (hi : i < s.sz) :
    (s.grow sz mem).ents[i]? = s.ents[i]? := by
  show (s.ents.take sz ++ _)[i]? = s.ents[i]?
  have hl := h.length
  rw [List.take_of_length_le (by omega), List.getElem?_append_left (by omega)]

theorem grow_ok (mem : Nat → Ent) (h : s.Ok) (hsz : s.sz ≤ sz) : (s.grow sz mem).Ok where
  length := by
    show (s.ents.take sz ++ (List.range' s.sz (sz - s.sz)).map mem).length = sz
    have hl := h.length
    rw [List.length_append, List.length_take, List.length_map, List.length_range']
    omega
  len := Nat.le_trans h.len hsz
  pos := Nat.lt_of_lt_of_le h.pos hsz
  hole := by
    intro j hj hn
    have he := grow_get mem h hsz (Nat.lt_of_lt_of_le hj h.len)
    rw [State.nameAt, he] at hn
    rw [State.dataAt, he]
    exact h.hole j hj hn
  ref := by
    intro r
    have hl := h.length
    have hlen := h.len
    have ht : (s.grow sz mem).ents.take s.len = s.ents.take s.len := by
      show (s.ents.take sz ++ _).take s.len = _
      have hs : s.ents.take sz = s.ents := List.take_of_length_le (by omega)
      rw [hs, List.take_append_of_le_length (by omega)]
    show s.ref r = s.ext r + held ((s.grow sz mem).ents.take s.len) r
    rw [ht]
    exact h.ref r

theorem grow_keeps (h : s.Ok) (hsz : s.sz ≤ sz) : Keeps (fun _ => True) s (s.grow sz mem) := by
  intro j hj _
  have he := grow_get mem h hsz (Nat.lt_of_lt_of_le hj.1 h.len)
  exact ⟨Live.of_ents he hj hj.1, he⟩

theorem grow_live (h : s.Ok) (hsz : s.sz ≤ sz) (hL : (s.grow sz mem).Live i) : s.Live i := by
  have he := grow_get mem h hsz (Nat.lt_of_lt_of_le hL.1 h.len)
  exact Live.of_ents he.symm hL hL.1

/-! ## Adding -/

theorem Keeps.refl (P : Nat → Prop) (s : State) : Keeps P s s := fun _ h _ => ⟨h, rfl⟩

theorem Keeps.trans {P Q : Nat → Prop} {u : State} (h : Keeps P s t) (h' : Keeps Q t u) :
    Keeps (fun i => P i ∧ Q i) s u := by
  rintro i hi ⟨hp, hq⟩
  obtain ⟨hl, he⟩ := h i hi hp
  obtain ⟨hl', he'⟩ := h' i hl hq
  exact ⟨hl', he'.trans he⟩

/-- What `vstr_data_add` gives back, and what becomes of the entries. -/
structure Added (s : State) (name : List UInt8) (data : Option Nat) (r : Nat × State) : Prop where
  /-- The invariant. -/
  ok : r.2.Ok
  /-- Entries keep their positions. -/
  keeps : Keeps (fun _ => True) s r.2
  /-- Nothing happened, or the entry got a position of its own. -/
  pos : r = (0, s) ∨ ∃ i, r.1 = i + 1 ∧ ¬ s.Live i ∧ r.2.Live i ∧
    r.2.ents[i]? = some ⟨some name, data⟩

theorem add_spec (h : s.Ok) (mem : Option (Nat → Ent)) (hm : s.Meets (.add name data mem)) :
    Added s name data (s.add name data mem) := by
  obtain ⟨hle, hL⟩ := h.addAt
  have hlen := h.len
  by_cases hsz : s.addAt = s.sz
  · rcases mem with - | mem
    · have ha : s.add name data none = (0, s) := by rw [State.add, if_pos hsz]
      rw [ha]
      exact ⟨h, Keeps.refl _ s, .inl rfl⟩
    · have hlt : s.sz < 2 ^ 31 := hm hsz
      have hpos := h.pos
      have hdbl : s.sz * 2 % 2 ^ 32 = s.sz * 2 := Nat.mod_eq_of_lt (by omega)
      have ha : s.add name data (some mem) =
          (s.addAt + 1, (s.grow (s.sz * 2) mem).write name s.addAt data) := by
        rw [State.add, if_pos hsz, hdbl]
      have hg : s.sz ≤ s.sz * 2 := by omega
      have hok := grow_ok mem h hg
      have hle' : s.addAt ≤ (s.grow (s.sz * 2) mem).len := hle
      have hi' : s.addAt < (s.grow (s.sz * 2) mem).sz := by
        show s.addAt < s.sz * 2
        omega
      have hL' : ¬ (s.grow (s.sz * 2) mem).Live s.addAt := fun hl => hL (grow_live h hg hl)
      rw [ha]
      refine ⟨write_ok hok hle' hi' hL', ?_, .inr ⟨s.addAt, rfl, hL, write_live hok hi'⟩⟩
      intro i hi _
      exact (grow_keeps h hg).trans (write_keeps hL') i hi ⟨trivial, trivial⟩
  · have ha : s.add name data mem = (s.addAt + 1, s.write name s.addAt data) := by
      exact if_neg hsz
    have hi : s.addAt < s.sz := by omega
    rw [ha]
    exact ⟨write_ok h hle hi hL, write_keeps hL,
      .inr ⟨s.addAt, rfl, hL, write_live h hi⟩⟩

/-! ## Deleting -/

/-- The end is behind every entry, and what lies behind it are holes. -/
theorem trim_spec (s : State) (pos : Nat) :
    s.trim pos ≤ pos ∧ ∀ i, s.trim pos ≤ i → i < pos → s.nameAt i = none := by
  induction pos with
  | zero => exact ⟨Nat.le_refl 0, fun i _ h => absurd h (Nat.not_lt_zero i)⟩
  | succ pos ih =>
    by_cases hs : (s.nameAt pos).isSome
    · rw [State.trim, if_pos hs]
      exact ⟨Nat.le_refl _, fun i h h' => absurd h' (by omega)⟩
    · rw [State.trim, if_neg hs]
      obtain ⟨hle, hn⟩ := ih
      refine ⟨by omega, fun i h h' => ?_⟩
      by_cases hi : i = pos
      · rw [hi, ← Option.not_isSome_iff_eq_none]
        exact hs
      · exact hn i h (by omega)

/-- Holes at the end hold nothing. -/
theorem held_take (hd : ∀ j, i ≤ j → j < i + q → s.dataAt j = none) (r : Nat) :
    held (s.ents.take (i + q)) r = held (s.ents.take i) r := by
  induction q with
  | zero => rfl
  | succ q ih =>
    have ih' := ih fun j h h' => hd j h (by omega)
    rw [← Nat.add_assoc, List.take_add_one, held_append, ih']
    rcases he : s.ents[i + q]? with - | e
    · exact Nat.add_zero _
    · have hn := hd (i + q) (Nat.le_add_right i q) (by omega)
      rw [dataAt_of_some he] at hn
      have hne : e.data ≠ some r := by
        rw [hn]
        exact (Option.some_ne_none r).symm
      rw [Option.toList_some, held_singleton, if_neg hne]
      exact Nat.add_zero _

/-- The end moves to the last entry. -/
theorem trim_ok (h : s.Ok) : { s with len := s.trim s.len }.Ok where
  length := h.length
  len := Nat.le_trans (trim_spec s s.len).1 h.len
  pos := h.pos
  hole := fun j hj hn => h.hole j (Nat.lt_of_lt_of_le hj (trim_spec s s.len).1) hn
  ref := by
    intro r
    obtain ⟨hle, hn⟩ := trim_spec s s.len
    have hs : held (s.ents.take (s.trim s.len + (s.len - s.trim s.len))) r =
        held (s.ents.take (s.trim s.len)) r := by
      apply held_take
      intro j h1 h2
      have hj : j < s.len := by omega
      exact h.hole j hj (hn j h1 hj)
    rw [Nat.add_sub_cancel' hle] at hs
    show s.ref r = s.ext r + held (s.ents.take (s.trim s.len)) r
    rw [← hs]
    exact h.ref r

theorem trim_keeps (s : State) : Keeps (fun _ => True) s { s with len := s.trim s.len } := by
  intro i hi _
  obtain ⟨-, hn⟩ := trim_spec s s.len
  refine ⟨⟨?_, hi.2⟩, rfl⟩
  show i < s.trim s.len
  by_contra hge
  have hs := hi.2
  rw [hn i (Nat.le_of_not_lt hge) hi.1] at hs
  exact Bool.false_ne_true hs

/-- The entry becomes a hole. -/
def State.clear (s : State) (i : Nat) : State :=
  { s with ents := s.ents.set i ⟨none, none⟩, ref := dropData s.ref (s.dataAt i) }

theorem del_eq (s : State) (i : Nat) :
    s.del (i + 1) = if i + 1 = s.len then
      { s.clear i with len := (s.clear i).trim (s.clear i).len } else s.clear i := by
  rw [State.del, Nat.add_sub_cancel]
  split
  · rename_i h
    rw [h]
    rfl
  · rfl

theorem clear_ok (h : s.Ok) (hi : i < s.len) : (s.clear i).Ok where
  length := by
    show (s.ents.set i _).length = s.sz
    rw [List.length_set, h.length]
  len := h.len
  pos := h.pos
  hole := by
    intro j hj hn
    by_cases hij : i = j
    · subst hij
      obtain ⟨e, he⟩ := h.get hi
      have hl := (List.getElem?_eq_some_iff.1 he).1
      have he' : (s.clear i).ents[i]? = some ⟨none, none⟩ := List.getElem?_set_self hl
      exact dataAt_of_some he'
    · have he : (s.clear i).ents[j]? = s.ents[j]? := List.getElem?_set_ne hij
      rw [State.nameAt, he] at hn
      rw [State.dataAt, he]
      exact h.hole j hj hn
  ref := by
    intro r
    obtain ⟨e, he⟩ := h.get hi
    have het : (s.ents.take s.len)[i]? = some e := by rw [List.getElem?_take_of_lt hi, he]
    have hs := held_set het ⟨none, none⟩ r
    rw [held_singleton, held_singleton, if_neg (Option.some_ne_none r).symm] at hs
    have hr := h.ref r
    show dropData s.ref (s.dataAt i) r = s.ext r + held ((s.ents.set i ⟨none, none⟩).take s.len) r
    rw [dropData_apply, dataAt_of_some he, List.take_set]
    rw [State.stored] at hr
    omega

theorem clear_keeps (s : State) (i : Nat) : Keeps (fun j => j ≠ i) s (s.clear i) := by
  intro j hj hne
  have he : (s.clear i).ents[j]? = s.ents[j]? := List.getElem?_set_ne (Ne.symm hne)
  exact ⟨Live.of_ents he hj hj.1, he⟩

theorem del_ok (h : s.Ok) (hi : i < s.len) : (s.del (i + 1)).Ok := by
  rw [del_eq]
  split
  · exact trim_ok (clear_ok h hi)
  · exact clear_ok h hi

theorem del_keeps (s : State) (i : Nat) : Keeps (fun j => j ≠ i) s (s.del (i + 1)) := by
  rw [del_eq]
  split
  · intro j hj hne
    exact (clear_keeps s i).trans (trim_keeps (s.clear i)) j hj ⟨hne, trivial⟩
  · exact clear_keeps s i

/-! ## A run -/

/-- A step that is allowed and leaves room. -/
def State.Fine (s : State) (a : Step) : Prop := s.Legal a ∧ s.Meets a

theorem init_ok (e : Ent) (ext : Nat → Nat) : (State.init e ext).Ok where
  length := rfl
  len := Nat.zero_le 1
  pos := Nat.one_pos
  hole := fun i hi => absurd hi (Nat.not_lt_zero i)
  ref := fun _ => rfl

theorem step_ok (h : s.Ok) {a : Step} (ha : s.Fine a) : (s.step a).Ok := by
  cases a with
  | add name data mem => exact (add_spec h mem ha.2).ok
  | del pos =>
    obtain ⟨hpos, hle⟩ := ha.1
    obtain ⟨i, rfl⟩ := Nat.exists_eq_succ_of_ne_zero (Nat.pos_iff_ne_zero.1 hpos)
    exact del_ok h hle
  | hold p =>
    refine ⟨h.length, h.len, h.pos, h.hole, fun r => ?_⟩
    have hr := h.ref r
    show (if r = p then s.ref r + 1 else s.ref r) =
      (if r = p then s.ext r + 1 else s.ext r) + s.stored r
    split <;> omega
  | drop p =>
    have hp : 0 < s.ext p := ha.1
    refine ⟨h.length, h.len, h.pos, h.hole, fun r => ?_⟩
    have hr := h.ref r
    show (if r = p then s.ref r - 1 else s.ref r) =
      (if r = p then s.ext r - 1 else s.ext r) + s.stored r
    split
    · subst r
      omega
    · exact hr

theorem step_keeps (h : s.Ok) {a : Step} (ha : s.Fine a) :
    Keeps (fun i => a ≠ .del (i + 1)) s (s.step a) := by
  intro i hi hne
  cases a with
  | add name data mem => exact (add_spec h mem ha.2).keeps i hi trivial
  | del pos =>
    obtain ⟨j, rfl⟩ := Nat.exists_eq_succ_of_ne_zero (Nat.pos_iff_ne_zero.1 ha.1.1)
    exact del_keeps s j i hi fun he => hne (by rw [he])
  | hold p => exact ⟨hi, rfl⟩
  | drop p => exact ⟨hi, rfl⟩

theorem run_ok (h : s.Ok) {as : List Step} (r : Run State.step State.Fine s as t) : t.Ok :=
  r.invariant State.Ok h fun _ _ hu ha => step_ok hu ha

/-- An entry keeps its position until it is deleted. -/
theorem run_keeps (h : s.Ok) {as : List Step} (r : Run State.step State.Fine s as t) :
    Keeps (fun i => Step.del (i + 1) ∉ as) s t := by
  induction r with
  | nil => exact Keeps.refl _ s
  | snoc r ha ih =>
    intro i hi hn
    rw [List.mem_append, List.mem_singleton, not_or] at hn
    exact ih.trans (step_keeps (run_ok h r) ha) i hi ⟨hn.1, fun he => hn.2 he.symm⟩

/-! ## Searching -/

/-- The position of an entry with a name, or no entry has it. -/
def State.Right (s : State) (name : List UInt8) (p : Nat) : Prop :=
  (p = 0 ∧ ∀ i < s.len, s.nameAt i ≠ some name) ∨
    ∃ i, p = i + 1 ∧ i < s.len ∧ s.nameAt i = some name

/-- No hole lies before the first entry with a name, or anywhere if there is none. -/
def State.Clear (s : State) (name : List UInt8) : Prop :=
  ∀ i < s.len, s.nameAt i = none → ∃ j < i, s.nameAt j = some name

/-- `vstr_data_srch` comes to an end, with the right answer. -/
def State.Finds (s : State) (name : List UInt8) : Prop :=
  ∃ p, (∀ q, s.Srch name q ↔ q = p) ∧ s.Right name p

/-- A hole is never passed. -/
theorem srchLoop_hole (hi : i < s.len) (hn : s.nameAt i = none) (hp : pos ≤ i)
    (hne : ∀ j, pos ≤ j → j < i → s.nameAt j ≠ some name) : s.srchLoop name fuel pos = none := by
  induction fuel generalizing pos with
  | zero => rfl
  | succ fuel ih =>
    rw [State.srchLoop, if_pos (by omega)]
    rcases hm : s.nameAt pos with - | m
    · exact ih hp hne
    · have hlt : pos < i := by
        refine Nat.lt_of_le_of_ne hp fun he => ?_
        rw [he, hn] at hm
        cases hm
      have hmn : m ≠ name := by
        rintro rfl
        exact hne pos (Nat.le_refl _) hlt hm
      show (if m = name then some (pos + 1) else s.srchLoop name fuel (pos + 1)) = none
      rw [if_neg hmn]
      exact ih hlt fun j h1 h2 => hne j (by omega) h2

/-- Where no hole is in the way, the loop ends with the right answer. -/
theorem srchLoop_clear (hc : s.Clear name) (hb : ∀ j < pos, s.nameAt j ≠ some name)
    (hq : s.len = pos + q) :
    ∃ p, s.Right name p ∧ ∀ fuel, s.srchLoop name (q + 1 + fuel) pos = some p := by
  induction q generalizing pos with
  | zero =>
    refine ⟨0, .inl ⟨rfl, fun i hi => hb i (by omega)⟩, fun fuel => ?_⟩
    rw [Nat.zero_add, Nat.add_comm, State.srchLoop, if_neg (by omega)]
  | succ q ih =>
    have hlt : pos < s.len := by omega
    rcases hm : s.nameAt pos with - | m
    · obtain ⟨j, hj, hjn⟩ := hc pos hlt hm
      exact absurd hjn (hb j hj)
    · have hstep : ∀ fuel, s.srchLoop name (q + 1 + 1 + fuel) pos =
          if m = name then some (pos + 1) else s.srchLoop name (q + 1 + fuel) (pos + 1) := by
        intro fuel
        have hf : q + 1 + 1 + fuel = (q + 1 + fuel) + 1 := by omega
        rw [hf, State.srchLoop, if_pos hlt, hm]
      by_cases hmn : m = name
      · refine ⟨pos + 1, .inr ⟨pos, rfl, hlt, by rw [hm, hmn]⟩, fun fuel => ?_⟩
        rw [hstep, if_pos hmn]
      · have hb' : ∀ j < pos + 1, s.nameAt j ≠ some name := by
          intro j hj
          rcases Nat.lt_succ_iff_lt_or_eq.1 hj with h | rfl
          · exact hb j h
          · rw [hm]
            exact fun h => hmn (Option.some.inj h)
        obtain ⟨p, hp, hf⟩ := ih hb' (by omega)
        refine ⟨p, hp, fun fuel => ?_⟩
        rw [hstep, if_neg hmn]
        exact hf fuel

/-- More turns do not change the answer. -/
theorem srchLoop_more (h : s.srchLoop name fuel pos = some i) (q : Nat) :
    s.srchLoop name (fuel + q) pos = some i := by
  induction fuel generalizing pos with
  | zero => cases h
  | succ fuel ih =>
    rw [Nat.succ_add, State.srchLoop]
    rw [State.srchLoop] at h
    split
    · rename_i hlt
      rw [if_pos hlt] at h
      rcases hm : s.nameAt pos with - | m
      · rw [hm] at h
        exact ih h
      · rw [hm] at h
        by_cases hmn : m = name
        · exact (if_pos hmn).trans ((if_pos hmn).symm.trans h)
        · exact (if_neg hmn).trans (ih ((if_neg hmn).symm.trans h))
    · rename_i hlt
      rwa [if_neg hlt] at h

theorem finds_iff (s : State) (name : List UInt8) : s.Finds name ↔ s.Clear name := by
  constructor
  · rintro ⟨p, hp, -⟩ i hi hn
    by_contra hno
    obtain ⟨fuel, hf⟩ := (hp p).2 rfl
    rw [srchLoop_hole hi hn (Nat.zero_le i) fun j _ hj he => hno ⟨j, hj, he⟩] at hf
    cases hf
  · intro hc
    obtain ⟨p, hp, hf⟩ := srchLoop_clear hc (fun j hj => absurd hj (Nat.not_lt_zero j))
      (Nat.zero_add s.len).symm
    refine ⟨p, fun r => ⟨?_, ?_⟩, hp⟩
    · rintro ⟨fuel, hr⟩
      have h1 := hf fuel
      rw [Nat.add_comm, srchLoop_more hr] at h1
      exact Option.some.inj h1
    · rintro rfl
      exact ⟨s.len + 1 + 0, hf 0⟩

/-! ## The registry -/

/-- In every state of a run whose array can be told by an `unsigned int`, the entries lie inside
the array, each reference is held once for each entry that stores it, an entry keeps its position
until it is deleted, and a new one gets a position that no entry has. A search ends with the right
answer exactly where no hole lies before the first entry of that name. -/
theorem data_usr_runs {e : Ent} {ext : Nat → Nat} {as : List Step} {s : State}
    (r : Run State.step State.Fine (State.init e ext) as s) :
    s.len ≤ s.sz ∧ s.ents.length = s.sz ∧ (∀ p, s.ref p = s.ext p + s.stored p) ∧
      (∀ bs t, Run State.step State.Fine s bs t → ∀ i, s.Live i → Step.del (i + 1) ∉ bs →
        t.Live i ∧ t.ents[i]? = s.ents[i]?) ∧
      (∀ name data mem, s.Fine (.add name data mem) →
        s.add name data mem = (0, s) ∨ ∃ i, (s.add name data mem).1 = i + 1 ∧ ¬ s.Live i ∧
          (s.add name data mem).2.Live i ∧
          (s.add name data mem).2.ents[i]? = some ⟨some name, data⟩) ∧
      ∀ name, s.Finds name ↔ s.Clear name := by
  have h := run_ok (init_ok e ext) r
  refine ⟨h.len, h.length, h.ref, ?_, ?_, finds_iff s⟩
  · intro bs t rb i hi hn
    exact run_keeps h rb i hi hn
  · intro name data mem ha
    exact (add_spec h mem ha.2).pos

/-- What new memory may hold. -/
def blank : Nat → Ent := fun _ => ⟨none, none⟩

/-- Two entries, the first of which is a hole. -/
def holed : State where
  ents := [⟨none, none⟩, ⟨some [98], none⟩]
  len := 2
  sz := 2
  ref := fun _ => 0
  ext := fun _ => 0

/-- The entries `a` and `b` are added, and `a` is deleted. -/
def holedSteps : List Step := [.add [97] none none, .add [98] none (some blank), .del 1]

theorem holed_run :
    Run State.step State.Fine (State.init ⟨none, none⟩ fun _ => 0) holedSteps holed := by
  have hnone : ∀ s : State, ∀ r ∈ (none : Option Nat), 0 < s.ref r := by
    rintro s r ⟨⟩
  refine Run.nil.append ⟨⟨hnone _, ?_⟩, ⟨hnone _, ?_⟩, ⟨?_, trivial⟩, trivial⟩
  · show 0 = 1 → 1 < 2 ^ 31
    omega
  · show 1 = 1 → 1 < 2 ^ 31
    omega
  · show 0 < 1 ∧ 1 ≤ 2
    omega

/-- Two references are held, `a` and `c` are added with the one and `b` with the other, `b` is
deleted, and the one is held by the entries alone. -/
def storedSteps : List Step :=
  [.hold 7, .hold 8, .add [97] (some 7) none, .add [98] (some 8) (some blank),
    .add [99] (some 7) (some blank), .del 2, .drop 7]

/-- What they lead to. -/
def sharing : State := storedSteps.foldl State.step (State.init ⟨none, none⟩ fun _ => 0)

theorem stored_run :
    Run State.step State.Fine (State.init ⟨none, none⟩ fun _ => 0) storedSteps sharing := by
  refine Run.nil.append ⟨⟨trivial, trivial⟩, ⟨trivial, trivial⟩, ⟨?_, ?_⟩, ⟨?_, ?_⟩, ⟨?_, ?_⟩,
    ⟨?_, trivial⟩, ⟨?_, trivial⟩, trivial⟩
  · rintro r ⟨⟩
    decide
  · exact fun _ => by decide
  · rintro r ⟨⟩
    decide
  · exact fun _ => by decide
  · rintro r ⟨⟩
    decide
  · exact fun _ => by decide
  · exact ⟨by decide, by decide⟩
  · show 0 < 1
    decide

/-- The references are counted, an entry keeps its place when the hole before it is filled, and
a search stops before the hole or does not find the right entry. -/
theorem data_usr_runs_stored :
    (sharing.ref 7 = 2 ∧ sharing.stored 7 = 2 ∧ sharing.ref 8 = 1 ∧ sharing.stored 8 = 0) ∧
      sharing.ref 7 = sharing.ext 7 + sharing.stored 7 ∧
      ((sharing.step (.add [100] (some 8) none)).Live 2 ∧
        (sharing.step (.add [100] (some 8) none)).ents[2]? = sharing.ents[2]?) ∧
      (sharing.Finds [97] ∧ ¬ sharing.Finds [99]) := by
  obtain ⟨-, -, href, hkeep, -, hfinds⟩ := data_usr_runs stored_run
  refine ⟨by decide, href 7, ?_, (hfinds [97]).mpr ?_, fun h => ?_⟩
  · refine hkeep [.add [100] (some 8) none] _ (Run.single ⟨?_, ?_⟩) 2
      ⟨by decide, by decide⟩ (by simp)
    · rintro r ⟨⟩
      decide
    · exact fun _ => by decide
  · intro i hi hn
    have hcases : i = 0 ∨ i = 1 ∨ i = 2 := by
      have : sharing.len = 3 := by decide
      omega
    rcases hcases with rfl | rfl | rfl
    · exact absurd hn (by decide)
    · exact ⟨0, by decide, by decide⟩
    · exact absurd hn (by decide)
  · obtain ⟨j, hj, hname⟩ := (hfinds [99]).mp h 1 (by decide) (by decide)
    obtain rfl : j = 0 := by omega
    exact absurd hname (by decide)

/-- Behind the hole, the entry `b` is not found, and the search does not come to an end. -/
theorem data_srch_loops :
    Run State.step State.Fine (State.init ⟨none, none⟩ fun _ => 0) holedSteps holed ∧
      holed.Live 1 ∧ holed.nameAt 1 = some [98] ∧ ∀ p, ¬ holed.Srch [98] p := by
  refine ⟨holed_run, ⟨by decide, rfl⟩, rfl, ?_⟩
  rintro p ⟨fuel, hf⟩
  have hn : holed.srchLoop [98] fuel 0 = none := by
    apply srchLoop_hole (i := 0) (by decide) rfl (Nat.le_refl 0)
    exact fun j _ hj => absurd hj (Nat.not_lt_zero j)
  rw [hn] at hf
  cases hf

end Vstr.UsrData
