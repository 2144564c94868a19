import Vstr.Edit.Offer
import Vstr.Lib.Run
import Vstr.Model.Vector

/-!
# The room of the vectors

The vectors of the nodes lie inside both arrays. That holds after every step, as long as the
sums of a size and the two settings fit an `unsigned int`, and the offset of the configuration
lies inside arrays that are not up to date when they are asked for: the room behind the offset
is a difference of `unsigned int`, and an offset behind the arrays makes it huge.
-/

namespace Vstr.Vector

open Runs

variable {α : Type} {s t : State} {vec : Vec} {sz i n : Nat} {mem : Part → Bool} {x : α}
  {xs ys : List α}

/-! ## Arrays -/

theorem uint_of_lt (h : n < 2 ^ 32) : uint n = n := Nat.mod_eq_of_lt h

theorem uint_lt (n : Nat) : uint n < 2 ^ 32 := Nat.mod_lt _ (Nat.two_pow_pos 32)

theorem length_resize (x : α) (n : Nat) (xs : List α) : (resize x n xs).length = n := by
  rw [resize, List.length_append, List.length_take, List.length_replicate]
  omega

theorem getElem?_resize (h : i < n) (hx : i < xs.length) :
    (resize x n xs)[i]? = xs[i]? := by
  rw [resize, List.getElem?_append_left (by rw [List.length_take]; omega),
    List.getElem?_take_of_lt h]

theorem length_writeAt (h : i + ys.length ≤ xs.length) : (writeAt xs i ys).length = xs.length := by
  rw [writeAt, List.length_append, List.length_append, List.length_take, List.length_drop]
  omega

theorem length_slice {src : Nat} (h : src + n ≤ xs.length) :
    ((xs.drop src).take n).length = n := by
  rw [List.length_take, List.length_drop]
  omega

theorem length_moveTo {dst src : Nat} (hd : dst + n ≤ xs.length) (hs : src + n ≤ xs.length) :
    (moveTo xs dst src n).length = xs.length := by
  rw [moveTo, length_writeAt]
  rw [length_slice hs]
  exact hd

theorem getElem?_moveTo {dst src : Nat} (hd : dst + n ≤ xs.length) (hs : src + n ≤ xs.length)
    (hi : i < n) : (moveTo xs dst src n)[dst + i]? = xs[src + i]? := by
  have hl := length_slice hs
  have hlt : (xs.take dst).length = dst := by
    rw [List.length_take]
    omega
  rw [moveTo, writeAt, List.append_assoc, List.getElem?_append_right (by omega), hlt,
    Nat.add_sub_cancel_left, List.getElem?_append_left (by omega), List.getElem?_take_of_lt hi,
    List.getElem?_drop]

/-! ## Between two steps -/

/-- Both arrays are as long as the cache believes. -/
structure Vec.Ok (vec : Vec) : Prop where
  /-- The vectors. -/
  v : vec.sz ≤ vec.v.length
  /-- The types. -/
  t : vec.sz ≤ vec.t.length
  /-- The size is an `unsigned int`. -/
  lt : vec.sz < 2 ^ 32
  /-- The offset lies inside. -/
  off : vec.off ≤ vec.sz

/-- A base between two steps. -/
structure State.Ok (s : State) : Prop where
  /-- The arrays. -/
  vec : ∀ vec, s.vec = some vec → vec.Ok
  /-- Vectors that are up to date lie inside the arrays. -/
  uptoDate : s.uptoDate = true → s.cacheAvailable = true ∧
    ∃ vec, s.vec = some vec ∧ vec.off + s.num ≤ vec.sz
  /-- Vectors that are part of the base are there. -/
  grpalloc : s.grpalloc = true → s.cacheAvailable = true ∧ s.vec.isSome
  /-- The number of nodes is an `unsigned int`. -/
  num : s.num < 2 ^ 32
  /-- So are the settings. -/
  minAlloc : s.minAlloc < 2 ^ 32
  /-- So are the settings. -/
  minOffset : s.minOffset < 2 ^ 32

/-- The sums fit, and the offset of the configuration lies inside arrays that are not up to
date. -/
def State.Fits (s : State) (sz : Nat) : Prop :=
  s.cacheAvailable = true →
    match s.vec with
    | none =>
      sz + s.minAlloc + s.minOffset < 2 ^ 32 ∨
        (2 ^ 32 ≤ sz + s.minAlloc ∧ sz + s.minOffset < 2 ^ 32)
    | some vec =>
      if s.uptoDate then sz + s.minOffset < 2 ^ 32 ∨ sz + vec.off ≤ vec.sz
      else s.minOffset ≤ vec.sz ∧ sz + s.minOffset < 2 ^ 32

/-- What is asked of `vstr__cache_iovec_alloc`: what it promises is there, vectors that are up to
date stay, and a vector is not lost. -/
structure AllocSafe (s : State) (sz : Nat) (r : Bool × State) : Prop where
  /-- There is room in both arrays. -/
  room : r.1 = true → ∃ vec, r.2.vec = some vec ∧ vec.off + sz ≤ vec.sz ∧
    vec.sz ≤ vec.v.length ∧ vec.sz ≤ vec.t.length
  /-- The vectors of the nodes stay. -/
  kept : s.uptoDate = true → ∀ vec, s.vec = some vec → ∃ vec', r.2.vec = some vec' ∧
    ∀ i < s.num, vec'.v[vec'.off + i]? = vec.v[vec.off + i]? ∧
      vec'.t[vec'.off + i]? = vec.t[vec.off + i]?
  /-- The arrays are never shorter than the cache believes. -/
  usable : r.1 = false → (s.vec.isSome → r.2.vec.isSome) ∧
    ∀ vec, r.2.vec = some vec → vec.sz ≤ vec.v.length ∧ vec.sz ≤ vec.t.length

/-- The vectors of the first `num` nodes are the same. -/
def Keeps (num : Nat) (vec vec' : Vec) : Prop :=
  ∀ i < num, vec'.v[vec'.off + i]? = vec.v[vec.off + i]? ∧
    vec'.t[vec'.off + i]? = vec.t[vec.off + i]?

theorem Keeps.trans {num : Nat} {a b c : Vec} (h : Keeps num a b) (h' : Keeps num b c) :
    Keeps num a c := fun i hi =>
  ⟨((h' i hi).1).trans (h i hi).1, ((h' i hi).2).trans (h i hi).2⟩

theorem uintSub_of_lt {a b : Nat} (h : a < b) : uintSub a b = a + 2 ^ 32 - b :=
  if_neg (Nat.not_le.mpr h)

theorem uintSub_of_ge {a b : Nat} (h : b ≤ a) : uintSub a b = a - b := if_pos h

/-! ## `vstr__cache_iovec_alloc` -/

theorem memmove_ok (h : vec.Ok) (hs : vec.off + s.num ≤ vec.sz) (hd : s.minOffset < vec.off) :
    (cacheIovecMemmove s vec).Ok ∧ Keeps s.num vec (cacheIovecMemmove s vec) := by
  have hv := h.v
  have ht := h.t
  refine ⟨⟨?_, ?_, h.lt, ?_⟩, fun i hi => ⟨?_, ?_⟩⟩
  · dsimp only [cacheIovecMemmove]
    rw [length_moveTo (by omega) (by omega)]
    exact hv
  · dsimp only [cacheIovecMemmove]
    rw [length_moveTo (by omega) (by omega)]
    exact ht
  · dsimp only [cacheIovecMemmove]
    omega
  · exact getElem?_moveTo (by omega) (by omega) hi
  · exact getElem?_moveTo (by omega) (by omega) hi

/-- The vectors get longer. -/
theorem grow_ok (h : vec.Ok) (hfit : sz + s.minOffset < 2 ^ 32) (hle : vec.sz ≤ sz + s.minOffset)
    (ho : vec.off ≤ s.minOffset) :
    (cacheIovecGrow s sz mem vec).2.Ok ∧
      ((cacheIovecGrow s sz mem vec).1 = true →
        (cacheIovecGrow s sz mem vec).2.off + sz ≤ (cacheIovecGrow s sz mem vec).2.sz) ∧
      (cacheIovecGrow s sz mem vec).2.off = vec.off ∧
      vec.sz ≤ (cacheIovecGrow s sz mem vec).2.sz ∧
      (vec.off + s.num ≤ vec.sz → Keeps s.num vec (cacheIovecGrow s sz mem vec).2) := by
  have hv := h.v
  have ht := h.t
  have hoff := h.off
  have hu := uint_of_lt hfit
  rw [cacheIovecGrow]
  by_cases h1 : mem .moreV = true
  · rw [if_neg (by simpa using h1)]
    have hkeep : vec.off + s.num ≤ vec.sz → ∀ i < s.num,
        (resize noIov (uint (sz + s.minOffset)) vec.v)[vec.off + i]? = vec.v[vec.off + i]? :=
      fun hn i hi => getElem?_resize (by omega) (by omega)
    have hkeep' : vec.off + s.num ≤ vec.sz → ∀ i < s.num,
        (resize .buf (uint (sz + s.minOffset)) vec.t)[vec.off + i]? = vec.t[vec.off + i]? :=
      fun hn i hi => getElem?_resize (by omega) (by omega)
    by_cases h2 : mem .moreT = true
    · rw [if_neg (by simpa using h2)]
      refine ⟨⟨?_, ?_, ?_, ?_⟩, fun _ => ?_, rfl, ?_,
        fun hn i hi => ⟨hkeep hn i hi, hkeep' hn i hi⟩⟩
      · exact Nat.le_of_eq (length_resize _ _ _).symm
      · exact Nat.le_of_eq (length_resize _ _ _).symm
      · exact uint_lt _
      all_goals
        dsimp only
        omega
    · rw [if_pos (by simpa using h2)]
      refine ⟨⟨?_, ht, h.lt, h.off⟩, fun e => absurd e Bool.false_ne_true, rfl, Nat.le_refl _,
        fun hn i hi => ⟨hkeep hn i hi, rfl⟩⟩
      dsimp only
      rw [length_resize]
      omega
  · rw [if_pos (by simpa using h1)]
    exact ⟨h, fun e => absurd e Bool.false_ne_true, rfl, Nat.le_refl _, fun _ i _ => ⟨rfl, rfl⟩⟩

/-- What becomes of a vector that has its offset. -/
def growOrKeep (s : State) (sz : Nat) (mem : Part → Bool) (vec : Vec) : Bool × Vec :=
  if sz > uintSub vec.sz vec.off then cacheIovecGrow s sz mem vec else (true, vec)

theorem growOrKeep_ok (h : vec.Ok)
    (hgrow : sz > uintSub vec.sz vec.off →
      sz + s.minOffset < 2 ^ 32 ∧ vec.sz ≤ sz + s.minOffset ∧ vec.off ≤ s.minOffset)
    (hkeep : sz ≤ uintSub vec.sz vec.off → vec.off + sz ≤ vec.sz) :
    (growOrKeep s sz mem vec).2.Ok ∧
      ((growOrKeep s sz mem vec).1 = true →
        (growOrKeep s sz mem vec).2.off + sz ≤ (growOrKeep s sz mem vec).2.sz) ∧
      (growOrKeep s sz mem vec).2.off = vec.off ∧
      vec.sz ≤ (growOrKeep s sz mem vec).2.sz ∧
      (vec.off + s.num ≤ vec.sz → Keeps s.num vec (growOrKeep s sz mem vec).2) := by
  rw [growOrKeep]
  by_cases hc : sz > uintSub vec.sz vec.off
  · rw [if_pos hc]
    obtain ⟨h1, h2, h3⟩ := hgrow hc
    exact grow_ok h h1 h2 h3
  · rw [if_neg hc]
    exact ⟨h, fun _ => hkeep (Nat.not_lt.mp hc), rfl, Nat.le_refl _, fun _ i _ => ⟨rfl, rfl⟩⟩

theorem cacheIovecAlloc_eq (hc : s.cacheAvailable = true)
    (hv : s.vec.or (cacheIovecMake s sz mem) = some vec) :
    cacheIovecAlloc s sz mem =
      ((growOrKeep s sz mem (cacheIovecAlign s sz vec)).1,
        { s with vec := some (growOrKeep s sz mem (cacheIovecAlign s sz vec)).2 }) := by
  rw [cacheIovecAlloc, if_neg (by simpa using hc), hv, growOrKeep]
  dsimp only
  split <;> rfl

/-- The vector cache behind a call: what was promised, and that the base is right again. -/
structure AllocDone (s : State) (sz : Nat) (r : Bool × State) : Prop extends AllocSafe s sz r where
  /-- Nothing but the vectors moves. -/
  frame : r.2 = { s with vec := r.2.vec }
  /-- The arrays. -/
  vecOk : ∀ vec, r.2.vec = some vec → vec.Ok
  /-- The offset of vectors that were not up to date. -/
  off : r.1 = true → s.uptoDate = false → ∀ vec, r.2.vec = some vec → vec.off = s.minOffset
  /-- A vector is not lost. -/
  there : s.vec.isSome → r.2.vec.isSome
  /-- The vectors of the nodes are still inside. -/
  inside : s.uptoDate = true → ∃ vec, r.2.vec = some vec ∧ vec.off + s.num ≤ vec.sz

/-- The call where there is a vector, once its offset is known. -/
theorem done_of_align {a : Vec} (hc : s.cacheAvailable = true)
    (hv : s.vec.or (cacheIovecMake s sz mem) = some vec) (ha : cacheIovecAlign s sz vec = a)
    (aOk : a.Ok)
    (hgrow : sz > uintSub a.sz a.off →
      sz + s.minOffset < 2 ^ 32 ∧ a.sz ≤ sz + s.minOffset ∧ a.off ≤ s.minOffset)
    (hkeep : sz ≤ uintSub a.sz a.off → a.off + sz ≤ a.sz)
    (hup : s.uptoDate = true → s.vec = some vec ∧ a.off + s.num ≤ a.sz ∧ Keeps s.num vec a)
    (hoff : s.uptoDate = false → a.off = s.minOffset) :
    AllocDone s sz (cacheIovecAlloc s sz mem) := by
  rw [cacheIovecAlloc_eq hc hv, ha]
  obtain ⟨hok, hroom, ho, hle, hk⟩ := growOrKeep_ok (s := s) aOk hgrow hkeep
  generalize growOrKeep s sz mem a = r at hok hroom ho hle hk
  exact {
    room := fun e => ⟨r.2, rfl, hroom e, hok.v, hok.t⟩
    kept := fun h vec' e => by
      obtain ⟨e', hin, hka⟩ := hup h
      obtain rfl := Option.some.inj (e'.symm.trans e)
      exact ⟨r.2, rfl, hka.trans (hk hin)⟩
    usable := fun _ => ⟨fun _ => rfl, fun vec' e => by
      obtain rfl := Option.some.inj e
      exact ⟨hok.v, hok.t⟩⟩
    frame := rfl
    vecOk := fun vec' e => by
      obtain rfl := Option.some.inj e
      exact hok
    off := fun _ h vec' e => by
      obtain rfl := Option.some.inj e
      exact ho.trans (hoff h)
    there := fun _ => rfl
    inside := fun h => by
      obtain ⟨-, hin, -⟩ := hup h
      exact ⟨r.2, rfl, by omega⟩ }

/-- The call where there is no vector, and none is made. -/
theorem done_of_none (ok : s.Ok) (hup : s.uptoDate = false) :
    AllocDone s sz (false, s) where
  room := fun e => absurd e Bool.false_ne_true
  kept := fun h => absurd (hup.symm.trans h) Bool.false_ne_true
  usable := fun _ => ⟨id, fun vec e => ⟨(ok.vec vec e).v, (ok.vec vec e).t⟩⟩
  frame := rfl
  vecOk := ok.vec
  off := fun e => absurd e Bool.false_ne_true
  there := id
  inside := fun h => absurd (hup.symm.trans h) Bool.false_ne_true

theorem make_ok (h : cacheIovecMake s sz mem = some vec) :
    vec.Ok ∧ vec.sz = uint (sz + s.minAlloc + s.minOffset) := by
  rw [cacheIovecMake] at h
  split at h
  · obtain rfl := Option.some.inj h
    exact ⟨⟨by simp, by simp, uint_lt _, Nat.zero_le _⟩, rfl⟩
  · cases h

/-- The arrays are made. -/
theorem alloc_made (mem : Part → Bool) (ok : s.Ok) (hsz : sz < 2 ^ 32)
    (hc : s.cacheAvailable = true) (hv : s.vec = none)
    (hf : sz + s.minAlloc + s.minOffset < 2 ^ 32 ∨
      (2 ^ 32 ≤ sz + s.minAlloc ∧ sz + s.minOffset < 2 ^ 32)) :
    AllocDone s sz (cacheIovecAlloc s sz mem) := by
  have hm := ok.minOffset
  have ha := ok.minAlloc
  have hup : s.uptoDate = false := Bool.eq_false_iff.mpr fun h => by
    obtain ⟨-, vec, e, -⟩ := ok.uptoDate h
    rw [hv] at e
    cases e
  cases hmk : cacheIovecMake s sz mem with
  | none =>
    rw [cacheIovecAlloc, if_neg (by simpa using hc), hv, hmk]
    exact done_of_none ok hup
  | some vec =>
    obtain ⟨vok, hvs⟩ := make_ok hmk
    have hal : cacheIovecAlign s sz vec = { vec with off := s.minOffset } :=
      if_pos (by simp [hup])
    have hu : vec.sz = (sz + s.minAlloc + s.minOffset) % 2 ^ 32 := hvs
    refine done_of_align hc (by rw [hv, hmk, Option.none_or]) hal ⟨vok.v, vok.t, vok.lt, ?_⟩
      (fun hg => ?_) (fun hk => ?_) (fun h => absurd (hup.symm.trans h) Bool.false_ne_true)
      (fun _ => rfl)
    · dsimp only
      omega
    · dsimp only at hg ⊢
      by_cases hle : s.minOffset ≤ vec.sz
      · rw [uintSub_of_ge hle] at hg
        omega
      · rw [uintSub_of_lt (by omega)] at hg
        omega
    · dsimp only at hk ⊢
      by_cases hle : s.minOffset ≤ vec.sz
      · rw [uintSub_of_ge hle] at hk
        omega
      · rw [uintSub_of_lt (by omega)] at hk
        omega

/-- The arrays have vectors that are up to date. -/
theorem alloc_uptodate {vec : Vec} (mem : Part → Bool) (ok : s.Ok)
    (hc : s.cacheAvailable = true) (hv : s.vec = some vec) (hup : s.uptoDate = true)
    (hf : sz + s.minOffset < 2 ^ 32 ∨ sz + vec.off ≤ vec.sz) :
    AllocDone s sz (cacheIovecAlloc s sz mem) := by
  have vok := ok.vec vec hv
  have hlt := vok.lt
  have hor : s.vec.or (cacheIovecMake s sz mem) = some vec := by rw [hv, Option.some_or]
  obtain ⟨-, vec', e, hin⟩ := ok.uptoDate hup
  obtain rfl := Option.some.inj (e.symm.trans hv)
  by_cases hmv : vec'.off > s.minOffset ∧ sz > uintSub vec'.sz vec'.off
  · have hal : cacheIovecAlign s sz vec' = cacheIovecMemmove s vec' := by
      rw [cacheIovecAlign, if_neg (by simp [hup]), if_pos hmv]
    obtain ⟨mok, mk⟩ := memmove_ok vok hin hmv.1
    have hle : s.minOffset ≤ vec'.sz := by omega
    have hg := hmv.2
    rw [uintSub_of_ge (by omega)] at hg
    refine done_of_align hc hor hal mok (fun hg => ?_) (fun hk => ?_)
      (fun _ => ⟨hv, ?_, mk⟩) (fun h => absurd (hup.symm.trans h) (by decide))
    · rw [cacheIovecMemmove] at hg ⊢
      dsimp only at hg ⊢
      rw [uintSub_of_ge hle] at hg
      omega
    · rw [cacheIovecMemmove] at hk ⊢
      dsimp only at hk ⊢
      rw [uintSub_of_ge hle] at hk
      omega
    · rw [cacheIovecMemmove]
      dsimp only
      omega
  · have hal : cacheIovecAlign s sz vec' = vec' := by
      rw [cacheIovecAlign, if_neg (by simp [hup]), if_neg hmv]
    rw [uintSub_of_ge (by omega)] at hmv
    refine done_of_align hc hor hal vok (fun hg => ?_) (fun hk => ?_)
      (fun _ => ⟨hv, hin, fun i _ => ⟨rfl, rfl⟩⟩)
      (fun h => absurd (hup.symm.trans h) (by decide))
    · rw [uintSub_of_ge (by omega)] at hg
      omega
    · rw [uintSub_of_ge (by omega)] at hk
      omega

/-- The arrays have vectors that are not up to date. -/
theorem alloc_stale {vec : Vec} (mem : Part → Bool) (ok : s.Ok)
    (hc : s.cacheAvailable = true) (hv : s.vec = some vec) (hup : ¬ s.uptoDate = true)
    (hf : s.minOffset ≤ vec.sz ∧ sz + s.minOffset < 2 ^ 32) :
    AllocDone s sz (cacheIovecAlloc s sz mem) := by
  have vok := ok.vec vec hv
  have hlt := vok.lt
  have hor : s.vec.or (cacheIovecMake s sz mem) = some vec := by rw [hv, Option.some_or]
  have hal : cacheIovecAlign s sz vec = { vec with off := s.minOffset } :=
    if_pos (by simpa using hup)
  refine done_of_align hc hor hal ⟨vok.v, vok.t, vok.lt, ?_⟩ (fun hg => ?_) (fun hk => ?_)
    (fun h => absurd h hup) (fun _ => rfl)
  · exact hf.1
  · dsimp only at hg ⊢
    rw [uintSub_of_ge hf.1] at hg
    omega
  · dsimp only at hk ⊢
    rw [uintSub_of_ge hf.1] at hk
    omega

/-- Where the sums fit, the call does what is asked of it. -/
theorem alloc_done (mem : Part → Bool) (ok : s.Ok) (hsz : sz < 2 ^ 32) (hf : s.Fits sz) :
    AllocDone s sz (cacheIovecAlloc s sz mem) := by
  by_cases hc : s.cacheAvailable = true
  swap
  · rw [cacheIovecAlloc, if_pos (by simpa using hc)]
    exact done_of_none ok (Bool.eq_false_iff.mpr fun h => hc (ok.uptoDate h).1)
  have hf := hf hc
  cases hv : s.vec with
  | none =>
    rw [hv] at hf
    exact alloc_made mem ok hsz hc hv hf
  | some vec =>
    simp only [hv] at hf
    by_cases hup : s.uptoDate = true
    · rw [if_pos hup] at hf
      exact alloc_uptodate mem ok hc hv hup hf
    · rw [if_neg hup] at hf
      exact alloc_stale mem ok hc hv hup hf

/-- With all the memory it asks for, the call succeeds. -/
theorem growOrKeep_all (s : State) (sz : Nat) (vec : Vec) :
    (growOrKeep s sz (fun _ => true) vec).1 = true ∧
      (growOrKeep s sz (fun _ => true) vec).2.off = vec.off ∧
      (growOrKeep s sz (fun _ => true) vec).2.sz =
        if sz > uintSub vec.sz vec.off then uint (sz + s.minOffset) else vec.sz := by
  rw [growOrKeep]
  split <;> exact ⟨rfl, rfl, rfl⟩

theorem not_safe_of_align {a : Vec} (hc : s.cacheAvailable = true)
    (hv : s.vec.or (cacheIovecMake s sz fun _ => true) = some vec)
    (ha : cacheIovecAlign s sz vec = a)
    (h : ¬ a.off + sz ≤ if sz > uintSub a.sz a.off then uint (sz + s.minOffset) else a.sz) :
    ¬ AllocSafe s sz (cacheIovecAlloc s sz fun _ => true) := by
  intro safe
  obtain ⟨h1, h2, h3⟩ := growOrKeep_all s sz a
  rw [cacheIovecAlloc_eq hc hv, ha] at safe
  obtain ⟨vec', e, hroom, -⟩ := safe.room h1
  obtain rfl := Option.some.inj e
  rw [h2, h3] at hroom
  exact h hroom

/-- Where they do not, it succeeds without the room. -/
theorem not_safe (ok : s.Ok) (hsz : sz < 2 ^ 32) (hf : ¬ s.Fits sz) :
    ¬ AllocSafe s sz (cacheIovecAlloc s sz fun _ => true) := by
  have hm := ok.minOffset
  have ha := ok.minAlloc
  rw [State.Fits, Classical.not_imp] at hf
  obtain ⟨hc, hf⟩ := hf
  cases hv : s.vec with
  | none =>
    have hup : s.uptoDate = false := Bool.eq_false_iff.mpr fun h => by
      obtain ⟨-, vec, e, -⟩ := ok.uptoDate h
      rw [hv] at e
      cases e
    simp only [hv] at hf
    have hal : ∀ vec, cacheIovecAlign s sz vec = { vec with off := s.minOffset } :=
      fun _ => if_pos (by simp [hup])
    refine not_safe_of_align hc (by rw [hv, Option.none_or]; rfl) (hal _) ?_
    dsimp only
    have hu : uint (sz + s.minAlloc + s.minOffset) = (sz + s.minAlloc + s.minOffset) % 2 ^ 32 := rfl
    have hu' : uint (sz + s.minOffset) = (sz + s.minOffset) % 2 ^ 32 := rfl
    by_cases hle : s.minOffset ≤ uint (sz + s.minAlloc + s.minOffset)
    · rw [uintSub_of_ge hle]
      split <;> omega
    · rw [uintSub_of_lt (by omega)]
      split <;> omega
  | some vec =>
    have vok := ok.vec vec hv
    have hlt := vok.lt
    have hor : s.vec.or (cacheIovecMake s sz fun _ => true) = some vec := by rw [hv, Option.some_or]
    have hu' : uint (sz + s.minOffset) = (sz + s.minOffset) % 2 ^ 32 := rfl
    simp only [hv] at hf
    by_cases hup : s.uptoDate = true
    · obtain ⟨-, vec', e, hin⟩ := ok.uptoDate hup
      obtain rfl := Option.some.inj (e.symm.trans hv)
      rw [if_pos hup] at hf
      by_cases hmv : vec'.off > s.minOffset ∧ sz > uintSub vec'.sz vec'.off
      · have hal : cacheIovecAlign s sz vec' = cacheIovecMemmove s vec' := by
          rw [cacheIovecAlign, if_neg (by simp [hup]), if_pos hmv]
        refine not_safe_of_align hc hor hal ?_
        rw [cacheIovecMemmove]
        dsimp only
        rw [uintSub_of_ge (show s.minOffset ≤ vec'.sz by omega)]
        split <;> omega
      · have hal : cacheIovecAlign s sz vec' = vec' := by
          rw [cacheIovecAlign, if_neg (by simp [hup]), if_neg hmv]
        rw [uintSub_of_ge (by omega)] at hmv
        refine not_safe_of_align hc hor hal ?_
        rw [uintSub_of_ge (by omega)]
        split <;> omega
    · rw [if_neg hup] at hf
      have hal : cacheIovecAlign s sz vec = { vec with off := s.minOffset } :=
        if_pos (by simpa using hup)
      refine not_safe_of_align hc hor hal ?_
      dsimp only
      by_cases hle : s.minOffset ≤ vec.sz
      · rw [uintSub_of_ge hle]
        split <;> omega
      · rw [uintSub_of_lt (by omega)]
        split <;> omega

/-- The call is safe, whichever allocations fail, just where the sums fit. -/
theorem allocSafe_iff (ok : s.Ok) (hsz : sz < 2 ^ 32) :
    (∀ mem, AllocSafe s sz (cacheIovecAlloc s sz mem)) ↔ s.Fits sz :=
  ⟨fun h => by_contra fun hf => not_safe ok hsz hf (h _),
    fun hf mem => (alloc_done mem ok hsz hf).toAllocSafe⟩

/-! ## Steps -/

/-- A step that can happen. -/
def State.Legal (s : State) : Step → Prop
  | .alloc sz _ => sz < 2 ^ 32 ∧ s.num ≤ sz
  | .valid ns _ => ns.length = s.num
  | .add _ _ => s.num + 1 < 2 ^ 32
  | .addIovec sz old new _ _ => s.num + sz < 2 ^ 32 ∧ old.length = s.num ∧ new.length ≤ sz
  | .edit i _ => i < s.num
  | .delBeg num => num ≤ s.num
  | .delMid i num => i + num ≤ s.num
  | .change num => num < 2 ^ 32
  | _ => True

/-- The sums of a step fit, and an offset that is set lies inside the arrays. -/
def State.Meets (s : State) : Step → Prop
  | .alloc sz _ => s.Fits sz
  | .valid _ _ => s.uptoDate = false → s.num ≠ 0 → s.Fits s.num
  | .addIovec sz _ _ _ _ => s.Fits (s.num + sz)
  | .remake => s.grpalloc = true → ∀ vec, s.vec = some vec → s.minOffset ≤ vec.sz
  | _ => True

theorem toNat_emod_lt (val : Int) : (val % 2 ^ 32).toNat < 2 ^ 32 := by
  have := Int.emod_lt_of_pos val (show (0 : Int) < 2 ^ 32 by decide)
  omega

theorem State.Ok.grp (ok : s.Ok) (h : s.grpalloc = true) : s.cacheAvailable = true :=
  (ok.grpalloc h).1

theorem State.Ok.alloc (mem : Part → Bool) (ok : s.Ok) (hsz : sz < 2 ^ 32) (hf : s.Fits sz) :
    (cacheIovecAlloc s sz mem).2.Ok := by
  have h := alloc_done mem ok hsz hf
  have hvec := h.vecOk
  have hin := h.inside
  have hth := h.there
  rw [h.frame]
  exact ⟨hvec, fun hup => ⟨(ok.uptoDate hup).1, hin hup⟩,
    fun hg => ⟨(ok.grpalloc hg).1, hth (ok.grpalloc hg).2⟩, ok.num, ok.minAlloc, ok.minOffset⟩

/-- Vectors written inside the arrays. -/
def Vec.fill (vec : Vec) (i : Nat) (ns : List (Iovec × NodeType)) : Vec :=
  { vec with
    v := writeAt vec.v (vec.off + i) (ns.map Prod.fst)
    t := writeAt vec.t (vec.off + i) (ns.map Prod.snd) }

theorem Vec.Ok.fill {ns : List (Iovec × NodeType)} (h : vec.Ok)
    (hi : vec.off + i + ns.length ≤ vec.sz) : (vec.fill i ns).Ok := by
  have hv := h.v
  have ht := h.t
  refine ⟨?_, ?_, h.lt, h.off⟩
  · dsimp only [Vec.fill]
    rw [length_writeAt (by rw [List.length_map]; omega)]
    exact hv
  · dsimp only [Vec.fill]
    rw [length_writeAt (by rw [List.length_map]; omega)]
    exact ht

theorem fill_eq (hv : s.vec = some vec) (i : Nat) (ns : List (Iovec × NodeType)) :
    s.fill i ns = { s with vec := some (vec.fill i ns) } := by
  rw [State.fill, hv]
  rfl

/-- A base whose vectors are some that are right. -/
theorem ok_of_vec (vec : Vec) (h : vec.Ok) (hv : s.vec = some vec) (hn : s.num < 2 ^ 32)
    (hup : s.uptoDate = true → s.cacheAvailable = true ∧ vec.off + s.num ≤ vec.sz)
    (hg : s.grpalloc = true → s.cacheAvailable = true) (ha : s.minAlloc < 2 ^ 32)
    (hm : s.minOffset < 2 ^ 32) : s.Ok where
  vec := fun vec' e => by
    obtain rfl := Option.some.inj (hv.symm.trans e)
    exact h
  uptoDate := fun e => ⟨(hup e).1, vec, hv, (hup e).2⟩
  grpalloc := fun e => ⟨hg e, by rw [hv]; rfl⟩
  num := hn
  minAlloc := ha
  minOffset := hm

/-- Where there is room already, only the offset moves. -/
theorem alloc_room (hc : s.cacheAvailable = true) (hv : s.vec = some vec)
    (hup : s.uptoDate = false) (hm : s.minOffset + sz ≤ vec.sz) :
    cacheIovecAlloc s sz mem = (true, { s with vec := some { vec with off := s.minOffset } }) := by
  have hal : cacheIovecAlign s sz vec = { vec with off := s.minOffset } :=
    if_pos (by simp [hup])
  rw [cacheIovecAlloc_eq hc (by rw [hv, Option.some_or]), hal, growOrKeep, if_neg]
  dsimp only
  rw [uintSub_of_ge (by omega)]
  omega

/-- Vectors that are not up to date get so, where there is room. -/
theorem valid_room (sz : Nat) (mem : Part → Bool) {ns : List (Iovec × NodeType)} (ok : s.Ok)
    (hv : s.vec = some vec)
    (hc : s.cacheAvailable = true) (hns : ns.length = s.num) (hroom : vec.off + s.num + sz ≤ vec.sz)
    (hoff : s.uptoDate = false → vec.off = s.minOffset) :
    ∃ vec' b, (cacheIovecValid s ns mem).2 = { s with vec := some vec', uptoDate := b } ∧
      vec'.Ok ∧ vec'.off + s.num + sz ≤ vec'.sz := by
  have vok := ok.vec vec hv
  rw [cacheIovecValid]
  by_cases hup : s.uptoDate = true
  · rw [if_pos hup]
    refine ⟨vec, true, ?_, vok, hroom⟩
    rw [← hv, ← hup]
  rw [if_neg hup]
  by_cases h0 : s.num = 0
  · rw [if_pos h0]
    refine ⟨vec, s.cacheAvailable && s.vec.any (·.sz ≠ 0), ?_, vok, hroom⟩
    rw [← hv]
  rw [if_neg h0]
  have hup' : s.uptoDate = false := by simpa using hup
  have ho := hoff hup'
  rw [alloc_room hc hv hup' (by omega)]
  dsimp only
  rw [if_pos rfl, fill_eq rfl]
  have vok' : Vec.Ok { vec with off := s.minOffset } := ⟨vok.v, vok.t, vok.lt, by dsimp only; omega⟩
  refine ⟨_, true, rfl, vok'.fill (by dsimp only; omega), ?_⟩
  dsimp only [Vec.fill]
  omega

theorem State.Ok.valid {ns : List (Iovec × NodeType)} (ok : s.Ok) (hns : ns.length = s.num)
    (hf : s.uptoDate = false → s.num ≠ 0 → s.Fits s.num) : (cacheIovecValid s ns mem).2.Ok := by
  rw [cacheIovecValid]
  by_cases hup : s.uptoDate = true
  · rw [if_pos hup]
    exact ok
  have hup' : s.uptoDate = false := by simpa using hup
  rw [if_neg hup]
  by_cases h0 : s.num = 0
  · rw [if_pos h0]
    refine ⟨ok.vec, fun h => ?_, ok.grpalloc, ok.num, ok.minAlloc, ok.minOffset⟩
    obtain ⟨hc, hv⟩ := (Bool.and_eq_true _ _).mp h
    obtain ⟨vec, e, -⟩ := Option.any_eq_true _ _ |>.mp hv
    refine ⟨hc, vec, e, ?_⟩
    dsimp only
    rw [h0]
    exact (ok.vec vec e).off
  rw [if_neg h0]
  have h := alloc_done mem ok ok.num (hf hup' h0)
  have hok := ok.alloc mem ok.num (hf hup' h0)
  by_cases hr : (cacheIovecAlloc s s.num mem).1 = true
  · dsimp only
    rw [if_pos hr]
    obtain ⟨vec, e, hroom, -⟩ := h.room hr
    have hc : s.cacheAvailable = true := by
      by_contra hc
      rw [cacheIovecAlloc, if_pos (by simpa using hc)] at hr
      cases hr
    have hfr := h.frame
    rw [e] at hfr
    rw [hfr, fill_eq rfl]
    refine ok_of_vec _ ((h.vecOk vec e).fill (i := 0) ?_) rfl ok.num (fun _ => ⟨hc, ?_⟩)
      ok.grp ok.minAlloc
      ok.minOffset
    · omega
    · dsimp only [Vec.fill]
      omega
  · dsimp only
    rw [if_neg hr]
    exact hok

theorem State.Ok.maybeAdd (ok : s.Ok) (hn : s.num + 1 < 2 ^ 32) (n : Iovec × NodeType)
    (atEnd : Bool) : (cacheIovecMaybeAdd { s with num := s.num + 1 } n atEnd).Ok := by
  rw [cacheIovecMaybeAdd]
  by_cases hup : s.uptoDate = true
  swap
  · rw [if_pos (by simpa using hup)]
    exact ⟨ok.vec, fun h => absurd h hup, ok.grpalloc, hn, ok.minAlloc, ok.minOffset⟩
  rw [if_neg (by simpa using hup)]
  obtain ⟨hc, vec, e, hin⟩ := ok.uptoDate hup
  have vok := ok.vec vec e
  simp only [e]
  rw [uintSub_of_ge vok.off]
  split
  · rw [fill_eq rfl]
    refine ok_of_vec _ (vok.fill ?_) rfl hn (fun _ => ⟨hc, ?_⟩) ok.grp ok.minAlloc
      ok.minOffset
    · simp only [List.length_singleton]
      omega
    · dsimp only [Vec.fill]
      omega
  split
  · have vok' : Vec.Ok { vec with off := vec.off - 1 } :=
      ⟨vok.v, vok.t, vok.lt, by dsimp only; omega⟩
    rw [fill_eq rfl]
    refine ok_of_vec _ (vok'.fill ?_) rfl hn (fun _ => ⟨hc, ?_⟩) ok.grp ok.minAlloc
      ok.minOffset
    · simp only [List.length_singleton]
      omega
    · dsimp only [Vec.fill]
      omega
  · exact ⟨fun vec' e' => ok.vec vec' (e.trans e'), fun h => absurd h Bool.false_ne_true,
      fun hg => ⟨(ok.grpalloc hg).1, rfl⟩, hn,
      ok.minAlloc, ok.minOffset⟩

theorem State.Ok.addIovec {mem' : Part → Bool} {old new : List (Iovec × NodeType)} (ok : s.Ok)
    (hn : s.num + sz < 2 ^ 32) (hold : old.length = s.num) (hnew : new.length ≤ sz)
    (hf : s.Fits (s.num + sz)) : (addIovec s sz old new mem mem').Ok := by
  have h := alloc_done mem ok hn hf
  have hok := ok.alloc mem hn hf
  rw [Vector.addIovec]
  by_cases hr : (cacheIovecAlloc s (s.num + sz) mem).1 = true
  · dsimp only
    rw [if_neg (by simpa using hr)]
    obtain ⟨vec, e, hroom, -⟩ := h.room hr
    have hc : s.cacheAvailable = true := by
      by_contra hc
      rw [cacheIovecAlloc, if_pos (by simpa using hc)] at hr
      cases hr
    have hfr := h.frame
    rw [e] at hfr
    have hoff := h.off hr
    generalize (cacheIovecAlloc s (s.num + sz) mem).2 = u at *
    subst hfr
    obtain ⟨vec', b, e', vok', hroom'⟩ := valid_room sz mem' hok rfl hc hold
      (by dsimp only; omega) (fun hup => hoff hup vec rfl)
    rw [e', fill_eq rfl]
    refine ok_of_vec _ (vok'.fill ?_) rfl (show s.num + new.length < 2 ^ 32 by omega)
      (fun _ => ⟨hc, ?_⟩) ok.grp ok.minAlloc
      ok.minOffset
    · dsimp only at hroom' ⊢
      omega
    · dsimp only [Vec.fill] at hroom' ⊢
      omega
  · dsimp only
    rw [if_pos (by simpa using hr)]
    exact hok

theorem State.Ok.edit {i : Nat} {n : Iovec × NodeType} (ok : s.Ok) (hi : i < s.num) :
    (s.step (.edit i n)).Ok := by
  rw [State.step]
  split
  · rename_i hup
    obtain ⟨hc, vec, e, hin⟩ := ok.uptoDate hup
    rw [fill_eq e]
    refine ok_of_vec _ ((ok.vec vec e).fill ?_) rfl ok.num (fun _ => ⟨hc, hin⟩) ok.grp ok.minAlloc
      ok.minOffset
    simp only [List.length_singleton]
    omega
  · exact ok

theorem State.Ok.delBeg {num : Nat} (ok : s.Ok) (hle : num ≤ s.num) :
    (s.step (.delBeg num)).Ok := by
  have hnum : s.num - num < 2 ^ 32 := Nat.lt_of_le_of_lt (Nat.sub_le _ _) ok.num
  rw [State.step, cacheIovecDelBeg]
  by_cases hup : s.uptoDate = true
  · obtain ⟨hc, vec, e, hin⟩ := ok.uptoDate hup
    have vok := ok.vec vec e
    rw [if_pos hup, e, Option.map_some]
    refine ok_of_vec { vec with off := vec.off + num } ⟨vok.v, vok.t, vok.lt, ?_⟩ rfl
      hnum (fun _ => ⟨hc, ?_⟩) ok.grp ok.minAlloc ok.minOffset
    all_goals
      dsimp only
      omega
  · rw [if_neg hup]
    exact ⟨ok.vec, fun h => absurd h hup, ok.grpalloc, hnum, ok.minAlloc, ok.minOffset⟩

theorem State.Ok.delMid {i num : Nat} (ok : s.Ok) (hle : i + num ≤ s.num) :
    (s.step (.delMid i num)).Ok := by
  have hnum : s.num - num < 2 ^ 32 := Nat.lt_of_le_of_lt (Nat.sub_le _ _) ok.num
  rw [State.step, cacheIovecDelMid]
  by_cases hup : s.uptoDate = true
  · obtain ⟨hc, vec, e, hin⟩ := ok.uptoDate hup
    have vok := ok.vec vec e
    have hv := vok.v
    have ht := vok.t
    rw [if_pos hup, e, Option.map_some]
    refine ok_of_vec
      { vec with
        v := moveTo vec.v (vec.off + i) (vec.off + i + num) (s.num - (i + num))
        t := moveTo vec.t (vec.off + i) (vec.off + i + num) (s.num - (i + num)) }
      ⟨?_, ?_, vok.lt, vok.off⟩ rfl hnum (fun _ => ⟨hc, ?_⟩) ok.grp ok.minAlloc ok.minOffset
    · dsimp only
      rw [length_moveTo (by omega) (by omega)]
      exact hv
    · dsimp only
      rw [length_moveTo (by omega) (by omega)]
      exact ht
    · dsimp only
      omega
  · rw [if_neg hup]
    exact ⟨ok.vec, fun h => absurd h hup, ok.grpalloc, hnum, ok.minAlloc, ok.minOffset⟩

theorem State.Ok.clear (ok : s.Ok) : (s.step .clear).Ok := by
  have hpos : 0 < 2 ^ 32 := Nat.two_pow_pos 32
  have hup0 : s.uptoDate = true → s.cacheAvailable = true ∧
      ∃ vec, s.vec = some vec ∧ vec.off + 0 ≤ vec.sz := by
    intro h
    obtain ⟨hc, vec, e, hin⟩ := ok.uptoDate h
    exact ⟨hc, vec, e, by omega⟩
  have ok₀ : ({ s with num := 0 } : State).Ok :=
    ⟨ok.vec, hup0, ok.grpalloc, hpos, ok.minAlloc, ok.minOffset⟩
  rw [State.step, cacheIovecReset]
  cases hv : s.vec with
  | none =>
    rw [hv] at ok₀
    exact ok₀
  | some vec =>
    have vok := ok.vec vec hv
    dsimp only
    split
    · rename_i hc
      refine ok_of_vec
        { vec with off := if vec.sz > s.minOffset then s.minOffset else 0 }
        ⟨vok.v, vok.t, vok.lt, ?_⟩ rfl hpos (fun _ => ⟨hc.1, ?_⟩) ok.grp ok.minAlloc ok.minOffset
      all_goals
        dsimp only
        split <;> omega
    · rw [hv] at ok₀
      exact ok₀

theorem State.Ok.freeCache (ok : s.Ok) : (s.step .freeCache).Ok := by
  refine ⟨fun vec e => ok.vec vec ?_, fun h => absurd h Bool.false_ne_true, fun hg => ?_, ok.num,
    ok.minAlloc, ok.minOffset⟩
  · change (if s.grpalloc then s.vec else none) = some vec at e
    split at e
    · exact e
    · cases e
  · have hg' : s.grpalloc = true := hg
    refine ⟨ok.grp hg', ?_⟩
    rw [State.step, hg', if_pos rfl]
    exact (ok.grpalloc hg').2

theorem State.Ok.remake (ok : s.Ok) (hm : s.Meets .remake) : (s.step .remake).Ok := by
  have hpos : 0 < 2 ^ 32 := Nat.two_pow_pos 32
  rw [State.step]
  by_cases hg : s.grpalloc = true
  · obtain ⟨vec, hv⟩ := Option.isSome_iff_exists.mp (ok.grpalloc hg).2
    have vok := ok.vec vec hv
    have hle := hm hg vec hv
    rw [if_pos hg, hv, Option.map_some]
    exact ok_of_vec { vec with off := s.minOffset } ⟨vok.v, vok.t, vok.lt, hle⟩ rfl hpos
      (fun _ => ⟨ok.grp hg, hle⟩) ok.grp ok.minAlloc ok.minOffset
  · rw [if_neg hg]
    exact ⟨fun vec e => (by cases e), fun h => absurd h hg, fun h => absurd h hg, hpos,
      ok.minAlloc, ok.minOffset⟩

/-- A step leaves the vectors inside the arrays. -/
theorem State.Ok.step {e : Step} (ok : s.Ok) (hl : s.Legal e) (hm : s.Meets e) :
    (s.step e).Ok := by
  cases e with
  | setMinAlloc val =>
    exact ⟨ok.vec, ok.uptoDate, ok.grpalloc, ok.num, toNat_emod_lt val, ok.minOffset⟩
  | setMinOffset val =>
    exact ⟨ok.vec, ok.uptoDate, ok.grpalloc, ok.num, ok.minAlloc, toNat_emod_lt val⟩
  | alloc sz mem => exact ok.alloc mem hl.1 hm
  | valid ns mem => exact ok.valid hl hm
  | add n atEnd => exact ok.maybeAdd hl n atEnd
  | addIovec sz old new mem mem' => exact ok.addIovec hl.1 hl.2.1 hl.2.2 hm
  | edit i n => exact ok.edit hl
  | delBeg num => exact ok.delBeg hl
  | delMid i num => exact ok.delMid hl
  | change num =>
    exact ⟨ok.vec, fun h => absurd h Bool.false_ne_true, ok.grpalloc, hl, ok.minAlloc,
      ok.minOffset⟩
  | clear => exact ok.clear
  | freeCache => exact ok.freeCache
  | remake => exact ok.remake hm

/-- A base that was just made. -/
theorem ok_made {ca ga : Bool} {minAlloc minOffset : Nat} (ha : minAlloc < 2 ^ 32)
    (hm : minOffset < 2 ^ 32)
    (hg : ga = true → ca = true ∧ 1 + minAlloc + minOffset < 2 ^ 32) :
    (State.made ca ga minAlloc minOffset).Ok := by
  have hpos : 0 < 2 ^ 32 := Nat.two_pow_pos 32
  cases ga with
  | false =>
    exact ⟨fun vec e => (by cases e), fun h => absurd h Bool.false_ne_true,
      fun h => absurd h Bool.false_ne_true, hpos, ha, hm⟩
  | true =>
    obtain ⟨hc, hsum⟩ := hg rfl
    have hu := uint_of_lt hsum
    refine ok_of_vec _ ⟨?_, ?_, uint_lt _, ?_⟩ rfl hpos (fun _ => ⟨hc, ?_⟩) (fun _ => hc) ha hm
    · exact Nat.le_of_eq (List.length_replicate).symm
    · exact Nat.le_of_eq (List.length_replicate).symm
    all_goals
      dsimp only [State.made]
      omega

/-- Whatever is done with a base and with the settings of its configuration, if the sums fit and
the offset lies inside the arrays in every step, `vstr__cache_iovec_alloc` is safe just where
they do so once more. -/
theorem iovec_alloc_runs {ca ga : Bool} {minAlloc minOffset : Nat} {es : List Step}
    (ha : minAlloc < 2 ^ 32) (hm : minOffset < 2 ^ 32)
    (hg : ga = true → ca = true ∧ 1 + minAlloc + minOffset < 2 ^ 32)
    (h : Run State.step (fun s e => s.Legal e ∧ s.Meets e)
      (State.made ca ga minAlloc minOffset) es s) (hsz : sz < 2 ^ 32) :
    (∀ mem, AllocSafe s sz (cacheIovecAlloc s sz mem)) ↔ s.Fits sz :=
  allocSafe_iff (h.invariant State.Ok (ok_made ha hm hg) fun _ _ ok he => ok.step he.1 he.2) hsz

/-- An offset that is raised before the first vectors are asked for. -/
theorem iovec_alloc_raised : AllocSafe
    ((State.made true false 0 0).step (.setMinOffset 10)) 3
    (cacheIovecAlloc ((State.made true false 0 0).step (.setMinOffset 10)) 3 fun _ => true) := by
  have h : Run State.step (fun s e => s.Legal e ∧ s.Meets e) (State.made true false 0 0)
      [.setMinOffset 10] ((State.made true false 0 0).step (.setMinOffset 10)) :=
    .single ⟨trivial, trivial⟩
  refine (iovec_alloc_runs (Nat.two_pow_pos 32) (Nat.two_pow_pos 32)
    (fun h => absurd h Bool.false_ne_true) h (by decide)).mpr (fun _ => .inl ?_) _
  decide

/-- The vectors of one node are made, get out of date, and the offset is raised. -/
def raisedLate : List Step :=
  [.change 1, .alloc 1 fun _ => true, .change 1, .setMinOffset 10]

/-- Then there is room for one vector only, and the offset is behind it. -/
theorem iovec_alloc_late :
    (cacheIovecAlloc (raisedLate.foldl State.step (State.made true false 0 0)) 1
      fun _ => true).1 = true ∧
    (cacheIovecAlloc (raisedLate.foldl State.step (State.made true false 0 0)) 1
      fun _ => true).2.vec.map (fun vec => (vec.off, vec.sz)) = some (10, 1) ∧
    ¬ ∀ (ca ga : Bool) (minAlloc minOffset sz : Nat) (es : List Step) (s : State)
      (mem : Part → Bool), minAlloc < 2 ^ 32 → minOffset < 2 ^ 32 → (ga = true → ca = true) →
      Run State.step State.Legal (State.made ca ga minAlloc minOffset) es s → sz < 2 ^ 32 →
      s.num ≤ sz → AllocSafe s sz (cacheIovecAlloc s sz mem) := by
  have h1 : (cacheIovecAlloc (raisedLate.foldl State.step (State.made true false 0 0)) 1
      fun _ => true).1 = true := by decide
  have h2 : (cacheIovecAlloc (raisedLate.foldl State.step (State.made true false 0 0)) 1
      fun _ => true).2.vec.map (fun vec => (vec.off, vec.sz)) = some (10, 1) := by decide
  refine ⟨h1, h2, fun h => ?_⟩
  have hr : Run State.step State.Legal (State.made true false 0 0) ([] ++ raisedLate)
      (raisedLate.foldl State.step (State.made true false 0 0)) :=
    Run.nil.append ⟨Nat.one_lt_two_pow (by decide), ⟨Nat.one_lt_two_pow (by decide),
      Nat.le_refl 1⟩, Nat.one_lt_two_pow (by decide), trivial, trivial⟩
  have safe := h true false 0 0 1 _ _ (fun _ => true) (Nat.two_pow_pos 32) (Nat.two_pow_pos 32)
    (fun _ => rfl) hr (by decide) (by decide)
  obtain ⟨vec, e, hroom, -⟩ := safe.room h1
  rw [e] at h2
  obtain ⟨ho, hs⟩ := Prod.mk.inj (Option.some.inj h2)
  omega

/-! ## The function with its heap -/

/-- The record of the sizes and the offset that a string has. -/
structure Sized (s : St) (t : State) : Prop where
  /-- The caches are there or not. -/
  cacheAvailable : t.cacheAvailable = s.base.cacheAvailable
  /-- The vectors are up to date or not. -/
  uptoDate : t.uptoDate = s.base.iovecUptoDate
  /-- The number of nodes. -/
  num : t.num = s.base.num
  /-- `iov_min_alloc`. -/
  minAlloc : t.minAlloc = s.conf.iovMinAlloc
  /-- `iov_min_offset`. -/
  minOffset : t.minOffset = s.conf.iovMinOffset
  /-- The offset and the size of the arrays. -/
  vec : t.vec.map (fun vec => (vec.off, vec.sz)) = s.base.vec.map fun vec => (vec.off, vec.sz)

/-- What allocations and the vectors leave. -/
theorem Sized.next {s : St} {t : State} {h : Heap} {w : Option IovecData} {w' : Option Vec}
    (hs : Sized s t) (ha : (h.confs s.base.conf).iovMinAlloc = s.conf.iovMinAlloc)
    (ho : (h.confs s.base.conf).iovMinOffset = s.conf.iovMinOffset)
    (hw : w'.map (fun vec => (vec.off, vec.sz)) = w.map fun vec => (vec.off, vec.sz)) :
    Sized ⟨h, { s.base with vec := w }⟩ { t with vec := w' } where
  cacheAvailable := hs.cacheAvailable
  uptoDate := hs.uptoDate
  num := hs.num
  minAlloc := hs.minAlloc.trans ha.symm
  minOffset := hs.minOffset.trans ho.symm
  vec := hw

theorem mallocBad_sizes (h : Heap) (c : Nat) :
    ((h.mallocBad c).confs c).iovMinAlloc = (h.confs c).iovMinAlloc ∧
      ((h.mallocBad c).confs c).iovMinOffset = (h.confs c).iovMinOffset := by
  unfold Heap.mallocBad Heap.setConf
  simp only [Function.update_self, and_self]

/-- `vstr__cache_iovec_alloc` from vectors that are there. -/
theorem cacheIovecAlloc_sized_some {s : St} {t : State} {vec : IovecData} {vec' : Vec}
    {mem : Part → Bool} (hs : Sized s { t with vec := some vec' })
    (hav : s.base.cacheAvailable = true) (hv : s.base.vec = some vec)
    (hv' : t.vec.or (cacheIovecMake t sz mem) = some vec')
    (hmem : (mem .moreV && mem .moreT) = (s.heap.mallocs 2).1) :
    (cacheIovecAlloc t sz mem).1 = (Vstr.cacheIovecAlloc s sz).1 ∧
      Sized (Vstr.cacheIovecAlloc s sz).2 (cacheIovecAlloc t sz mem).2 := by
  have hmake : Vstr.cacheIovecMake s sz = (true, s) := by
    unfold Vstr.cacheIovecMake
    rw [hv]
  obtain ⟨hoff, hsz⟩ : vec'.off = vec.off ∧ vec'.sz = vec.sz := by
    have h := hs.vec
    rw [hv] at h
    exact Prod.mk.inj (Option.some.inj h)
  have hup : t.uptoDate = s.base.iovecUptoDate := hs.uptoDate
  have hmin : t.minOffset = s.conf.iovMinOffset := hs.minOffset
  have hca : t.cacheAvailable = s.base.cacheAvailable := hs.cacheAvailable
  obtain ⟨ho, hz⟩ : (cacheIovecAlign t sz vec').off = (Vstr.cacheIovecAlign s sz vec).off ∧
      (cacheIovecAlign t sz vec').sz = (Vstr.cacheIovecAlign s sz vec).sz := by
    unfold cacheIovecAlign Vstr.cacheIovecAlign
    rw [hup, hmin, hoff, hsz]
    split
    · exact ⟨rfl, rfl⟩
    · split
      · exact ⟨hmin, hsz⟩
      · exact ⟨hoff, hsz⟩
  unfold cacheIovecAlloc Vstr.cacheIovecAlloc
  rw [if_neg (by simp [hca, hav]), if_neg (by simp [hav]), hmake]
  dsimp only
  rw [hv', hv]
  dsimp only
  generalize cacheIovecAlign t sz vec' = w' at ho hz ⊢
  generalize Vstr.cacheIovecAlign s sz vec = w at ho hz ⊢
  have hkeep : (some w').map (fun vec => (vec.off, vec.sz)) =
      (some w).map fun vec => (vec.off, vec.sz) := by
    simp only [Option.map_some, ho, hz]
  rw [ho, hz]
  split
  · generalize hm : s.heap.mallocs 2 = r at hmem
    obtain ⟨got, h⟩ := r
    have hconfs := mallocs_confs 2 hm
    have ha : (h.confs s.base.conf).iovMinAlloc = s.conf.iovMinAlloc := by rw [hconfs]; rfl
    have ho' : (h.confs s.base.conf).iovMinOffset = s.conf.iovMinOffset := by rw [hconfs]; rfl
    obtain ⟨hba, hbo⟩ := mallocBad_sizes h s.base.conf
    unfold cacheIovecGrow
    dsimp only
    cases got with
    | false =>
      by_cases hv : mem .moreV = true
      · have ht : mem .moreT = false := by simpa [hv] using hmem
        rw [if_neg (not_not_intro hv), if_pos (by simp [ht])]
        exact ⟨rfl, hs.next (hba.trans ha) (hbo.trans ho') hkeep⟩
      · rw [if_pos hv]
        exact ⟨rfl, hs.next (hba.trans ha) (hbo.trans ho') hkeep⟩
    | true =>
      obtain ⟨hv, ht⟩ : mem .moreV = true ∧ mem .moreT = true := by simpa using hmem
      rw [if_neg (not_not_intro hv), if_neg (not_not_intro ht)]
      refine ⟨rfl, hs.next ha ho' ?_⟩
      simp only [Option.map_some, ho, uint, hmin]
      rfl
  · exact ⟨rfl, hs.next rfl rfl hkeep⟩

/-- The answers of the allocations of new vectors, and of those for more room. -/
def answers (new more : Bool) : Part → Bool
  | .moreV | .moreT => more
  | _ => new

/-- What the first allocation makes. -/
theorem cacheIovecMake_answers (t : State) (sz : Nat) (new more : Bool) :
    cacheIovecMake t sz (answers new more) =
      if new then some ⟨List.replicate (uint (sz + t.minAlloc + t.minOffset)) noIov,
        List.replicate (uint (sz + t.minAlloc + t.minOffset)) .buf, 0,
          uint (sz + t.minAlloc + t.minOffset)⟩ else none := by
  unfold cacheIovecMake answers
  simp only [and_self]

/-- `vstr__cache_iovec_alloc` when there are no vectors. -/
theorem cacheIovecAlloc_sized_none {s : St} {t : State} (hs : Sized s t)
    (hav : s.base.cacheAvailable = true) (hv : s.base.vec = none) (sz : Nat) :
    ∃ mem, (cacheIovecAlloc t sz mem).1 = (Vstr.cacheIovecAlloc s sz).1 ∧
      Sized (Vstr.cacheIovecAlloc s sz).2 (cacheIovecAlloc t sz mem).2 := by
  have hnone : t.vec = none := by
    have h := hs.vec
    rw [hv] at h
    exact Option.map_eq_none_iff.mp h
  generalize hm : s.heap.mallocs 4 = r
  obtain ⟨got, h⟩ := r
  have hconfs := mallocs_confs 4 hm
  have ha : (h.confs s.base.conf).iovMinAlloc = s.conf.iovMinAlloc := by rw [hconfs]; rfl
  have ho : (h.confs s.base.conf).iovMinOffset = s.conf.iovMinOffset := by rw [hconfs]; rfl
  cases got with
  | false =>
    obtain ⟨hba, hbo⟩ := mallocBad_sizes h s.base.conf
    refine ⟨answers false false, ?_⟩
    have e : Vstr.cacheIovecAlloc s sz = (false, { s with heap := h.mallocBad s.base.conf }) := by
      unfold Vstr.cacheIovecAlloc Vstr.cacheIovecMake
      rw [if_neg (by simp [hav]), hv]
      dsimp only
      rw [hm]
    have e' : cacheIovecAlloc t sz (answers false false) = (false, t) := by
      unfold cacheIovecAlloc
      rw [if_neg (by simp [hs.cacheAvailable, hav]), cacheIovecMake_answers, hnone]
      rfl
    rw [e, e']
    exact ⟨rfl, hs.next (hba.trans ha) (hbo.trans ho) hs.vec⟩
  | true =>
    refine ⟨answers true (h.mallocs 2).1, ?_⟩
    have e : Vstr.cacheIovecAlloc s sz = Vstr.cacheIovecAlloc ⟨h, { s.base with
        vec := some (.fresh ((sz + s.conf.iovMinAlloc + s.conf.iovMinOffset) % 2 ^ 32)) }⟩ sz := by
      unfold Vstr.cacheIovecAlloc Vstr.cacheIovecMake
      rw [hv]
      dsimp only
      rw [hm]
      simp only [hav, not_true_eq_false, if_false]
    rw [e]
    refine cacheIovecAlloc_sized_some (hs.next ha ho ?_) hav rfl
      (by rw [cacheIovecMake_answers, hnone, if_pos rfl]; rfl) (Bool.and_self _)
    simp only [Option.map_some, IovecData.fresh, uint, hs.minAlloc, hs.minOffset]

/-- The function with its heap is the function of sizes, for the answers of its allocations. -/
theorem cacheIovecAlloc_sized {s : St} {t : State} (hs : Sized s t) (sz : Nat) :
    ∃ mem, (cacheIovecAlloc t sz mem).1 = (Vstr.cacheIovecAlloc s sz).1 ∧
      Sized (Vstr.cacheIovecAlloc s sz).2 (cacheIovecAlloc t sz mem).2 := by
  by_cases hav : s.base.cacheAvailable = true
  · cases hv : s.base.vec with
    | some vec =>
      have h := hs.vec
      rw [hv] at h
      obtain ⟨vec', hv', -⟩ := Option.map_eq_some_iff.mp h
      refine ⟨answers true (s.heap.mallocs 2).1, cacheIovecAlloc_sized_some ?_ hav hv
        (by rw [hv']; rfl) (Bool.and_self _)⟩
      rw [← hv']
      exact hs
    | none => exact cacheIovecAlloc_sized_none hs hav hv sz
  · refine ⟨answers true true, ?_⟩
    unfold cacheIovecAlloc Vstr.cacheIovecAlloc
    rw [if_pos (by simp [hs.cacheAvailable, hav]), if_pos hav]
    exact ⟨rfl, hs⟩

end Vstr.Vector
