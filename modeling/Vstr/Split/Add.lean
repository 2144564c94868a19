import Vstr.Split.Find

/-!
# Adding the sections of a split

Which sections a split wants does not depend on the list it adds them to. The list decides
what becomes of them: it may grow, be full, or not get the memory to grow.
-/

namespace Vstr

open Splice Query

variable {E : Env} {P : Own} {s t : St} {pos len added k width : Nat} {xs : List (Option UInt8)}
  {x : Sects} {ys : List Sect} {fl : SplitFlags} {a : SplitAt}

/-! ## Asking for memory -/

/-- A state with another number of allocations asked for. -/
def St.tick (s : St) (n : Nat) : St := { s with heap := { s.heap with tick := n } }

/-- Reading a string, and asking for memory. -/
def Asks (s t : St) : Prop := ∃ n, Reads (s.tick n) t

theorem Reads.ticked (r : Reads s t) (n : Nat) : Reads (s.tick n) (t.tick n) where
  heap := by
    rw [St.tick, St.tick, r.heap]
  base := r.base
  posOk := r.posOk

theorem Reads.asks (r : Reads s t) : Asks s t := ⟨s.heap.tick, r⟩

instance : IsPreorder St Asks where
  refl s := (Std.Refl.refl (r := Reads) s).asks
  trans := by
    rintro s t u ⟨n, h⟩ ⟨m, h'⟩
    exact ⟨m, IsTrans.trans _ _ _ (h.ticked m) h'⟩

theorem Usable.tick (u : Usable E P s) (n : Nat) : Usable E P (s.tick n) where
  sound := {
    owned := {
      heap := {
        spareNum := u.sound.owned.heap.spareNum
        spareNodup := u.sound.owned.heap.spareNodup
        spareOwn := u.sound.owned.heap.spareOwn
        fresh := u.sound.owned.heap.fresh
        refFresh := u.sound.owned.heap.refFresh
        refOwn := u.sound.owned.heap.refOwn }
      nodes := u.sound.owned.nodes
      refs := u.sound.owned.refs }
    valid := u.sound.valid
    bufSz_pos := u.sound.bufSz_pos
    bufSz_le := u.sound.bufSz_le }
  posOk := u.posOk
  ptrSafe := u.ptrSafe

theorem content_tick (s : St) (n : Nat) : content (s.tick n) = content s := rfl

theorem Window.asks (w : Window E P s pos len xs) (r : Asks s t) : Window E P t pos len xs := by
  obtain ⟨n, r⟩ := r
  have wn : Window E P (s.tick n) pos len xs :=
    ⟨w.usable.tick n, w.one_le, w.le_len, by rw [content_tick]; exact w.bytes⟩
  exact wn.reads r

/-! ## One section -/

/-- Making room asks for memory, and says so when there is none. -/
theorem sectsGrow_spec (h : Heap) (x : Sects) :
    (∃ n, (sectsGrow h x).2.1 = { h with tick := n }) ∧
      (sectsGrow h x).2.2.canAddSz = x.canAddSz ∧ (sectsGrow h x).2.2.ptr = x.ptr ∧
      ((sectsGrow h x).1 = false → (sectsGrow h x).2.2.mallocBad = true) := by
  unfold sectsGrow
  dsimp only
  generalize (if x.sz = 0 then 1 else _) = sz
  split
  · exact ⟨⟨h.tick, rfl⟩, rfl, rfl, fun _ => rfl⟩
  · unfold Heap.malloc
    cases h.grant h.tick with
    | false => exact ⟨⟨h.tick + 1, rfl⟩, rfl, rfl, fun _ => rfl⟩
    | true => exact ⟨⟨h.tick + 1, rfl⟩, rfl, rfl, fun e => by cases e⟩

/-- A section was added, or it was not. -/
structure SectAdded (p l : Nat) (x : Sects) (ok : Bool) (x' : Sects) : Prop where
  /-- Whether the list may grow. -/
  canAddSz : x'.canAddSz = x.canAddSz
  /-- The sections. -/
  ptr : x'.ptr = if ok then x.ptr ++ [⟨p, l⟩] else x.ptr
  /-- A list that may grow failed to. -/
  mallocBad : x.canAddSz = true → ok = false → x'.mallocBad = true

/-- Whatever the string, adding a section asks for memory or does not. -/
theorem sectsAdd_run (h : Heap) (p l : Nat) (x : Sects) :
    ∃ ok x' n, SectAdded p l x ok x' ∧
      ∀ b, (sectsAdd p l x).run ⟨h, b⟩ = ((ok, x'), St.tick ⟨h, b⟩ n) := by
  by_cases hfull : x.sz = 0 ∨ x.ptr.length ≥ x.sz
  · by_cases hc : x.canAddSz = true
    · obtain ⟨⟨n, hn⟩, h1, h2, h3⟩ := sectsGrow_spec h x
      generalize hg : sectsGrow h x = r at hn h1 h2 h3
      obtain ⟨ok, h', x'⟩ := r
      dsimp only at hn h1 h2 h3
      subst hn
      cases ok with
      | false =>
        refine ⟨false, x', n, ⟨h1, h2, fun _ => h3⟩, fun b => ?_⟩
        change sectsAdd p l x ⟨h, b⟩ = _
        rw [sectsAdd, if_pos hfull, if_neg (by simp [hc])]
        dsimp only
        rw [hg]
        rfl
      | true =>
        refine ⟨true, { x' with ptr := x'.ptr ++ [⟨p, l⟩] }, n,
          ⟨h1, by rw [h2]; rfl, fun _ e => by cases e⟩, fun b => ?_⟩
        change sectsAdd p l x ⟨h, b⟩ = _
        rw [sectsAdd, if_pos hfull, if_neg (by simp [hc])]
        dsimp only
        rw [hg]
        rfl
    · refine ⟨false, x, h.tick, ⟨rfl, rfl, fun e => absurd e hc⟩, fun b => ?_⟩
      change sectsAdd p l x ⟨h, b⟩ = _
      rw [sectsAdd, if_pos hfull, if_pos hc]
      rfl
  · refine ⟨true, { x with ptr := x.ptr ++ [⟨p, l⟩] }, h.tick,
      ⟨rfl, rfl, fun _ e => by cases e⟩, fun b => ?_⟩
    change sectsAdd p l x ⟨h, b⟩ = _
    rw [sectsAdd, if_neg hfull]
    rfl

/-- What the split makes of a section that it wants to add. -/
def afterAdd (fl : SplitFlags) (a : SplitAt) : Bool × Sects → Option Nat × SplitAt
  | (true, x) => (none, { a with added := a.added + 1, sects := x })
  | (false, x) =>
    match splitHdlErr fl a.added x with
    | (some ret, x) => (some ret, { a with sects := x })
    | (none, x) => (none, { a with added := a.added + 1, sects := x })

theorem splitAdd_eq (fl : SplitFlags) (p l : Nat) (a : SplitAt) :
    splitAdd fl p l a = do return afterAdd fl a (← sectsAdd p l a.sects) := by
  unfold splitAdd
  congr 1
  funext r
  rcases r with ⟨- | -, x⟩
  · unfold afterAdd
    dsimp only
    generalize splitHdlErr fl a.added x = e
    rcases e with ⟨- | ret, x⟩ <;> rfl
  · rfl

/-! ## Sections one after the other -/

/-- The sections that a split wants are added, until it has to give up: the value returned, and
the list. -/
def splitFill (fl : SplitFlags) : List Sect → Nat → Sects → StateM St (Nat × Sects)
  | [], added, x => return (added, x)
  | y :: ys, added, x => do
    match ← splitAdd fl y.pos y.len ⟨0, 0, added, x⟩ with
    | (some ret, a) => return (ret, a.sects)
    | (none, a) => splitFill fl ys a.added a.sects

/-- The outcome of a section, whatever the string and the place of the split. -/
theorem splitAdd_run (fl : SplitFlags) (h : Heap) (p l added : Nat) (x : Sects) :
    ∃ o x' n, ∀ b pos len, (splitAdd fl p l ⟨pos, len, added, x⟩).run ⟨h, b⟩ =
      ((o, ⟨pos, len, if o = none then added + 1 else added, x'⟩), St.tick ⟨h, b⟩ n) := by
  obtain ⟨ok, x', n, -, e⟩ := sectsAdd_run h p l x
  obtain ⟨o, x'', e'⟩ : ∃ o x'', ∀ pos len, afterAdd fl ⟨pos, len, added, x⟩ (ok, x') =
      (o, ⟨pos, len, if o = none then added + 1 else added, x''⟩) := by
    cases ok with
    | true => exact ⟨none, x', fun _ _ => rfl⟩
    | false =>
      unfold afterAdd
      dsimp only
      generalize splitHdlErr fl added x' = r
      rcases r with ⟨- | ret, x''⟩
      · exact ⟨none, x'', fun _ _ => rfl⟩
      · exact ⟨some ret, x'', fun _ _ => rfl⟩
  refine ⟨o, x'', n, fun b pos len => ?_⟩
  rw [splitAdd_eq, run_bind]
  dsimp only
  rw [e]
  exact Prod.ext (e' pos len) rfl

/-- The outcome of all sections, whatever the string. -/
theorem splitFill_run (fl : SplitFlags) (h : Heap) (ys : List Sect) (added : Nat) (x : Sects) :
    ∃ r n, ∀ b, (splitFill fl ys added x).run ⟨h, b⟩ = (r, St.tick ⟨h, b⟩ n) := by
  induction ys generalizing h added x with
  | nil => exact ⟨(added, x), h.tick, fun _ => rfl⟩
  | cons y ys ih =>
    obtain ⟨o, x', n, e⟩ := splitAdd_run fl h y.pos y.len added x
    cases o with
    | some ret =>
      refine ⟨(ret, x'), n, fun b => ?_⟩
      rw [splitFill, run_bind, e b]
      rfl
    | none =>
      obtain ⟨r, m, e'⟩ := ih { h with tick := n } (added + 1) x'
      refine ⟨r, m, fun b => ?_⟩
      rw [splitFill, run_bind, e b]
      exact e' b

/-! ## Numbers that fit -/

/-- `sz` and `num` are numbers of an `unsigned int`, and there is room for the sections in use. -/
structure Sects.Fits (x : Sects) : Prop where
  /-- `sz`. -/
  sz_lt : x.sz < 2 ^ 32
  /-- `num`. -/
  num_le : x.ptr.length ≤ x.sz

/-- More room is no more than an `unsigned int` says. -/
theorem Sects.Fits.grow (h : x.Fits) (heap : Heap) :
    (sectsGrow heap x).2.2.Fits ∧
      ((sectsGrow heap x).1 = true → x.sz < (sectsGrow heap x).2.2.sz) := by
  obtain ⟨sz, hsz⟩ : ∃ sz, (if x.sz = 0 then 1
    else if (if x.allocDouble then x.sz * 2 % 2 ^ 32 else x.sz) ≤ x.sz then (x.sz + 1) % 2 ^ 32
    else if x.allocDouble then x.sz * 2 % 2 ^ 32 else x.sz) = sz := ⟨_, rfl⟩
  have hlt : sz < 2 ^ 32 := by
    have h1 := h.sz_lt
    rw [← hsz]
    split_ifs <;> omega
  unfold sectsGrow
  dsimp only
  rw [hsz]
  by_cases hle : sz ≤ x.sz
  · rw [if_pos hle]
    exact ⟨⟨h.sz_lt, h.num_le⟩, fun e => by cases e⟩
  · have hroom := h.num_le
    rw [if_neg hle, Heap.malloc]
    cases heap.grant heap.tick with
    | false => exact ⟨⟨h.sz_lt, h.num_le⟩, fun e => by cases e⟩
    | true => exact ⟨⟨hlt, by dsimp only; omega⟩, fun _ => by dsimp only; omega⟩

/-- One more section. -/
theorem Sects.Fits.push (h : x.Fits) (hr : x.ptr.length < x.sz) (y : Sect) :
    Sects.Fits { x with ptr := x.ptr ++ [y] } where
  sz_lt := h.sz_lt
  num_le := by
    rw [List.length_append, List.length_singleton]
    exact hr

/-- Adding a section keeps the numbers. -/
theorem Sects.Fits.add (h : x.Fits) (s : St) (p l : Nat) : ((sectsAdd p l x).run s).1.2.Fits := by
  change (sectsAdd p l x s).1.2.Fits
  by_cases hfull : x.sz = 0 ∨ x.ptr.length ≥ x.sz
  · by_cases hc : x.canAddSz = true
    · obtain ⟨h1, h2⟩ := h.grow s.heap
      have hptr := (sectsGrow_spec s.heap x).2.2.1
      have hle := h.num_le
      rw [sectsAdd, if_pos hfull, if_neg (not_not.2 hc)]
      generalize sectsGrow s.heap x = r at h1 h2 hptr
      obtain ⟨ok, heap, x'⟩ := r
      dsimp only at h1 h2 hptr
      cases ok with
      | false => exact h1
      | true =>
        have hsz := h2 rfl
        exact h1.push (by rw [hptr]; omega) ⟨p, l⟩
    · rw [sectsAdd, if_pos hfull, if_pos hc]
      exact h
  · rw [sectsAdd, if_neg hfull]
    exact h.push (by omega) ⟨p, l⟩

/-- So does giving up. -/
theorem Sects.Fits.err (h : x.Fits) (fl : SplitFlags) (added : Nat) :
    (splitHdlErr fl added x).2.Fits := by
  unfold splitHdlErr
  split
  · exact ⟨h.sz_lt, (List.length_take_le' _ _).trans h.num_le⟩
  · split <;> exact h

/-- Adding all that a split wants keeps the numbers. -/
theorem splitFill_fits (fl : SplitFlags) (ys : List Sect) (added : Nat) (h : x.Fits) (s : St) :
    ((splitFill fl ys added x).run s).1.2.Fits := by
  induction ys generalizing added x s with
  | nil => exact h
  | cons y ys ih =>
    have hadd := h.add s y.pos y.len
    rw [splitFill, splitAdd_eq, bind_assoc, run_bind]
    generalize (sectsAdd y.pos y.len x).run s = r at hadd
    obtain ⟨⟨ok, x'⟩, t⟩ := r
    dsimp only at hadd ⊢
    cases ok with
    | true => exact ih (added + 1) hadd t
    | false =>
      have herr := hadd.err fl added
      rw [pure_bind, afterAdd]
      generalize splitHdlErr fl added x' = r at herr
      obtain ⟨- | ret, x''⟩ := r
      · exact ih (added + 1) herr t
      · exact herr

/-! ## A computation that adds sections -/

/-- From `s` the computation does what adding the sections does, reading apart. -/
def Fills (m : StateM St (Option (Nat × Sects))) (s : St) (f : StateM St (Nat × Sects)) : Prop :=
  (m.run s).1 = some (f.run s).1 ∧ Reads (f.run s).2 (m.run s).2

/-- Nothing is left to be added. -/
theorem Fills.pure (s : St) (r : Nat × Sects) : Fills (Pure.pure (some r)) s (Pure.pure r) :=
  ⟨rfl, Std.Refl.refl s⟩

/-- A question before sections are added. -/
theorem Fills.ask {α : Type} {m : StateM St α} {v : α} {K : α → StateM St (Option (Nat × Sects))}
    (h : Yields Reads m s v) (k : ∀ t, Reads s t → Fills (K v) t (splitFill fl ys added x)) :
    Fills (m >>= K) s (splitFill fl ys added x) := by
  obtain ⟨h1, h2⟩ := k _ h.2
  obtain ⟨r, n, e⟩ := splitFill_run fl s.heap ys added x
  have es := e s.base
  have et := e (m.run s).2.base
  rw [← h.2.heap] at et
  change (splitFill fl ys added x).run s = (r, s.tick n) at es
  change (splitFill fl ys added x).run (m.run s).2 = (r, (m.run s).2.tick n) at et
  rw [et] at h1 h2
  rw [Fills, run_bind, h.1, es]
  exact ⟨h1, IsTrans.trans _ _ _ (h.2.ticked n) h2⟩

/-- A section is added. -/
theorem Fills.add {K : Option Nat × SplitAt → StateM St (Option (Nat × Sects))} {y : Sect}
    (hret : ∀ ret a, K (some ret, a) = Pure.pure (some (ret, a.sects)))
    (k : ∀ t x', Asks s t → Fills (K (none, { a with added := a.added + 1, sects := x' })) t
      (splitFill fl ys (a.added + 1) x')) :
    Fills (splitAdd fl y.pos y.len a >>= K) s (splitFill fl (y :: ys) a.added a.sects) := by
  obtain ⟨o, x', n, e⟩ := splitAdd_run fl s.heap y.pos y.len a.added a.sects
  have e1 := e s.base a.pos a.len
  have e2 := e s.base 0 0
  change (splitAdd fl y.pos y.len a).run s = _ at e1
  change (splitAdd fl y.pos y.len ⟨0, 0, a.added, a.sects⟩).run s = _ at e2
  rw [Fills, splitFill, run_bind, run_bind, e1, e2]
  cases o with
  | some ret =>
    dsimp only
    rw [hret]
    exact ⟨rfl, Std.Refl.refl _⟩
  | none => exact k (s.tick n) x' ⟨n, Std.Refl.refl _⟩

/-- Null fields from a position on. -/
def nullsAt (width pos : Nat) : Nat → List Sect
  | 0 => []
  | k + 1 => ⟨pos, 0⟩ :: nullsAt width (pos + width) k

theorem length_nullsAt (width pos k : Nat) : (nullsAt width pos k).length = k := by
  induction k generalizing pos with
  | zero => rfl
  | succ k ih => rw [nullsAt, List.length_cons, ih]

/-- Null fields are added, or passed over. -/
theorem Fills.nulls {K : Option Nat × SplitAt → StateM St (Option (Nat × Sects))} {null : Bool}
    (hret : ∀ ret a, K (some ret, a) = Pure.pure (some (ret, a.sects)))
    (hlen : k * width ≤ a.len)
    (h : ∀ t x', Asks s t → Fills (K (none, ⟨a.pos + k * width, a.len - k * width,
      a.added + (if null then k else 0), x'⟩)) t
      (splitFill fl ys (a.added + if null then k else 0) x')) :
    Fills (splitNulls fl null width k a >>= K) s
      (splitFill fl ((if null then nullsAt width a.pos k else []) ++ ys) a.added a.sects) := by
  induction k generalizing a s with
  | zero =>
    have h0 := h s a.sects (Std.Refl.refl s)
    rw [Nat.zero_mul, ite_self] at h0
    have e : (if null = true then nullsAt width a.pos 0 else []) ++ ys = ys := by
      cases null <;> rfl
    rw [e]
    exact h0
  | succ k ih =>
    rw [Nat.succ_mul] at hlen h
    have e : sizeSub a.len width = a.len - width := if_pos (by omega)
    rw [splitNulls_succ, bind_assoc]
    cases null with
    | false =>
      refine Fills.ask (Yields.pure s (none, a)) fun t r => ?_
      dsimp only
      rw [e]
      refine ih (by dsimp only; omega) fun t' x' r' => ?_
      have hk := h t' x' (IsTrans.trans _ _ _ r.asks r')
      dsimp only
      rwa [Nat.add_assoc, Nat.add_comm width, Nat.sub_sub, Nat.add_comm width]
    | true =>
      refine Fills.add (y := ⟨a.pos, 0⟩) (fun ret a => ?_) fun t x r => ?_
      · exact hret ret a
      dsimp only
      rw [e]
      refine ih (a := ⟨a.pos + width, a.len - width, a.added + 1, x⟩) (by dsimp only; omega)
        fun t' x' r' => ?_
      have hk := h t' x' (IsTrans.trans _ _ _ r r')
      dsimp only [if_true] at hk ⊢
      rwa [Nat.add_assoc a.pos, Nat.add_comm width, Nat.sub_sub, Nat.add_comm width,
        Nat.add_assoc a.added, Nat.add_comm 1]

end Vstr
