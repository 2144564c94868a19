import Vstr.Lib.Lex
import Vstr.Model.Cmp
import Vstr.Srch.Walk
import Vstr.World.Basic

/-!
# Comparing slices

What the comparisons answer, from the bytes of the slices: their lexicographic order, unknown
bytes before all others. How the slices are cut into nodes plays no part.
-/

namespace Vstr

open Memory Splice Query Lex

variable {h : Heap} {its its₁ its₂ : List Iter} {it : Iter} {xs ys zs : List (Option UInt8)}
  {fold : UInt8 → UInt8} {cmp : List UInt8 → List UInt8 → Ordering}

/-- Bytes as a comparison sees them. -/
def folded (fold : UInt8 → UInt8) (xs : List (Option UInt8)) : List (Option UInt8) :=
  xs.map (Option.map fold)

@[simp] theorem folded_id (xs : List (Option UInt8)) : folded id xs = xs := by
  simp [folded]

@[simp] theorem length_folded (fold : UInt8 → UInt8) (xs : List (Option UInt8)) :
    (folded fold xs).length = xs.length := List.length_map _

theorem folded_take (fold : UInt8 → UInt8) (n : Nat) (xs : List (Option UInt8)) :
    folded fold (xs.take n) = (folded fold xs).take n := List.map_take

theorem folded_drop (fold : UInt8 → UInt8) (n : Nat) (xs : List (Option UInt8)) :
    folded fold (xs.drop n) = (folded fold xs).drop n := List.map_drop

/-- A comparison of buffers of one length. -/
def Compares (fold : UInt8 → UInt8) (cmp : List UInt8 → List UInt8 → Ordering) : Prop :=
  ∀ as bs : List UInt8, as.length = bs.length →
    cmp as bs = compare (folded fold (as.map some)) (folded fold (bs.map some))

theorem compare_toNat (a b : UInt8) : compare a.toNat b.toNat = compare a b := by
  change compareOfLessAndEq a.toNat b.toNat = compareOfLessAndEq a b
  simp only [compareOfLessAndEq, UInt8.lt_iff_toNat_lt, ← UInt8.toNat_inj]

/-- `memcmp` compares bytes. -/
theorem compares_memcmp : Compares id memcmp := by
  intro as
  induction as with
  | nil =>
    intro bs hl
    obtain rfl : bs = [] := List.length_eq_zero_iff.1 hl.symm
    rfl
  | cons a as ih =>
    intro bs hl
    cases bs with
    | nil => cases hl
    | cons b bs =>
      change _ = compare (some a :: folded id (as.map some)) (some b :: folded id (bs.map some))
      rw [memcmp, ih bs (by simpa using hl), compare_toNat, List.compare_cons_cons]
      rfl

/-- `vstr__cmp_memcasecmp` compares bytes but for the case. -/
theorem compares_memcasecmp : Compares toAsciiLower cmpMemcasecmp := by
  intro as
  induction as with
  | nil =>
    intro bs hl
    obtain rfl : bs = [] := List.length_eq_zero_iff.1 hl.symm
    rfl
  | cons a as ih =>
    intro bs hl
    cases bs with
    | nil => cases hl
    | cons b bs =>
      change _ = compare (some (toAsciiLower a) :: folded toAsciiLower (as.map some))
        (some (toAsciiLower b) :: folded toAsciiLower (bs.map some))
      rw [cmpMemcasecmp, compare_toNat, List.compare_cons_cons]
      change _ = (compare (toAsciiLower a) (toAsciiLower b)).then _
      cases compare (toAsciiLower a) (toAsciiLower b) with
      | lt => rfl
      | gt => rfl
      | eq => exact ih bs (by simpa using hl)

/-! ## Two iterators -/

/-- The address of a stretch whose first bytes are done. -/
theorem ptr_add (h : Heap) (it : Iter) (tmp len : Nat) :
    Iter.ptr h { it with off := it.off + tmp, len := len } = (it.ptr h).map (·.add tmp) := by
  unfold Iter.ptr
  dsimp only
  cases exportNodePtr h it.node with
  | none => rfl
  | some p => rw [Option.map_some, Option.map_some, Option.map_some, Ptr.add_add]

/-- What is left of a walk once some bytes of its first stretch are done. -/
theorem Walk.drop (w : Walk h (it :: its) xs) {tmp : Nat} (ht : tmp ≤ it.len) :
    Walk h (iterDrop tmp it its) (xs.drop tmp) := by
  unfold iterDrop
  cases w with
  | @non _ _ xs ptr pos rest walk =>
    rw [List.drop_append, List.length_replicate, List.drop_replicate]
    by_cases h0 : it.len - tmp ≠ 0
    · rw [if_pos h0, show tmp - it.len = 0 by omega, List.drop_zero]
      exact .non (by rw [ptr_add, ptr]; rfl) (by dsimp only; omega) rest walk
    · rw [if_neg h0, show tmp - it.len = 0 by omega, List.drop_zero, show it.len - tmp = 0 by omega]
      exact walk
  | @data _ _ xs p ptr pos rest walk =>
    rw [List.drop_append, List.length_map, length_read, ← List.map_drop, drop_read]
    by_cases h0 : it.len - tmp ≠ 0
    · rw [if_pos h0, show tmp - it.len = 0 by omega, List.drop_zero]
      exact .data (by rw [ptr_add, ptr]; rfl) (by dsimp only; omega) rest walk
    · rw [if_neg h0, show tmp - it.len = 0 by omega, List.drop_zero, show it.len - tmp = 0 by omega]
      exact walk

theorem Walk.ne_nil (w : Walk h (it :: its) xs) : xs ≠ [] := by
  cases w with
  | @non _ _ xs ptr pos rest walk =>
    intro e
    have := congrArg List.length e
    simp at this
    omega
  | @data _ _ xs p ptr pos rest walk =>
    intro e
    have := congrArg List.length e
    simp at this
    omega

/-- A walk knows how long it is. -/
theorem Walk.length_eq (w : Walk h (it :: its) xs) : xs.length = it.len + it.remaining := by
  cases w with
  | @non _ _ xs ptr pos rest walk => rw [List.length_append, List.length_replicate, rest]
  | @data _ _ xs p ptr pos rest walk => rw [List.length_append, List.length_map, length_read, rest]

theorem Walk.pos (w : Walk h (it :: its) xs) : 0 < it.len := by
  cases w with
  | non ptr pos rest walk => exact pos
  | data ptr pos rest walk => exact pos

/-- The first bytes of a walk. -/
theorem Walk.take (w : Walk h (it :: its) xs) {tmp : Nat} (ht : tmp ≤ it.len) :
    xs.take tmp = match it.ptr h with
      | none => List.replicate tmp none
      | some p => (read h.mem p tmp).map some := by
  cases w with
  | @non _ _ xs ptr pos rest walk =>
    rw [ptr, List.take_append_of_le_length (by rw [List.length_replicate]; exact ht),
      List.take_replicate, Nat.min_eq_left ht]
  | @data _ _ xs p ptr pos rest walk =>
    rw [ptr, List.take_append_of_le_length (by rw [List.length_map, length_read]; exact ht),
      ← List.map_take, take_read _ _ ht]

theorem length_iterDrop_le (tmp : Nat) (it : Iter) (its : List Iter) :
    (iterDrop tmp it its).length ≤ its.length + 1 := by
  unfold iterDrop
  split
  · rw [List.length_cons]
  · omega

theorem iterDrop_all {tmp : Nat} (ht : it.len ≤ tmp) : iterDrop tmp it its = its :=
  if_neg (by omega)

/-- An unknown byte is before any other. -/
theorem compare_none_some {n : Nat} {bs : List UInt8} (hn : 0 < n) (hb : bs.length = n) :
    compare (folded fold (List.replicate n none)) (folded fold (bs.map some)) = .lt := by
  obtain ⟨k, rfl⟩ : ∃ k, n = k + 1 := ⟨n - 1, by omega⟩
  cases bs with
  | nil => cases hb
  | cons b bs => rfl

/-- Any other byte is behind an unknown one. -/
theorem compare_some_none {n : Nat} {bs : List UInt8} (hn : 0 < n) (hb : bs.length = n) :
    compare (folded fold (bs.map some)) (folded fold (List.replicate n none)) = .gt := by
  obtain ⟨k, rfl⟩ : ∃ k, n = k + 1 := ⟨n - 1, by omega⟩
  cases bs with
  | nil => cases hb
  | cons b bs => rfl

theorem compare_folded_self (xs : List (Option UInt8)) : compare xs xs = .eq :=
  Std.ReflCmp.compare_self

/-- Two iterations behind the shorter of their first stretches. -/
theorem next_eq {α : Type} {eq lt gt : α} {loop : List Iter → List Iter → α}
    {f : List (Option UInt8) → List (Option UInt8) → α} {it₁ it₂ : Iter} {fuel tmp : Nat}
    (ht : min it₁.len it₂.len = tmp) (hf : (it₁ :: its₁).length + (it₂ :: its₂).length ≤ fuel + 1)
    (w₁ : Walk h (it₁ :: its₁) xs) (w₂ : Walk h (it₂ :: its₂) ys) (heq : f [] [] = eq)
    (hlt : ∀ y ys, f [] (y :: ys) = lt) (hgt : ∀ x xs, f (x :: xs) [] = gt)
    (hloop : ∀ rest₁ rest₂ xs ys, rest₁.length + rest₂.length ≤ fuel → rest₁ ≠ [] → rest₂ ≠ [] →
      Walk h rest₁ xs → Walk h rest₂ ys → loop rest₁ rest₂ = f xs ys) :
    (match iterDrop tmp it₁ its₁, iterDrop tmp it₂ its₂ with
      | [], _ => if it₂.len - tmp + it₂.remaining ≠ 0 then lt else eq
      | _ :: _, [] => gt
      | its₁, its₂ => loop its₁ its₂) = f (xs.drop tmp) (ys.drop tmp) := by
  have hl₂ := w₂.length_eq
  have d₁ := w₁.drop (show tmp ≤ it₁.len by omega)
  have d₂ := w₂.drop (show tmp ≤ it₂.len by omega)
  have hlen : (iterDrop tmp it₁ its₁).length + (iterDrop tmp it₂ its₂).length ≤ fuel := by
    have h₁ := length_iterDrop_le tmp it₁ its₁
    have h₂ := length_iterDrop_le tmp it₂ its₂
    simp only [List.length_cons] at hf
    rcases Nat.le_total it₁.len it₂.len with hle | hle
    · rw [iterDrop_all (show it₁.len ≤ tmp by omega)] at *
      omega
    · rw [iterDrop_all (show it₂.len ≤ tmp by omega)] at *
      omega
  have hrest : (ys.drop tmp).length = it₂.len - tmp + it₂.remaining := by
    rw [List.length_drop]
    omega
  generalize iterDrop tmp it₁ its₁ = rest₁ at d₁ hlen
  generalize iterDrop tmp it₂ its₂ = rest₂ at d₂ hlen
  rw [← hrest]
  generalize xs.drop tmp = xs' at d₁
  generalize ys.drop tmp = ys' at d₂
  cases rest₁ with
  | nil =>
    cases d₁
    cases ys' with
    | nil => exact heq.symm
    | cons y ys' => exact (hlt y ys').symm
  | cons a rest₁ =>
    cases rest₂ with
    | nil =>
      cases d₂
      cases xs' with
      | nil => exact absurd rfl d₁.ne_nil
      | cons x xs' => exact (hgt x xs').symm
    | cons b rest₂ => exact hloop _ _ _ _ hlen (by simp) (by simp) d₁ d₂

/-- The loop of `vstr_cmp` and `vstr_cmp_case`. -/
theorem cmpLoop_eq (hc : Compares fold cmp) {fuel : Nat}
    (hf : its₁.length + its₂.length ≤ fuel) (h₁ : its₁ ≠ []) (h₂ : its₂ ≠ [])
    (w₁ : Walk h its₁ xs) (w₂ : Walk h its₂ ys) :
    cmpLoop cmp h fuel its₁ its₂ = compare (folded fold xs) (folded fold ys) := by
  induction fuel generalizing its₁ its₂ xs ys with
  | zero =>
    have := List.length_pos_iff.2 h₁
    omega
  | succ fuel ih =>
    obtain ⟨it₁, its₁, rfl⟩ := List.exists_cons_of_ne_nil h₁
    obtain ⟨it₂, its₂, rfl⟩ := List.exists_cons_of_ne_nil h₂
    rw [cmpLoop]
    generalize ht : min it₁.len it₂.len = tmp
    have hp₁ := w₁.pos
    have hp₂ := w₂.pos
    have hl₁ := w₁.length_eq
    have hl₂ := w₂.length_eq
    have ht₁ : tmp ≤ it₁.len := by omega
    have ht₂ : tmp ≤ it₂.len := by omega
    have hnext := next_eq (f := fun xs ys => compare (folded fold xs) (folded fold ys))
      ht hf w₁ w₂ rfl (fun _ _ => rfl) (fun _ _ => rfl)
      fun _ _ _ _ hf h₁ h₂ w₁ w₂ => ih hf h₁ h₂ w₁ w₂
    rw [compare_take_drop (n := tmp) (by rw [length_folded]; omega) (by rw [length_folded]; omega),
      ← folded_take, ← folded_take, ← folded_drop, ← folded_drop, ← hnext, w₁.take ht₁, w₂.take ht₂]
    rcases it₁.ptr h with - | p₁ <;> rcases it₂.ptr h with - | p₂
    · dsimp only
      rw [compare_folded_self]
      rfl
    · dsimp only
      rw [compare_none_some (by omega) (length_read _ _ _)]
      rfl
    · dsimp only
      rw [compare_some_none (by omega) (length_read _ _ _)]
      rfl
    · dsimp only
      rw [hc _ _ (by rw [length_read, length_read])]
      cases compare (folded fold ((read h.mem p₁ tmp).map some))
        (folded fold ((read h.mem p₂ tmp).map some)) <;> rfl

/-! ## Two strings -/

variable {n : Nat} {E E₁ E₂ : Env} {P P₁ P₂ : Own} {w w' : World n} {i j k : Fin n}
  {p p₁ p₂ l l₁ l₂ : Nat}

/-- Reading strings moves their position caches only. -/
def ReadsAll (w w' : World n) : Prop := ∀ i, Reads (w.st i) (w'.st i)

instance : IsPreorder (World n) ReadsAll where
  refl w i := Std.Refl.refl (w.st i)
  trans _ _ _ h h' i := IsTrans.trans _ _ _ (h i) (h' i)

/-- Reading one of the strings. -/
theorem readsAll_put {t : St} (r : Reads (w.st i) t) : ReadsAll w (w.put i t) := by
  intro j
  by_cases hj : j = i
  · subst hj
    rw [World.put_st]
    exact r
  · have e : (w.put i t).st j = w.st j := by
      unfold World.st
      rw [World.put_other w t hj, World.put_heap, r.heap]
      rfl
    rw [e]
    exact Std.Refl.refl _

/-- An iteration begins with its first stretch. -/
theorem iterAll_eq_cons (b : Base) (fuel : Nat) (it : Iter) :
    ∃ its, iterAll b fuel it = it :: its := by
  cases fuel with
  | zero => exact ⟨[], rfl⟩
  | succ fuel =>
    rw [iterAll]
    split
    · exact ⟨[], rfl⟩
    · exact ⟨_, rfl⟩

theorem iterAll_ne_nil (b : Base) (fuel : Nat) (it : Iter) : iterAll b fuel it ≠ [] := by
  obtain ⟨its, e⟩ := iterAll_eq_cons b fuel it
  rw [e]
  exact List.cons_ne_nil _ _

/-- An iteration has its nodes from the list only. -/
theorem iterAll_congr {b b' : Base} (hb : b'.nodes = b.nodes) (fuel : Nat) (it : Iter) :
    iterAll b' fuel it = iterAll b fuel it := by
  have hn : ∀ it, iterFwdNxt b' it = iterFwdNxt b it := by
    intro it
    unfold iterFwdNxt Base.nextOf Base.indexOf
    rw [hb]
  induction fuel generalizing it with
  | zero => rfl
  | succ fuel ih =>
    rw [iterAll, iterAll, hn]
    cases iterFwdNxt b it with
    | none => rfl
    | some it' => exact congrArg (it :: ·) (ih it')

theorem iterAll_walk_ne_nil {b : Base} {fuel : Nat}
    (hw : Walk h (iterAll b fuel it) xs) : xs ≠ [] := by
  obtain ⟨a, as, e⟩ := List.exists_cons_of_ne_nil (iterAll_ne_nil b fuel it)
  rw [e] at hw
  exact hw.ne_nil

/-- `VSTR__CMP_DOUBLE_ITER_BEG` and a loop that compares. -/
theorem cmpDoubleIter_yields {α : Type} {eq lt gt : α} {loop : Heap → List Iter → List Iter → α}
    (w₁ : Window E₁ P₁ (w.st i) p₁ l₁ xs) (w₂ : Window E₂ P₂ (w.st j) p₂ l₂ ys) {r : α}
    (heq : xs = [] → ys = [] → r = eq) (hlt : xs = [] → ys ≠ [] → r = lt)
    (hgt : xs ≠ [] → ys = [] → r = gt)
    (hloop : ∀ h its₁ its₂, its₁ ≠ [] → its₂ ≠ [] → Walk h its₁ xs → Walk h its₂ ys →
      loop h its₁ its₂ = r) :
    Yields ReadsAll (cmpDoubleIter eq lt gt loop i p₁ l₁ j p₂ l₂) w r := by
  obtain ⟨o₁, t₁, e₁, q₁, h₁⟩ : ∃ o₁ t₁, iterFwdBeg (w.st i) p₁ l₁ = (o₁, t₁) ∧
      Reads (w.st i) t₁ ∧ (o₁ = none ∧ xs = [] ∨ xs ≠ [] ∧ ∃ it, o₁ = some it ∧
        Walk w.heap (iterAll t₁.base t₁.base.nodes.length it) xs) := by
    rcases w₁.walk_cases with ⟨hx, e⟩ | ⟨it, t, e, hr, hw⟩
    · exact ⟨_, _, e, Std.Refl.refl _, .inl ⟨rfl, hx⟩⟩
    · exact ⟨_, _, e, hr, .inr ⟨iterAll_walk_ne_nil hw, it, rfl, hw⟩⟩
  have ra₁ := readsAll_put q₁
  obtain ⟨o₂, t₂, e₂, q₂, h₂⟩ : ∃ o₂ t₂, iterFwdBeg ((w.put i t₁).st j) p₂ l₂ = (o₂, t₂) ∧
      Reads ((w.put i t₁).st j) t₂ ∧ (o₂ = none ∧ ys = [] ∨ ys ≠ [] ∧ ∃ it, o₂ = some it ∧
        Walk w.heap (iterAll t₂.base t₂.base.nodes.length it) ys) := by
    rcases (w₂.reads (ra₁ j)).walk_cases with ⟨hx, e⟩ | ⟨it, t, e, hr, hw⟩
    · exact ⟨_, _, e, Std.Refl.refl _, .inl ⟨rfl, hx⟩⟩
    · rw [(ra₁ j).heap] at hw
      exact ⟨_, _, e, hr, .inr ⟨iterAll_walk_ne_nil hw, it, rfl, hw⟩⟩
  have ra₂ := readsAll_put q₂
  have ra : ReadsAll w ((w.put i t₁).put j t₂) := IsTrans.trans _ _ _ ra₁ ra₂
  have e : (cmpDoubleIter eq lt gt loop i p₁ l₁ j p₂ l₂).run w = (match o₁, o₂ with
      | none, none => eq
      | none, some _ => lt
      | some _, none => gt
      | some it₁, some it₂ => loop ((w.put i t₁).put j t₂).heap
        (iterAll (((w.put i t₁).put j t₂).bases i) (((w.put i t₁).put j t₂).bases i).nodes.length
          it₁)
        (iterAll (((w.put i t₁).put j t₂).bases j) (((w.put i t₁).put j t₂).bases j).nodes.length
          it₂), (w.put i t₁).put j t₂) := by
    change cmpDoubleIter eq lt gt loop i p₁ l₁ j p₂ l₂ w = _
    rw [cmpDoubleIter, World.on_of_eq e₁]
    dsimp only
    rw [World.on_of_eq e₂]
    cases o₁ <;> cases o₂ <;> rfl
  rw [Yields, e]
  refine ⟨?_, ra⟩
  rcases h₁ with ⟨rfl, hx⟩ | ⟨hx, it₁, rfl, hw₁⟩ <;> rcases h₂ with ⟨rfl, hy⟩ | ⟨hy, it₂, rfl, hw₂⟩
  · exact (heq hx hy).symm
  · exact (hlt hx hy).symm
  · exact (hgt hx hy).symm
  · have hb₁ : (((w.put i t₁).put j t₂).bases i).nodes = t₁.base.nodes :=
      (nodes_of_core (ra₂ i).core).trans (congrArg Base.nodes (World.put_self w i t₁))
    have hb₂ : (((w.put i t₁).put j t₂).bases j).nodes = t₂.base.nodes :=
      congrArg Base.nodes (World.put_self _ j t₂)
    have hh : ((w.put i t₁).put j t₂).heap = w.heap := (ra i).heap
    dsimp only
    rw [iterAll_congr hb₁, iterAll_congr hb₂, hb₁, hb₂, hh]
    exact hloop _ _ _ (iterAll_ne_nil _ _ _) (iterAll_ne_nil _ _ _) hw₁ hw₂

theorem folded_ne_nil (hx : xs ≠ []) : folded fold xs ≠ [] := by
  simpa [folded] using hx

/-- The comparison of two strings. -/
theorem compares_yields (hc : Compares fold cmp) (w₁ : Window E₁ P₁ (w.st i) p₁ l₁ xs)
    (w₂ : Window E₂ P₂ (w.st j) p₂ l₂ ys) :
    Yields ReadsAll (cmpDoubleIter .eq .lt .gt (fun h its₁ its₂ =>
      cmpLoop cmp h (its₁.length + its₂.length) its₁ its₂) i p₁ l₁ j p₂ l₂) w
      (compare (folded fold xs) (folded fold ys)) := by
  refine cmpDoubleIter_yields w₁ w₂ ?_ ?_ ?_ fun h its₁ its₂ h₁ h₂ hw₁ hw₂ => ?_
  · rintro rfl rfl
    rfl
  · rintro rfl hy
    exact compare_nil_of_ne (folded_ne_nil hy)
  · rintro hx rfl
    exact compare_of_ne_nil (folded_ne_nil hx)
  · exact cmpLoop_eq hc (Nat.le_refl _) h₁ h₂ hw₁ hw₂

/-- `vstr_cmp`. -/
theorem cmp_yields (w₁ : Window E₁ P₁ (w.st i) p₁ l₁ xs) (w₂ : Window E₂ P₂ (w.st j) p₂ l₂ ys) :
    Yields ReadsAll (Vstr.cmp i p₁ l₁ j p₂ l₂) w (compare xs ys) := by
  have hy := compares_yields compares_memcmp w₁ w₂
  rwa [folded_id, folded_id] at hy

/-- `vstr_cmp_case`. -/
theorem cmpCase_yields (w₁ : Window E₁ P₁ (w.st i) p₁ l₁ xs)
    (w₂ : Window E₂ P₂ (w.st j) p₂ l₂ ys) : Yields ReadsAll (cmpCase i p₁ l₁ j p₂ l₂) w
      (compare (folded toAsciiLower xs) (folded toAsciiLower ys)) :=
  compares_yields compares_memcasecmp w₁ w₂

/-! ## Buffers -/

/-- The bytes that a buffer stands for. -/
def Buf.contents : Buf → List (Option UInt8)
  | bytes bs => bs.map some
  | null len => List.replicate len none

@[simp] theorem Buf.length_contents (buf : Buf) : buf.contents.length = buf.len := by
  cases buf with
  | bytes bs => exact List.length_map _
  | null len => exact List.length_replicate

theorem Buf.contents_drop (buf : Buf) (here : Nat) :
    (buf.drop here).contents = buf.contents.drop here := by
  cases buf with
  | bytes bs => exact List.map_drop
  | null len => exact List.drop_replicate.symm

theorem Buf.len_drop (buf : Buf) (here : Nat) : (buf.drop here).len = buf.len - here := by
  rw [← Buf.length_contents, Buf.contents_drop, List.length_drop, Buf.length_contents]

/-- A buffer without bytes. -/
theorem Buf.contents_nil {buf : Buf} (hb : buf.len = 0) : buf.contents = [] :=
  List.length_eq_zero_iff.1 (buf.length_contents.trans hb)

theorem Buf.contents_ne_nil {buf : Buf} (hb : buf.len ≠ 0) : buf.contents ≠ [] := fun e =>
  hb (by rw [← buf.length_contents, e]; rfl)

/-- The loop of `vstr_cmp_buf` and `vstr_cmp_case_buf`. -/
theorem bufLoop_eq (hc : Compares fold cmp) {buf : Buf} (hb : 0 < buf.len) (hw : Walk h its xs) :
    bufLoop cmp h buf its = compare (folded fold xs) (folded fold buf.contents) := by
  induction its generalizing buf xs with
  | nil =>
    cases hw
    exact (compare_nil_of_ne (folded_ne_nil (Buf.contents_ne_nil (by omega)))).symm
  | cons it its ih =>
    unfold bufLoop
    dsimp only
    generalize hh : min it.len buf.len = here
    have hp := hw.pos
    have hl := hw.length_eq
    have hnext : (if buf.len ≤ here then
          (if it.len > buf.len ∨ it.remaining ≠ 0 then .gt else .eq)
        else bufLoop cmp h (buf.drop here) its) =
        compare (folded fold (xs.drop here)) (folded fold (buf.contents.drop here)) := by
      have d := hw.drop (show here ≤ it.len by omega)
      by_cases hle : buf.len ≤ here
      · have hnil : buf.contents.drop here = [] :=
          List.drop_eq_nil_of_le (by rw [Buf.length_contents]; omega)
        rw [if_pos hle, hnil]
        have hlen : (xs.drop here).length = it.len - here + it.remaining := by
          rw [List.length_drop]
          omega
        cases hx : xs.drop here with
        | nil =>
          rw [hx, List.length_nil] at hlen
          rw [if_neg (by omega)]
          rfl
        | cons x xs' =>
          rw [hx, List.length_cons] at hlen
          rw [if_pos (by omega)]
          rfl
      · rw [if_neg hle, ih (by rw [Buf.len_drop]; omega)
          (by rwa [iterDrop_all (show it.len ≤ here by omega)] at d), Buf.contents_drop]
    rw [compare_take_drop (n := here) (by rw [length_folded]; omega)
      (by rw [length_folded, Buf.length_contents]; omega), ← folded_take, ← folded_take,
      ← folded_drop, ← folded_drop, ← hnext, hw.take (show here ≤ it.len by omega)]
    cases it.ptr h with
    | none =>
      cases buf with
      | bytes bs =>
        have hlt : (bs.take here).length = here := by
          rw [List.length_take]
          change min here (Buf.bytes bs).len = here
          omega
        dsimp only [Buf.contents]
        rw [← List.map_take, compare_none_some (by omega) hlt]
        rfl
      | null len =>
        have hn : min here len = here := by
          change min here (Buf.null len).len = here
          omega
        dsimp only [Buf.contents]
        rw [List.take_replicate, hn, compare_folded_self]
        rfl
    | some p =>
      cases buf with
      | bytes bs =>
        have hlt : (bs.take here).length = here := by
          rw [List.length_take]
          change min here (Buf.bytes bs).len = here
          omega
        dsimp only [Buf.contents]
        rw [← List.map_take, hc _ _ (by rw [length_read, hlt])]
        cases compare (folded fold ((read h.mem p here).map some))
          (folded fold ((bs.take here).map some)) <;> rfl
      | null len =>
        have hn : min here len = here := by
          change min here (Buf.null len).len = here
          omega
        dsimp only [Buf.contents]
        rw [List.take_replicate, hn, compare_some_none (by omega) (length_read _ _ _)]
        rfl

/-- The beginning of `vstr_cmp_buf` and a loop that compares. -/
theorem cmpIter_yields {α : Type} {eq lt gt : α} {loop : Heap → Buf → List Iter → α} {s : St}
    {buf : Buf} (ww : Window E P s p l xs) {r : α} (heq : xs = [] → buf.len = 0 → r = eq)
    (hlt : xs = [] → buf.len ≠ 0 → r = lt) (hgt : xs ≠ [] → buf.len = 0 → r = gt)
    (hloop : ∀ h its, 0 < buf.len → its ≠ [] → Walk h its xs → loop h buf its = r) :
    Yields Reads (cmpIter eq lt gt loop p l buf) s r := by
  unfold Yields cmpIter StateT.run
  beta_reduce
  rcases ww.walk_cases with ⟨hx, e⟩ | ⟨it, t, e, hr, hw⟩
  · rw [e]
    refine ⟨?_, Std.Refl.refl s⟩
    dsimp only
    by_cases hb : buf.len = 0
    · rw [if_pos hb, heq hx hb]
    · rw [if_neg hb, hlt hx hb]
  · rw [e]
    refine ⟨?_, hr⟩
    dsimp only
    by_cases hb : buf.len = 0
    · rw [if_pos hb, hgt (iterAll_walk_ne_nil hw) hb]
    · rw [if_neg hb, hr.heap]
      exact hloop _ _ (by omega) (iterAll_ne_nil _ _ _) hw

/-- The comparison with a buffer. -/
theorem compares_buf_yields (hc : Compares fold cmp) {s : St} (ww : Window E P s p l xs)
    (buf : Buf) : Yields Reads (cmpIter .eq .lt .gt (bufLoop cmp) p l buf) s
      (compare (folded fold xs) (folded fold buf.contents)) := by
  refine cmpIter_yields ww ?_ ?_ ?_ fun h its hb _ hw => bufLoop_eq hc hb hw
  · rintro rfl hb
    rw [Buf.contents_nil hb]
    rfl
  · rintro rfl hb
    exact compare_nil_of_ne (folded_ne_nil (Buf.contents_ne_nil hb))
  · rintro hx hb
    rw [Buf.contents_nil hb]
    exact compare_of_ne_nil (folded_ne_nil hx)

/-- `vstr_cmp_buf`. -/
theorem cmpAnyBuf_yields {s : St} (ww : Window E P s p l xs) (buf : Buf) :
    Yields Reads (cmpAnyBuf p l buf) s (compare xs buf.contents) := by
  have hy := compares_buf_yields compares_memcmp ww buf
  rwa [folded_id, folded_id] at hy

/-- `vstr_cmp_case_buf`. -/
theorem cmpCaseBuf_yields {s : St} (ww : Window E P s p l xs) (buf : Buf) :
    Yields Reads (cmpCaseBuf p l buf) s
      (compare (folded toAsciiLower xs) (folded toAsciiLower buf.contents)) :=
  compares_buf_yields compares_memcasecmp ww buf

/-- The comparison that the searches use is the one for buffers that are not `NULL`. -/
theorem cmpBuf_eq_cmpAnyBuf (p l : Nat) (bs : List UInt8) :
    cmpBuf p l bs = cmpAnyBuf p l (.bytes bs) := by
  have hloop : ∀ (h : Heap) (its : List Iter) (bs : List UInt8),
      cmpBufLoop h bs its = bufLoop memcmp h (.bytes bs) its := by
    intro h its
    induction its with
    | nil => intros; rfl
    | cons it its ih =>
      intro bs
      unfold cmpBufLoop bufLoop
      dsimp only [Buf.len, Buf.drop]
      rw [ih]
      cases it.ptr h <;> rfl
  funext s
  rw [cmpBuf, cmpAnyBuf, cmpIter]
  dsimp only [Buf.len]
  rcases iterFwdBeg s p l with ⟨- | it, t⟩
  · rfl
  · dsimp only
    rw [hloop]
    rfl

/-! ## The orders -/

/-- What a comparison and its swap, and a third string, must agree on. -/
structure OrderOf (ab ba bc ac : Ordering) (eq : Prop) : Prop where
  /-- The other way round. -/
  swap : ba = ab.swap
  /-- Not after, twice. -/
  trans : ab.isLE → bc.isLE → ac.isLE
  /-- Equal. -/
  eq_iff : ab = .eq ↔ eq

theorem orderOf_compare (xs ys zs : List (Option UInt8)) :
    OrderOf (compare xs ys) (compare ys xs) (compare ys zs) (compare xs zs) (xs = ys) where
  swap := Std.OrientedCmp.eq_swap
  trans := Std.TransCmp.isLE_trans
  eq_iff := Std.LawfulEqCmp.compare_eq_iff_eq

/-- The comparisons are the lexicographic order of the bytes, unknown bytes first. -/
theorem cmp_lexicographic {p₃ l₃ : Nat} {E₃ : Env} {P₃ : Own}
    (w₁ : Window E₁ P₁ (w.st i) p₁ l₁ xs) (w₂ : Window E₂ P₂ (w.st j) p₂ l₂ ys)
    (w₃ : Window E₃ P₃ (w.st k) p₃ l₃ zs) :
    Yields ReadsAll (Vstr.cmp i p₁ l₁ j p₂ l₂) w (compare xs ys) ∧
    Yields ReadsAll (cmpCase i p₁ l₁ j p₂ l₂) w
      (compare (folded toAsciiLower xs) (folded toAsciiLower ys)) ∧
    (∀ buf : Buf, Yields Reads (cmpAnyBuf p₁ l₁ buf) (w.st i) (compare xs buf.contents) ∧
      Yields Reads (cmpCaseBuf p₁ l₁ buf) (w.st i)
        (compare (folded toAsciiLower xs) (folded toAsciiLower buf.contents)) ∧
      (buf.contents = ys →
        ((cmpAnyBuf p₁ l₁ buf).run (w.st i)).1 = ((Vstr.cmp i p₁ l₁ j p₂ l₂).run w).1 ∧
        ((cmpCaseBuf p₁ l₁ buf).run (w.st i)).1 = ((cmpCase i p₁ l₁ j p₂ l₂).run w).1)) ∧
    OrderOf ((Vstr.cmp i p₁ l₁ j p₂ l₂).run w).1 ((Vstr.cmp j p₂ l₂ i p₁ l₁).run w).1
      ((Vstr.cmp j p₂ l₂ k p₃ l₃).run w).1 ((Vstr.cmp i p₁ l₁ k p₃ l₃).run w).1 (xs = ys) ∧
    OrderOf ((cmpCase i p₁ l₁ j p₂ l₂).run w).1 ((cmpCase j p₂ l₂ i p₁ l₁).run w).1
      ((cmpCase j p₂ l₂ k p₃ l₃).run w).1 ((cmpCase i p₁ l₁ k p₃ l₃).run w).1
      (folded toAsciiLower xs = folded toAsciiLower ys) := by
  refine ⟨cmp_yields w₁ w₂, cmpCase_yields w₁ w₂, fun buf =>
    ⟨cmpAnyBuf_yields w₁ buf, cmpCaseBuf_yields w₁ buf, ?_⟩, ?_, ?_⟩
  · rintro rfl
    rw [(cmpAnyBuf_yields w₁ buf).1, (cmpCaseBuf_yields w₁ buf).1, (cmp_yields w₁ w₂).1,
      (cmpCase_yields w₁ w₂).1]
    exact ⟨rfl, rfl⟩
  · rw [(cmp_yields w₁ w₂).1, (cmp_yields w₂ w₁).1, (cmp_yields w₂ w₃).1, (cmp_yields w₁ w₃).1]
    exact orderOf_compare xs ys zs
  · rw [(cmpCase_yields w₁ w₂).1, (cmpCase_yields w₂ w₁).1, (cmpCase_yields w₂ w₃).1,
      (cmpCase_yields w₁ w₃).1]
    exact orderOf_compare _ _ _

/-- A string on its own. -/
def World.single (s : St) : World 1 := ⟨s.heap, fun _ => s.base⟩

theorem World.st_single (s : St) (i : Fin 1) : (World.single s).st i = s := rfl

/-- The same bytes in other nodes are equal, an unknown byte is before the others, and a slice
is before a longer one. -/
theorem cmp_lexicographic_mixed :
    ((Vstr.cmp 0 1 5 0 6 5).run (.single mixed)).1 = .eq ∧
    ((Vstr.cmp 0 6 5 0 9 2).run (.single mixed)).1 = .lt ∧
    ((Vstr.cmp 0 3 3 0 9 2).run (.single mixed)).1 = .lt ∧
    ((cmpCase 0 1 5 0 6 5).run (.single mixed)).1 = .eq ∧
    ((cmpAnyBuf 1 5 (.bytes [97, 98])).run mixed).1 = .gt ∧
    ((cmpCaseBuf 1 5 (.bytes [65, 66, 67])).run mixed).1 = .lt := by
  obtain ⟨P, w⟩ := window_mixed
  have w₁ : Window alone P ((World.single mixed).st 0) 1 5
      [some 97, some 98, none, some 99, some 100] := w.take (by decide)
  have w₂ : Window alone P ((World.single mixed).st 0) 6 5
      [some 97, some 98, none, some 99, some 100] := w.drop (k := 5) (by decide)
  have w₃ : Window alone P ((World.single mixed).st 0) 9 2 [some 99, some 100] :=
    w.drop (k := 8) (by decide)
  have w₄ : Window alone P ((World.single mixed).st 0) 3 3 [none, some 99, some 100] :=
    (w.drop (k := 2) (by decide)).take (k := 3) (by decide)
  obtain ⟨he, hec, hbuf, -⟩ := cmp_lexicographic w₁ w₂ w₃
  obtain ⟨hl, -⟩ := cmp_lexicographic w₂ w₃ w₁
  obtain ⟨hn, -⟩ := cmp_lexicographic w₄ w₃ w₁
  exact ⟨he.1, hl.1, hn.1, hec.1, (hbuf (.bytes [97, 98])).1.1, (hbuf (.bytes [65, 66, 67])).2.1.1⟩

end Vstr
