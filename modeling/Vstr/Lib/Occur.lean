import Mathlib.Data.List.DropRight
import Mathlib.Data.List.TakeWhile
import Mathlib.Order.Bounds.Basic

/-!
# Places in a list

Where a list occurs in another, first and last; places are counted from a position that is
not zero, so that zero says that there is none. Longest stretches at either end.
-/

namespace Occur

variable {α β : Type} {ys xs as bs : List α} {pos r r' i k : Nat} {x : α} {p : α → Bool}

/-- `r` is the first place of `ys` in `xs`, or zero. -/
def First (ys xs : List α) (pos r : Nat) : Prop :=
  (r = 0 ∧ ∀ i, ¬ ys <+: xs.drop i) ∨ ∃ i, r = pos + i ∧ IsLeast {i | ys <+: xs.drop i} i

/-- `r` is the last place of `ys` in `xs`, or zero. -/
def Last (ys xs : List α) (pos r : Nat) : Prop :=
  (r = 0 ∧ ∀ i, ¬ ys <+: xs.drop i) ∨ ∃ i, r = pos + i ∧ IsGreatest {i | ys <+: xs.drop i} i

theorem First.unique (h : First ys xs pos r) (h' : First ys xs pos r') : r = r' := by
  rcases h with ⟨rfl, hn⟩ | ⟨i, rfl, hi⟩ <;> rcases h' with ⟨rfl, hn'⟩ | ⟨j, rfl, hj⟩
  · rfl
  · exact absurd hj.1 (hn j)
  · exact absurd hi.1 (hn' i)
  · rw [hi.unique hj]

theorem Last.unique (h : Last ys xs pos r) (h' : Last ys xs pos r') : r = r' := by
  rcases h with ⟨rfl, hn⟩ | ⟨i, rfl, hi⟩ <;> rcases h' with ⟨rfl, hn'⟩ | ⟨j, rfl, hj⟩
  · rfl
  · exact absurd hj.1 (hn j)
  · exact absurd hi.1 (hn' i)
  · rw [hi.unique hj]

/-- What occurs behind `i` elements is inside. -/
theorem le_of_prefixed (h : ys <+: xs.drop i) (hne : ys ≠ []) : i + ys.length ≤ xs.length := by
  have hl := h.length_le
  have hp := List.length_pos_iff.2 hne
  rw [List.length_drop] at hl
  omega

/-- At the beginning. -/
theorem First.here (h : ys <+: xs) : First ys xs pos pos :=
  .inr ⟨0, rfl, by rwa [Set.mem_ofPred_eq, List.drop_zero], fun _ _ => Nat.zero_le _⟩

/-- Not in the first `k` places. -/
theorem First.behind (h : First ys (xs.drop k) (pos + k) r)
    (hn : ∀ i < k, ¬ ys <+: xs.drop i) : First ys xs pos r := by
  rcases h with ⟨rfl, h⟩ | ⟨i, rfl, hi, hle⟩
  · refine .inl ⟨rfl, fun i hi => ?_⟩
    rcases Nat.lt_or_ge i k with hlt | hge
    · exact hn i hlt hi
    · have h' := h (i - k)
      rw [List.drop_drop, Nat.add_sub_cancel' hge] at h'
      exact h' hi
  · rw [Set.mem_ofPred_eq, List.drop_drop] at hi
    refine .inr ⟨k + i, Nat.add_assoc _ _ _, hi, fun j hj => ?_⟩
    rcases Nat.lt_or_ge j k with hlt | hge
    · exact absurd hj (hn j hlt)
    · have hle' := @hle (j - k) (by
        rwa [Set.mem_ofPred_eq, List.drop_drop, Nat.add_sub_cancel' hge])
      omega

/-- Not at the beginning. -/
theorem First.tail (h : First ys xs (pos + 1) r) (hn : ¬ ys <+: x :: xs) :
    First ys (x :: xs) pos r :=
  First.behind (k := 1) h fun i hi => by
    obtain rfl : i = 0 := by omega
    exact hn

/-- Nowhere in a list that is too short. -/
theorem First.short (hne : ys ≠ []) (h : xs.length < ys.length) : First ys xs pos 0 :=
  .inl ⟨rfl, fun i hi => by
    have := le_of_prefixed hi hne
    omega⟩

theorem First.nowhere (h : First ys xs pos 0) (hp : 0 < pos) : ∀ i, ¬ ys <+: xs.drop i := by
  rcases h with ⟨-, hn⟩ | ⟨i, e, -⟩
  · exact hn
  · omega

/-- A place with none behind it is the last. -/
theorem Last.of_place (hi : ys <+: xs.drop i) (hn : ∀ j, ¬ ys <+: xs.drop (i + 1 + j)) :
    Last ys xs pos (pos + i) := by
  refine .inr ⟨i, rfl, hi, fun j hj => ?_⟩
  by_contra hlt
  refine hn (j - (i + 1)) ?_
  rwa [show i + 1 + (j - (i + 1)) = j by omega]

theorem Last.of_nowhere (h : ∀ i, ¬ ys <+: xs.drop i) : Last ys xs pos 0 := .inl ⟨rfl, h⟩

/-- A beginning in two parts. -/
theorem prefix_iff_parts {n : Nat} (hn : n ≤ ys.length) (hl : ys.length ≤ xs.length) :
    ys <+: xs ↔ xs.take n = ys.take n ∧ (xs.drop n).take (ys.length - n) = ys.drop n := by
  have hx : xs.take ys.length = xs.take n ++ (xs.drop n).take (ys.length - n) := by
    rw [← List.take_add, Nat.add_sub_cancel' hn]
  rw [List.prefix_iff_eq_take, eq_comm, hx]
  refine ⟨fun h => List.append_inj (h.trans (List.take_append_drop n ys).symm) ?_, fun h => ?_⟩
  · rw [List.length_take, List.length_take]
    omega
  · rw [h.1, h.2, List.take_append_drop]

theorem singleton_prefix_drop : [x] <+: xs.drop i ↔ xs[i]? = some x := by
  rw [← List.head?_drop]
  cases xs.drop i with
  | nil => simp
  | cons y ys => simp [List.cons_prefix_cons, eq_comm]

/-! ## Ends -/

/-- A place, by where it ends. -/
theorem prefix_drop_iff (hne : ys ≠ []) :
    ys <+: xs.drop i ↔ i + ys.length ≤ xs.length ∧ ys <:+ xs.take (i + ys.length) := by
  have ht : xs.take (i + ys.length) = xs.take i ++ (xs.drop i).take ys.length := List.take_add
  refine ⟨fun h => ⟨le_of_prefixed h hne, ?_⟩, fun h => ?_⟩
  · rw [ht, ← List.prefix_iff_eq_take.1 h]
    exact List.suffix_append _ _
  · have hl : ((xs.drop i).take ys.length).length = ys.length := by
      rw [List.length_take, List.length_drop]
      omega
    have hs := List.suffix_of_suffix_length_le h.2 (ht ▸ List.suffix_append _ _)
      (Nat.le_of_eq hl.symm)
    rw [hs.eq_of_length hl.symm]
    exact List.take_prefix _ _

/-- Nowhere in a list that is too short. -/
theorem Last.short (hne : ys ≠ []) (h : xs.length < ys.length) : Last ys xs pos 0 :=
  .of_nowhere fun i hi => by
    have := le_of_prefixed hi hne
    omega

theorem Last.nil (hne : ys ≠ []) : Last ys [] pos 0 :=
  .of_nowhere fun i hi => by
    rw [List.drop_nil] at hi
    exact hne (List.prefix_nil.1 hi)

/-- The last end is that of the last place. -/
theorem Last.of_end {e : Nat} (hne : ys ≠ []) (he : e ≤ xs.length) (h : ys <:+ xs.take e)
    (hn : ∀ e', e < e' → e' ≤ xs.length → ¬ ys <:+ xs.take e') :
    Last ys xs pos (pos + e - ys.length) := by
  have hl := h.length_le
  rw [List.length_take, Nat.min_eq_left he] at hl
  have hi : e - ys.length + ys.length = e := Nat.sub_add_cancel hl
  rw [Nat.add_sub_assoc hl]
  refine .of_place ((prefix_drop_iff hne).2 (by rw [hi]; exact ⟨he, h⟩)) fun j hj => ?_
  obtain ⟨hj, hs⟩ := (prefix_drop_iff hne).1 hj
  exact hn _ (by omega) hj hs

/-- What is put behind has no end in it. -/
theorem Last.append (hne : ys ≠ []) (h : Last ys xs pos r)
    (hn : ∀ e, 0 < e → e ≤ bs.length → ¬ ys <:+ xs ++ bs.take e) : Last ys (xs ++ bs) pos r := by
  have hin : ∀ i, ys <+: (xs ++ bs).drop i ↔ ys <+: xs.drop i := by
    intro i
    rw [prefix_drop_iff hne, prefix_drop_iff hne]
    refine ⟨fun ⟨hl, hs⟩ => ?_, fun ⟨hl, hs⟩ => ?_⟩
    · rw [List.length_append] at hl
      by_cases hle : i + ys.length ≤ xs.length
      · rw [List.take_append_of_le_length hle] at hs
        exact ⟨hle, hs⟩
      · rw [List.take_append, List.take_of_length_le (by omega)] at hs
        exact absurd hs (hn _ (by omega) (by omega))
    · rw [List.length_append, List.take_append_of_le_length hl]
      exact ⟨by omega, hs⟩
  unfold Last
  simp only [hin]
  exact h

/-- Ends of one length. -/
theorem append_suffix_append {cs ds : List α} (hl : bs.length = ds.length) :
    as ++ bs <:+ cs ++ ds ↔ as <:+ cs ∧ bs = ds := by
  refine ⟨?_, ?_⟩
  · rintro ⟨zs, h⟩
    rw [← List.append_assoc] at h
    obtain ⟨h₁, h₂⟩ := List.append_inj' h hl
    exact ⟨⟨zs, h₁⟩, h₂⟩
  · rintro ⟨⟨zs, rfl⟩, rfl⟩
    exact ⟨zs, by rw [List.append_assoc]⟩

/-- Places are places whatever the lists are. -/
theorem First.congr {ys' : List β} {xs' : List β}
    (h : ∀ i, ys <+: xs.drop i ↔ ys' <+: xs'.drop i) :
    First ys xs pos r ↔ First ys' xs' pos r := by
  unfold First
  simp only [h]

theorem Last.congr {ys' : List β} {xs' : List β}
    (h : ∀ i, ys <+: xs.drop i ↔ ys' <+: xs'.drop i) :
    Last ys xs pos r ↔ Last ys' xs' pos r := by
  unfold Last
  simp only [h]

/-! ## The last place left out -/

/-- What a search for `ys` looks at that never looks at the last element alone. -/
def cut (ys xs : List α) : List α := if ys.length = 1 then xs.dropLast else xs

theorem length_cut_le (ys xs : List α) : (cut ys xs).length ≤ xs.length := by
  unfold cut
  split
  · rw [List.length_dropLast]
    omega
  · exact Nat.le_refl _

theorem cut_drop (ys xs : List α) (k : Nat) : (cut ys xs).drop k = cut ys (xs.drop k) := by
  unfold cut
  split
  · rw [List.dropLast_eq_take, List.dropLast_eq_take, List.drop_take, List.length_drop]
    congr 1
    omega
  · rfl

/-- The places that are left. -/
theorem prefix_cut_iff (hne : ys ≠ []) :
    ys <+: (cut ys xs).drop i ↔ ys <+: xs.drop i ∧ (ys.length = 1 → i + 1 < xs.length) := by
  unfold cut
  split
  · next h1 =>
    obtain ⟨y, rfl⟩ := List.length_eq_one_iff.1 h1
    rw [singleton_prefix_drop, singleton_prefix_drop, List.dropLast_eq_take, List.getElem?_take]
    by_cases hi : i < xs.length - 1
    · rw [if_pos hi]
      exact ⟨fun h => ⟨h, fun _ => by omega⟩, fun h => h.1⟩
    · rw [if_neg hi]
      exact ⟨fun h => absurd h (by simp), fun h => absurd (h.2 rfl) (by omega)⟩
  · next h1 => exact ⟨fun h => ⟨h, fun e => absurd e h1⟩, fun h => h.1⟩

/-- A single element at the end. -/
theorem suffix_of_place (h1 : ys.length = 1) (h : ys <+: xs.drop i) (hi : xs.length ≤ i + 1) :
    ys <:+ xs := by
  have hne : ys ≠ [] := by
    rintro rfl
    cases h1
  obtain ⟨hl, hs⟩ := (prefix_drop_iff hne).1 h
  rwa [List.take_of_length_le (by omega)] at hs

/-- The place of a single element at the end. -/
theorem place_of_suffix (h1 : ys.length = 1) (h : ys <:+ xs) : ys <+: xs.drop (xs.length - 1) := by
  have hne : ys ≠ [] := by
    rintro rfl
    cases h1
  have hl := h.length_le
  refine (prefix_drop_iff hne).2 ⟨by omega, ?_⟩
  rwa [List.take_of_length_le (by omega)]

/-- The first place of those that are left is the first place, unless the only one is that of
a single element at the end. -/
theorem first_iff_of_cut (hp : 0 < pos) (hne : ys ≠ []) (h : First ys (cut ys xs) pos r) :
    First ys xs pos r ↔ ¬ (ys.length = 1 ∧ ys <:+ xs ∧ ∀ i, i + 1 < xs.length →
      ¬ ys <+: xs.drop i) := by
  refine ⟨fun hf ⟨h1, hs, hn⟩ => ?_, fun hn => ?_⟩
  · have h0 : r = 0 := by
      rcases h with ⟨rfl, -⟩ | ⟨i, rfl, hi, -⟩
      · rfl
      · obtain ⟨hi, hlt⟩ := (prefix_cut_iff hne).1 hi
        exact absurd hi (hn i (hlt h1))
    subst h0
    exact hf.nowhere hp _ (place_of_suffix h1 hs)
  · rcases h with ⟨rfl, h⟩ | ⟨i, rfl, hi, hle⟩
    · refine .inl ⟨rfl, fun i hi => hn ?_⟩
      have hcut : ∀ j, ys <+: xs.drop j → ¬ (ys.length = 1 → j + 1 < xs.length) := fun j hj hlt =>
        h j ((prefix_cut_iff hne).2 ⟨hj, hlt⟩)
      have h1 : ys.length = 1 := by
        by_contra h1
        exact hcut i hi fun e => absurd e h1
      refine ⟨h1, suffix_of_place h1 hi ?_, fun j hj hp => hcut j hp fun _ => hj⟩
      by_contra hlt
      exact hcut i hi fun _ => by omega
    · obtain ⟨hi, hlt⟩ := (prefix_cut_iff hne).1 hi
      refine .inr ⟨i, rfl, hi, fun j hj => ?_⟩
      by_contra hji
      exact hji (hle ((prefix_cut_iff hne).2 ⟨hj, fun h1 => by
        have := hlt h1
        omega⟩))

/-- The last place of those that are left is the last place, unless there is one at the end. -/
theorem last_iff_of_cut (hp : 0 < pos) (hne : ys ≠ []) (h : Last ys (cut ys xs) pos r) :
    Last ys xs pos r ↔ ¬ (ys.length = 1 ∧ ys <:+ xs) := by
  refine ⟨fun hl ⟨h1, hs⟩ => ?_, fun hn => ?_⟩
  · have hend := place_of_suffix h1 hs
    rcases hl with ⟨rfl, hl⟩ | ⟨i, rfl, hi, hge⟩
    · exact hl _ hend
    · have hle := hge hend
      rcases h with ⟨h0, -⟩ | ⟨j, e, hj, -⟩
      · omega
      · obtain ⟨-, hlt⟩ := (prefix_cut_iff hne).1 hj
        have := hlt h1
        omega
  · have hcut : ∀ j, ys <+: (cut ys xs).drop j ↔ ys <+: xs.drop j := by
      intro j
      rw [prefix_cut_iff hne]
      refine ⟨fun h => h.1, fun hj => ⟨hj, fun h1 => ?_⟩⟩
      by_contra hlt
      exact hn ⟨h1, suffix_of_place h1 hj (by omega)⟩
    rwa [← Last.congr hcut]

/-! ## One part after the other -/

/-- What a search in the first `n` places may answer: the first place in the whole list, or
that none of them is one. -/
def Among (ys xs : List α) (pos n : Nat) : Option Nat → Prop
  | some r => r ≠ 0 ∧ First ys xs pos r
  | none => ∀ i < n, ¬ ys <+: xs.drop i

/-- The first `k` places are none. -/
theorem Among.behind {o : Option Nat} {n : Nat} (h : Among ys (xs.drop k) (pos + k) (n - k) o)
    (hn : ∀ i < k, ¬ ys <+: xs.drop i) : Among ys xs pos n o := by
  cases o with
  | some r => exact ⟨h.1, h.2.behind hn⟩
  | none =>
    intro i hi hp
    rcases Nat.lt_or_ge i k with hlt | hge
    · exact hn i hlt hp
    · have h' := h (i - k) (by omega)
      rw [List.drop_drop, Nat.add_sub_cancel' hge] at h'
      exact h' hp

/-- An element that is not at a place. -/
theorem not_prefix_of_ne {y : α} (hne : xs[i]? ≠ some y) : ¬ y :: ys <+: xs.drop i := by
  intro h
  refine hne (singleton_prefix_drop.1 (List.IsPrefix.trans ?_ h))
  exact ⟨ys, rfl⟩

/-! ## Single elements -/

/-- An element and what is around it. -/
theorem split_of_getElem? (h : xs[i]? = some x) : xs = xs.take i ++ x :: xs.drop (i + 1) := by
  obtain ⟨hlt, hx⟩ := List.getElem?_eq_some_iff.1 h
  rw [← hx, ← List.drop_eq_getElem_cons hlt, List.take_append_drop]

/-- The first place of an element. -/
theorem first_singleton (h : First [x] xs pos r) :
    (r = 0 ∧ x ∉ xs) ∨ ∃ as bs, xs = as ++ x :: bs ∧ x ∉ as ∧ r = pos + as.length := by
  rcases h with ⟨rfl, hn⟩ | ⟨i, rfl, hi, hle⟩
  · refine .inl ⟨rfl, fun hx => ?_⟩
    obtain ⟨i, hi⟩ := List.mem_iff_getElem?.1 hx
    exact hn i (singleton_prefix_drop.2 hi)
  · rw [Set.mem_ofPred_eq, singleton_prefix_drop] at hi
    obtain ⟨hlt, -⟩ := List.getElem?_eq_some_iff.1 hi
    refine .inr ⟨xs.take i, xs.drop (i + 1), split_of_getElem? hi, fun hm => ?_, ?_⟩
    · obtain ⟨j, hj⟩ := List.mem_iff_getElem?.1 hm
      have hji : j < i := by
        have := (List.getElem?_eq_some_iff.1 hj).1
        rw [List.length_take] at this
        omega
      rw [List.getElem?_take_of_lt hji] at hj
      have := hle (singleton_prefix_drop.2 hj)
      omega
    · rw [List.length_take, Nat.min_eq_left (by omega)]

/-- The last place of an element. -/
theorem last_singleton (h : Last [x] xs pos r) :
    (r = 0 ∧ x ∉ xs) ∨ ∃ as bs, xs = as ++ x :: bs ∧ x ∉ bs ∧ r = pos + as.length := by
  rcases h with ⟨rfl, hn⟩ | ⟨i, rfl, hi, hle⟩
  · refine .inl ⟨rfl, fun hx => ?_⟩
    obtain ⟨i, hi⟩ := List.mem_iff_getElem?.1 hx
    exact hn i (singleton_prefix_drop.2 hi)
  · rw [Set.mem_ofPred_eq, singleton_prefix_drop] at hi
    obtain ⟨hlt, -⟩ := List.getElem?_eq_some_iff.1 hi
    refine .inr ⟨xs.take i, xs.drop (i + 1), split_of_getElem? hi, fun hm => ?_, ?_⟩
    · obtain ⟨j, hj⟩ := List.mem_iff_getElem?.1 hm
      rw [List.getElem?_drop] at hj
      have := hle (singleton_prefix_drop.2 hj)
      omega
    · rw [List.length_take, Nat.min_eq_left (by omega)]

theorem last_of_split (h : x ∉ bs) : Last [x] (as ++ x :: bs) pos (pos + as.length) := by
  refine .of_place (singleton_prefix_drop.2 (by simp)) fun j hj => h ?_
  rw [singleton_prefix_drop, List.getElem?_append_right (by omega),
    show as.length + 1 + j - as.length = j + 1 by omega, List.getElem?_cons_succ] at hj
  exact List.mem_of_getElem? hj

theorem last_of_not_mem (h : x ∉ xs) : Last [x] xs pos 0 :=
  .of_nowhere fun _ hi => h (List.mem_of_getElem? (singleton_prefix_drop.1 hi))

/-- What is put behind does not hold the element. -/
theorem last_append (h : Last [x] xs pos r) (hn : x ∉ ys) : Last [x] (xs ++ ys) pos r := by
  rcases last_singleton h with ⟨rfl, hx⟩ | ⟨as, bs, rfl, hb, rfl⟩
  · exact last_of_not_mem (by simp [hx, hn])
  · rw [List.append_assoc, List.cons_append]
    exact last_of_split (by simp [hb, hn])

/-! ## Stretches at the ends -/

/-- The stretch at the beginning of two lists. -/
theorem length_takeWhile_append (p : α → Bool) (as bs : List α) :
    ((as ++ bs).takeWhile p).length =
      if (as.takeWhile p).length < as.length then (as.takeWhile p).length
      else as.length + (bs.takeWhile p).length := by
  have hle := (List.takeWhile_prefix p (l := as)).length_le
  rw [List.takeWhile_append]
  by_cases h : (as.takeWhile p).length = as.length
  · rw [if_pos h, if_neg (by omega), List.length_append]
  · rw [if_neg h, if_pos (by omega)]

theorem length_takeWhile_of_all (h : ∀ x ∈ xs, p x = true) :
    (xs.takeWhile p).length = xs.length := by
  rw [List.takeWhile_eq_self_iff.2 h]

/-- The stretch at the end of `xs`, when `ret` elements at the end of what is in front of `xs`
belong to it. -/
def trail (p : α → Bool) (ret : Nat) (xs : List α) : Nat :=
  if (xs.reverse.takeWhile p).length < xs.length then (xs.reverse.takeWhile p).length
  else ret + xs.length

theorem length_rtakeWhile (p : α → Bool) (xs : List α) :
    (xs.rtakeWhile p).length = (xs.reverse.takeWhile p).length := List.length_reverse

/-- Nothing is in front. -/
theorem trail_zero (p : α → Bool) (xs : List α) : trail p 0 xs = (xs.rtakeWhile p).length := by
  rw [length_rtakeWhile]
  have hle := (List.takeWhile_prefix p (l := xs.reverse)).length_le
  rw [List.length_reverse] at hle
  unfold trail
  split <;> omega

/-- One list behind the other. -/
theorem trail_append (p : α → Bool) (ret : Nat) (as bs : List α) :
    trail p ret (as ++ bs) = trail p (trail p ret as) bs := by
  have ha := (List.takeWhile_prefix p (l := as.reverse)).length_le
  have hb := (List.takeWhile_prefix p (l := bs.reverse)).length_le
  rw [List.length_reverse] at ha hb
  unfold trail
  rw [List.reverse_append, length_takeWhile_append, List.length_append, List.length_reverse]
  generalize (as.reverse.takeWhile p).length = a at *
  generalize (bs.reverse.takeWhile p).length = b at *
  repeat' split
  all_goals omega

end Occur
