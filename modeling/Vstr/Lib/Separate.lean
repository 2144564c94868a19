import Vstr.Lib.Occur

/-!
# Fields between separators

A list is cut at separators of one width, leftmost first and without overlap. What is between
them are its fields: one more than there are separators, and any of them may be empty.
-/

namespace Separate

open Occur

variable {α : Type}

/-- Separators of one width. -/
structure Sep (α : Type) where
  /-- Whether a separator stands at the beginning. -/
  hit : List α → Bool
  /-- The length of a separator. -/
  width : Nat
  /-- A separator is not empty. -/
  width_pos : 0 < width
  /-- A separator is part of the list. -/
  width_le : ∀ {xs : List α}, hit xs = true → width ≤ xs.length

/-- The fields of a list, behind the `skip` elements that a separator still has. -/
def Sep.go (c : Sep α) : Nat → List α → List (List α)
  | _, [] => [[]]
  | skip + 1, _ :: xs => c.go skip xs
  | 0, x :: xs =>
    if c.hit (x :: xs) then [] :: c.go (c.width - 1) xs else (c.go 0 xs).modifyHead (x :: ·)

/-- The fields of a list. -/
def Sep.fields (c : Sep α) (xs : List α) : List (List α) := c.go 0 xs

variable (c : Sep α) {xs ys : List α} {i k n : Nat}

theorem Sep.hit_nil : c.hit [] = false := by
  by_contra h
  have hw := c.width_le (Bool.of_not_eq_false h)
  have hp := c.width_pos
  rw [List.length_nil] at hw
  omega

theorem Sep.go_eq : c.go k xs = c.fields (xs.drop k) := by
  induction k generalizing xs with
  | zero => rfl
  | succ k ih =>
    cases xs with
    | nil => rfl
    | cons x xs => exact ih

@[simp] theorem Sep.fields_nil : c.fields [] = [[]] := rfl

/-- A separator at the beginning. -/
theorem Sep.fields_hit (h : c.hit xs = true) : c.fields xs = [] :: c.fields (xs.drop c.width) := by
  cases xs with
  | nil => rw [c.hit_nil] at h; cases h
  | cons x xs =>
    have hp := c.width_pos
    rw [Sep.fields, Sep.go, if_pos h, c.go_eq, ← List.drop_succ_cons (a := x),
      Nat.sub_add_cancel hp]

/-- No separator at the beginning. -/
theorem Sep.fields_cons {x : α} (h : c.hit (x :: xs) = false) :
    c.fields (x :: xs) = (c.fields xs).modifyHead (x :: ·) := by
  rw [Sep.fields, Sep.go, if_neg (by rw [h]; exact Bool.false_ne_true)]
  rfl

theorem Sep.fields_ne_nil : c.fields xs ≠ [] := by
  induction xs with
  | nil => simp
  | cons x xs ih =>
    by_cases h : c.hit (x :: xs) = true
    · rw [c.fields_hit h]
      simp
    · rw [c.fields_cons (Bool.of_not_eq_true h)]
      simpa using ih

/-- The first separator ends the first field. -/
theorem Sep.fields_first (hi : c.hit (xs.drop i) = true)
    (hn : ∀ j < i, c.hit (xs.drop j) = false) :
    c.fields xs = xs.take i :: c.fields (xs.drop (i + c.width)) := by
  induction i generalizing xs with
  | zero =>
    rw [List.drop_zero] at hi
    rw [c.fields_hit hi, List.take_zero, Nat.zero_add]
  | succ i ih =>
    cases xs with
    | nil => rw [List.drop_nil, c.hit_nil] at hi; cases hi
    | cons x xs =>
      have h := ih hi fun j hj => hn (j + 1) (by omega)
      rw [c.fields_cons (hn 0 (Nat.succ_pos i)), h, List.take_succ_cons, Nat.add_right_comm,
        List.drop_succ_cons]
      rfl

/-- Without separators there is one field. -/
theorem Sep.fields_none (hn : ∀ j, c.hit (xs.drop j) = false) : c.fields xs = [xs] := by
  induction xs with
  | nil => rfl
  | cons x xs ih =>
    rw [c.fields_cons (hn 0), ih fun j => hn (j + 1)]
    rfl

/-! ## Lengths -/

/-- The lengths of the fields. -/
def Sep.lens (xs : List α) : List Nat := (c.fields xs).map List.length

@[simp] theorem Sep.lens_nil : c.lens [] = [0] := rfl

theorem Sep.lens_ne_nil : c.lens xs ≠ [] := by
  simpa [Sep.lens] using c.fields_ne_nil

theorem Sep.lens_hit (h : c.hit xs = true) : c.lens xs = 0 :: c.lens (xs.drop c.width) := by
  rw [Sep.lens, c.fields_hit h]
  rfl

theorem Sep.lens_none (hn : ∀ j, c.hit (xs.drop j) = false) : c.lens xs = [xs.length] := by
  rw [Sep.lens, c.fields_none hn]
  rfl

theorem Sep.lens_first (hi : c.hit (xs.drop i) = true) (hl : i ≤ xs.length)
    (hn : ∀ j < i, c.hit (xs.drop j) = false) :
    c.lens xs = i :: c.lens (xs.drop (i + c.width)) := by
  rw [Sep.lens, c.fields_first hi hn, List.map_cons, List.length_take, Nat.min_eq_left hl]
  rfl

theorem Sep.lens_cons {x : α} (h : c.hit (x :: xs) = false) :
    c.lens (x :: xs) = (c.lens xs).modifyHead (· + 1) := by
  rw [Sep.lens, c.fields_cons h, Sep.lens]
  cases c.fields xs <;> rfl

/-- The fields behind the first one. -/
theorem Sep.lens_tail {ns : List Nat} (h : c.lens xs = n :: ns) (hne : ns ≠ []) :
    c.lens (xs.drop (n + c.width)) = ns ∧ n + c.width ≤ xs.length := by
  induction xs generalizing n with
  | nil =>
    rw [c.lens_nil] at h
    exact absurd (List.cons.inj h).2.symm hne
  | cons x xs ih =>
    by_cases hx : c.hit (x :: xs) = true
    · rw [c.lens_hit hx] at h
      obtain ⟨rfl, h'⟩ := List.cons.inj h
      rw [Nat.zero_add]
      exact ⟨h', c.width_le hx⟩
    · rw [c.lens_cons (Bool.of_not_eq_true hx)] at h
      obtain ⟨m, ms, e⟩ := List.exists_cons_of_ne_nil c.lens_ne_nil
      rw [e, List.modifyHead_cons] at h
      obtain ⟨rfl, rfl⟩ := List.cons.inj h
      obtain ⟨h1, h2⟩ := ih e
      rw [Nat.add_right_comm, List.drop_succ_cons, List.length_cons]
      exact ⟨h1, Nat.succ_le_succ h2⟩

/-- Without a separator at the beginning, the first field is not empty, or it is all. -/
theorem Sep.lens_not_hit (h : c.hit xs = false) (hne : xs ≠ []) :
    ∃ n ns, c.lens xs = (n + 1) :: ns := by
  obtain ⟨x, xs, rfl⟩ := List.exists_cons_of_ne_nil hne
  obtain ⟨f, fs, e⟩ := List.exists_cons_of_ne_nil c.fields_ne_nil
  refine ⟨f.length, fs.map List.length, ?_⟩
  rw [Sep.lens, c.fields_cons h, e]
  rfl

/-- An empty field that is not the last one ends at a separator. -/
theorem Sep.hit_of_lens {ns : List Nat} (h : c.lens xs = 0 :: ns) (hne : ns ≠ []) :
    c.hit xs = true := by
  by_contra hx
  have hx' := Bool.of_not_eq_true hx
  cases xs with
  | nil =>
    rw [c.lens_nil] at h
    exact hne (List.cons.inj h).2.symm
  | cons x xs =>
    obtain ⟨m, ms, e⟩ := c.lens_not_hit hx' (List.cons_ne_nil x xs)
    rw [e] at h
    cases (List.cons.inj h).1

/-- The length of fields of these lengths with separators of `width` elements between them. -/
def stretch (width : Nat) : List Nat → Nat
  | [] => 0
  | [n] => n
  | n :: m :: ns => n + width + stretch width (m :: ns)

theorem stretch_cons (width : Nat) {ns : List Nat} (h : ns ≠ []) :
    stretch width (n :: ns) = n + width + stretch width ns := by
  obtain ⟨m, ns, rfl⟩ := List.exists_cons_of_ne_nil h
  rfl

theorem length_le_stretch {width : Nat} (hw : 0 < width) (ns : List Nat) :
    ns.length ≤ stretch width ns + 1 := by
  induction ns with
  | nil => exact Nat.zero_le _
  | cons n ns ih =>
    by_cases h : ns = []
    · subst h
      exact Nat.le_add_left 1 _
    · rw [stretch_cons _ h, List.length_cons]
      omega

/-- Fields and separators make up the list. -/
theorem Sep.stretch_lens : stretch c.width (c.lens xs) = xs.length := by
  induction hl : xs.length using Nat.strong_induction_on generalizing xs with
  | _ l ih =>
    subst hl
    have hp := c.width_pos
    by_cases h : c.hit xs = true
    · have hw := c.width_le h
      rw [c.lens_hit h, stretch_cons _ c.lens_ne_nil,
        ih (xs.drop c.width).length (by rw [List.length_drop]; omega) rfl, List.length_drop]
      omega
    · have h' := Bool.of_not_eq_true h
      cases xs with
      | nil => rfl
      | cons x xs =>
        have e := ih xs.length (Nat.lt_succ_self _) rfl
        have hg : ∀ fs : List (List α), fs ≠ [] →
            stretch c.width ((fs.modifyHead (x :: ·)).map List.length) =
              stretch c.width (fs.map List.length) + 1 := by
          intro fs hfs
          rcases fs with - | ⟨f, - | ⟨g, gs⟩⟩
          · exact absurd rfl hfs
          · rfl
          · simp only [List.modifyHead_cons, List.map_cons, List.length_cons, stretch]
            omega
        rw [Sep.lens, c.fields_cons h', hg _ c.fields_ne_nil, List.length_cons, ← e]
        rfl

/-! ## Empty fields in a row -/

/-- How many empty fields stand at the beginning, the last field apart. -/
def lead : List Nat → Nat
  | 0 :: m :: ns => lead (m :: ns) + 1
  | _ => 0

/-- No field has anything in it. -/
def bare (ns : List Nat) : Bool := ns.all (· == 0)

theorem lead_cons_zero {ns : List Nat} (h : ns ≠ []) : lead (0 :: ns) = lead ns + 1 := by
  obtain ⟨m, ns, rfl⟩ := List.exists_cons_of_ne_nil h
  rfl

@[simp] theorem lead_cons_succ (ns : List Nat) : lead ((n + 1) :: ns) = 0 := by
  cases ns <;> rfl

@[simp] theorem bare_cons_zero (ns : List Nat) : bare (0 :: ns) = bare ns := rfl

@[simp] theorem bare_cons_succ (ns : List Nat) : bare ((n + 1) :: ns) = false := rfl

theorem lead_lt {ns : List Nat} (h : ns ≠ []) : lead ns < ns.length := by
  induction ns with
  | nil => exact absurd rfl h
  | cons n ns ih =>
    cases n with
    | succ n => simp
    | zero =>
      cases ns with
      | nil => simp [lead]
      | cons m ns =>
        have := ih (List.cons_ne_nil m ns)
        rw [lead_cons_zero (List.cons_ne_nil m ns), List.length_cons]
        omega

theorem lead_le_length (ns : List Nat) : lead ns ≤ ns.length := by
  cases ns with
  | nil => exact Nat.le_refl 0
  | cons n ns => exact (lead_lt (List.cons_ne_nil n ns)).le

/-- An empty field at the beginning. -/
theorem exists_of_lead {ns : List Nat} (h : 0 < lead ns) :
    ∃ ms, ms ≠ [] ∧ ns = 0 :: ms ∧ lead ns = lead ms + 1 := by
  rcases ns with - | ⟨- | n, - | ⟨m, ms⟩⟩
  · exact absurd h (Nat.lt_irrefl 0)
  · exact absurd h (Nat.lt_irrefl 0)
  · exact ⟨m :: ms, List.cons_ne_nil m ms, rfl, rfl⟩
  · exact absurd h (Nat.lt_irrefl 0)
  · exact absurd h (Nat.lt_irrefl 0)

theorem lead_drop {ns : List Nat} (hk : k ≤ lead ns) : lead (ns.drop k) = lead ns - k := by
  induction k generalizing ns with
  | zero => rw [List.drop_zero, Nat.sub_zero]
  | succ k ih =>
    obtain ⟨ms, hms, rfl, hl⟩ := exists_of_lead (show 0 < lead ns by omega)
    rw [List.drop_succ_cons, ih (by omega), hl, Nat.add_sub_add_right]

theorem bare_drop {ns : List Nat} (hk : k ≤ lead ns) : bare (ns.drop k) = bare ns := by
  induction k generalizing ns with
  | zero => rw [List.drop_zero]
  | succ k ih =>
    obtain ⟨ms, hms, rfl, hl⟩ := exists_of_lead (show 0 < lead ns by omega)
    rw [List.drop_succ_cons, ih (by omega), bare_cons_zero]

theorem bare_of_drop {ns : List Nat} (h : bare (ns.drop k) = false) : bare ns = false := by
  by_contra hb
  rw [Bool.not_eq_false] at hb
  refine Bool.false_ne_true (h.symm.trans (List.all_eq_true.2 fun n hn => ?_))
  exact List.all_eq_true.1 hb n (List.mem_of_mem_drop hn)

/-- When all fields are empty, all but the last one are at the beginning. -/
theorem lead_bare {width : Nat} {ns : List Nat} (hne : ns ≠ []) (h : bare ns = true) :
    lead ns = ns.length - 1 ∧ stretch width ns = (ns.length - 1) * width := by
  induction ns with
  | nil => exact absurd rfl hne
  | cons n ns ih =>
    cases n with
    | succ n => cases h
    | zero =>
      by_cases hns : ns = []
      · subst hns
        exact ⟨rfl, (Nat.zero_mul width).symm⟩
      · obtain ⟨h1, h2⟩ := ih hns h
        obtain ⟨l, hl⟩ : ∃ l, ns.length = l + 1 :=
          Nat.exists_eq_succ_of_ne_zero (List.length_pos_iff.2 hns).ne'
        rw [lead_cons_zero hns, stretch_cons _ hns, h1, h2, List.length_cons, hl,
          Nat.add_sub_cancel, Nat.add_sub_cancel, Nat.succ_mul]
        omega

/-- The separators at the beginning, as far as they go. -/
theorem Sep.exists_run (xs : List α) : ∃ k, c.hit (xs.drop (k * c.width)) = false ∧
    (∀ j < k, c.hit (xs.drop (j * c.width)) = true) ∧ k * c.width ≤ xs.length ∧
    lead (c.lens xs) = k ∧ (bare (c.lens xs) = true ↔ k * c.width = xs.length) := by
  induction hl : xs.length using Nat.strong_induction_on generalizing xs with
  | _ l ih =>
    subst hl
    have hp := c.width_pos
    by_cases h : c.hit xs = true
    · have hw := c.width_le h
      obtain ⟨k, h1, h2, h3, h4, h5⟩ :=
        ih (xs.drop c.width).length (by rw [List.length_drop]; omega) (xs.drop c.width) rfl
      rw [List.length_drop] at h3 h5
      refine ⟨k + 1, ?_, ?_, ?_, ?_, ?_⟩
      · rwa [List.drop_drop, Nat.add_comm, ← Nat.succ_mul] at h1
      · rintro (- | j) hj
        · rwa [Nat.zero_mul]
        · have := h2 j (by omega)
          rwa [List.drop_drop, Nat.add_comm, ← Nat.succ_mul] at this
      · rw [Nat.succ_mul]
        omega
      · rw [c.lens_hit h, lead_cons_zero c.lens_ne_nil, h4]
      · rw [c.lens_hit h, bare_cons_zero, h5, Nat.succ_mul]
        omega
    · have h' := Bool.of_not_eq_true h
      refine ⟨0, ?_, ?_, ?_, ?_, ?_⟩
      · rwa [Nat.zero_mul]
      · intro j hj
        omega
      · omega
      · cases xs with
        | nil => rfl
        | cons x xs =>
          obtain ⟨n, ns, e⟩ := c.lens_not_hit h' (List.cons_ne_nil x xs)
          rw [e, lead_cons_succ]
      · cases xs with
        | nil => simp [bare]
        | cons x xs =>
          obtain ⟨n, ns, e⟩ := c.lens_not_hit h' (List.cons_ne_nil x xs)
          rw [e]
          simp

/-- What is left behind `k` separators at the beginning. -/
theorem Sep.lens_drop (hk : k ≤ lead (c.lens xs)) :
    c.lens (xs.drop (k * c.width)) = (c.lens xs).drop k ∧ k * c.width ≤ xs.length := by
  obtain ⟨n, -, hn, hle, rfl, -⟩ := c.exists_run xs
  refine ⟨?_, (Nat.mul_le_mul_right _ hk).trans hle⟩
  induction k with
  | zero => rw [Nat.zero_mul, List.drop_zero, List.drop_zero]
  | succ k ih =>
    have h := congrArg (List.drop 1) (ih (by omega))
    rwa [c.lens_hit (hn k hk), List.drop_drop, List.drop_drop, List.drop_one, List.tail_cons,
      ← Nat.succ_mul] at h

/-! ## Strings and sets of separators -/

/-- A string is the separator. -/
def Sep.word [DecidableEq α] (ys : List α) (hne : ys ≠ []) : Sep α where
  hit xs := decide (ys <+: xs)
  width := ys.length
  width_pos := List.length_pos_iff.mpr hne
  width_le h := (of_decide_eq_true h).length_le

/-- The elements of a set are separators. -/
def Sep.among (p : α → Bool) : Sep α where
  hit xs := xs.head?.any p
  width := 1
  width_pos := Nat.one_pos
  width_le {xs} h := by
    cases xs with
    | nil => cases h
    | cons x xs => simp

/-- Fields depend on where separators stand. -/
theorem Sep.fields_congr {d : Sep α} (hh : ∀ xs, c.hit xs = d.hit xs) (hw : c.width = d.width)
    (xs : List α) : c.fields xs = d.fields xs := by
  obtain ⟨hit, width, hp, hl⟩ := c
  obtain ⟨hit', width', hp', hl'⟩ := d
  obtain rfl : hit = hit' := funext hh
  obtain rfl : width = width' := hw
  rfl

theorem intercalate_modifyHead (ys : List α) (x : α) {fs : List (List α)} (h : fs ≠ []) :
    ys.intercalate (fs.modifyHead (x :: ·)) = x :: ys.intercalate fs := by
  rcases fs with - | ⟨f, - | ⟨g, gs⟩⟩
  · exact absurd rfl h
  · simp
  · simp [List.intercalate_cons_cons]

/-- The fields joined by the separator are the list. -/
theorem fields_word_join [DecidableEq α] (hne : ys ≠ []) (xs : List α) :
    ys.intercalate ((Sep.word ys hne).fields xs) = xs := by
  induction hl : xs.length using Nat.strong_induction_on generalizing xs with
  | _ l ih =>
    subst hl
    by_cases h : (Sep.word ys hne).hit xs = true
    · obtain ⟨zs, rfl⟩ := of_decide_eq_true h
      have hp := (Sep.word ys hne).width_pos
      have e := ih zs.length (by rw [List.length_append]; exact Nat.lt_add_of_pos_left hp) zs rfl
      rw [Sep.fields_hit _ h, List.intercalate_cons_of_ne_nil (Sep.fields_ne_nil _),
        List.nil_append, show (ys ++ zs).drop (Sep.word ys hne).width = zs from List.drop_left, e]
    · cases xs with
      | nil => rfl
      | cons x xs =>
        rw [Sep.fields_cons _ (Bool.of_not_eq_true h),
          intercalate_modifyHead _ _ (Sep.fields_ne_nil _), ih _ (Nat.lt_succ_self _) xs rfl]

/-- With single elements as separators the fields are those of the library. -/
theorem fields_among (p : α → Bool) (xs : List α) :
    (Sep.among p).fields xs = xs.splitOnP p := by
  induction xs with
  | nil => simp
  | cons x xs ih =>
    by_cases h : p x = true
    · rw [Sep.fields_hit _ (show (Sep.among p).hit (x :: xs) = true from h),
        List.splitOnP_cons_eq_if_modifyHead, if_pos h, ← ih]
      rfl
    · rw [Sep.fields_cons _ (show (Sep.among p).hit (x :: xs) = false from
        Bool.of_not_eq_true h), List.splitOnP_cons_eq_if_modifyHead, if_neg h, ih]

end Separate
