import Vstr.Lib.Separate
import Vstr.Cmp.Order
import Vstr.Srch.Find
import Vstr.Srch.Span
import Vstr.Parse.Split

/-!
# Finding separators

What the two ways to find separators answer, in terms of the fields of what is left of the
slice: where the first field ends, and how many empty fields stand at the beginning.
-/

namespace Vstr

open Splice Query Occur Separate

variable {E : Env} {P : Own} {s : St} {pos len fuel num more : Nat} {xs : List (Option UInt8)}
  {buf : Buf} {chrs : Option (List UInt8)}

/-- Where the first field ends, or zero when there is no other. -/
def foundAt (pos : Nat) : List Nat → Nat
  | n :: _ :: _ => pos + n
  | _ => 0

/-- The searches of `seps` find the separators `c`. -/
structure Seps.Finds (seps : Seps) (c : Sep (Option UInt8)) : Prop where
  /-- The length of a separator. -/
  len : seps.len = c.width
  /-- The next separator. -/
  srch : ∀ {E P s pos len xs}, Window E P s pos len xs →
    Yields Reads (seps.srch pos len) s (foundAt pos (c.lens xs))

/-- Among fields of these lengths `seps` tells whether nothing but separators is left. -/
structure Seps.Tells (seps : Seps) (c : Sep (Option UInt8)) (ns : List Nat) : Prop where
  /-- Separators in a row are counted in an `unsigned int`. -/
  nullEnd : ∀ {E P s pos len xs}, Window E P s pos len xs → c.hit xs = true →
    (∃ i, c.lens xs = ns.drop i) →
    Yields Reads (seps.nullEnd pos len) s (some (bare (c.lens xs), lead (c.lens xs) % 2 ^ 32))

theorem Seps.Tells.drop {seps : Seps} {c : Sep (Option UInt8)} {ns : List Nat}
    (h : seps.Tells c ns) (k : Nat) : seps.Tells c (ns.drop k) := by
  refine ⟨fun w hit ⟨i, e⟩ => h.nullEnd w hit ⟨k + i, ?_⟩⟩
  rwa [List.drop_drop] at e

/-- Empty fields in a row, the last field apart, are fewer than an `unsigned int` counts. -/
def Short (ns : List Nat) : Prop := ∀ i, lead (ns.drop i) < 2 ^ 32

theorem short_of_length {ns : List Nat} (h : ns.length ≤ 8) : Short ns := fun i => by
  refine (lead_le_length _).trans_lt (Nat.lt_of_le_of_lt ?_ (show 8 < 2 ^ 32 by decide))
  rw [List.length_drop]
  omega

/-- The same of those with something behind them. -/
def ShortInside (ns : List Nat) : Prop :=
  ∀ i, bare (ns.drop i) = false → lead (ns.drop i) < 2 ^ 32

theorem ShortInside.drop {ns : List Nat} (h : ShortInside ns) (k : Nat) :
    ShortInside (ns.drop k) := fun i => by
  rw [List.drop_drop]
  exact h _

theorem Short.inside {ns : List Nat} (h : Short ns) : ShortInside ns := fun i _ => h i

/-- The same of those at the end. -/
def ShortEnd (ns : List Nat) : Prop :=
  ∀ i, bare (ns.drop i) = true → lead (ns.drop i) < 2 ^ 32

theorem short_iff {ns : List Nat} : Short ns ↔ ShortInside ns ∧ ShortEnd ns := by
  refine ⟨fun h => ⟨h.inside, fun i _ => h i⟩, fun ⟨h1, h2⟩ i => ?_⟩
  cases hb : bare (ns.drop i) with
  | true => exact h2 i hb
  | false => exact h1 i hb

/-- Behind a field, and behind an empty field with something behind it. -/
theorem shortEnd_cons {n : Nat} {ns : List Nat} (hb : bare (n :: ns) = false) :
    ShortEnd (n :: ns) ↔ ShortEnd ns := by
  constructor
  · exact fun h i => h (i + 1)
  · rintro h (- | i) hi
    · exact absurd (hb.symm.trans hi) Bool.false_ne_true
    · exact h i hi

/-- Of nothing but separators. -/
theorem shortEnd_bare {ns : List Nat} (hb : bare ns = true) : ShortEnd ns ↔ lead ns < 2 ^ 32 := by
  refine ⟨fun h => h 0 hb, fun h i _ => ?_⟩
  rcases Nat.lt_or_ge (lead ns) i with hi | hi
  · by_cases hne : ns = []
    · subst hne
      rw [List.drop_nil]
      exact h
    · have hl := (@lead_bare 0 ns hne hb).1
      have hlt := lead_le_length (ns.drop i)
      rw [List.length_drop] at hlt
      omega
  · rw [lead_drop hi]
    omega

/-- What a search for the first separator says about the fields. -/
theorem foundAt_lens (c : Sep (Option UInt8)) {r : Nat}
    (h : (r = 0 ∧ ∀ i, c.hit (xs.drop i) = false) ∨ ∃ i, r = pos + i ∧ i ≤ xs.length ∧
      c.hit (xs.drop i) = true ∧ ∀ j < i, c.hit (xs.drop j) = false) :
    foundAt pos (c.lens xs) = r := by
  rcases h with ⟨rfl, hn⟩ | ⟨i, rfl, hl, hi, hn⟩
  · rw [c.lens_none hn]
    rfl
  · rw [c.lens_first hi hl hn]
    obtain ⟨n, ns, e⟩ := List.exists_cons_of_ne_nil c.lens_ne_nil
    rw [e]
    rfl

/-! ## A string of separators -/

/-- The separator of `vstr_split_buf`. -/
def Buf.sep (buf : Buf) (hb : buf.len ≠ 0) : Sep (Option UInt8) :=
  .word buf.contents (Buf.contents_ne_nil hb)

theorem Buf.width_sep (hb : buf.len ≠ 0) : (buf.sep hb).width = buf.len := Buf.length_contents buf

/-- `vstr_cmp_buf_eq`. -/
theorem Window.cmpAnyEq (w : Window E P s pos buf.len xs) :
    Yields Reads (cmpAnyBufEq pos buf.len buf) s (decide (xs = buf.contents)) := by
  have h : cmpAnyBufEq pos buf.len buf = do return (← cmpAnyBuf pos buf.len buf) == .eq := by
    cases buf with
    | bytes bs => exact (if_pos rfl).trans (by rw [cmpBuf_eq_cmpAnyBuf])
    | null n => exact if_pos rfl
  rw [h]
  refine (cmpAnyBuf_yields w buf).bind fun t r => ?_
  have e : (compare xs buf.contents == .eq) = decide (xs = buf.contents) := by
    rw [Bool.eq_iff_iff, beq_iff_eq, Std.LawfulEqCmp.compare_eq_iff_eq, decide_eq_true_iff]
  rw [← e]
  exact .pure _ _

/-- The separator stands at the beginning if the first bytes are those of the buffer. -/
theorem Buf.sep_hit (hb : buf.len ≠ 0) (xs : List (Option UInt8)) :
    (buf.sep hb).hit xs = decide (xs.take buf.len = buf.contents) := by
  rw [Bool.eq_iff_iff, decide_eq_true_iff]
  change decide (buf.contents <+: xs) = true ↔ _
  rw [decide_eq_true_iff, List.prefix_iff_eq_take, Buf.length_contents]
  exact eq_comm

/-- The loop over separators, which counts them as an `unsigned int` does. -/
theorem Window.nullRun (hb : buf.len ≠ 0) (w : Window E P s pos len xs) (hfuel : len < fuel)
    (hn : num < 2 ^ 32) :
    Yields Reads (splitNullRun buf fuel pos len num) s
      (some (bare ((buf.sep hb).lens xs), (num + lead ((buf.sep hb).lens xs)) % 2 ^ 32)) := by
  induction fuel generalizing s pos len num xs with
  | zero => omega
  | succ fuel ih =>
    have hl := w.length
    rw [splitNullRun]
    by_cases hge : len ≥ buf.len
    · rw [if_pos hge]
      refine (w.take hge).cmpAnyEq.bind fun t r => ?_
      rw [← Buf.sep_hit hb]
      by_cases h : (buf.sep hb).hit xs = true
      · rw [if_pos h, Sep.lens_hit _ h, lead_cons_zero (Sep.lens_ne_nil _), bare_cons_zero,
          Buf.width_sep hb]
        have hr := ih ((w.reads r).drop hge) (by omega)
          (Nat.mod_lt (num + 1) (Nat.two_pow_pos 32))
        rwa [Nat.mod_add_mod, Nat.add_right_comm, Nat.add_assoc] at hr
      · have h' := Bool.of_not_eq_true h
        obtain ⟨n, ns, e⟩ := Sep.lens_not_hit _ h' (List.ne_nil_of_length_pos (by omega))
        rw [if_neg h, e, bare_cons_succ, lead_cons_succ, Nat.add_zero, Nat.mod_eq_of_lt hn]
        exact .pure _ _
    · rw [if_neg hge]
      have h' : (buf.sep hb).hit xs = false := by
        rw [← Bool.not_eq_true]
        intro h
        have := Sep.width_le _ h
        rw [Buf.width_sep hb] at this
        omega
      cases xs with
      | nil =>
        rw [Sep.lens_nil, decide_eq_true (show len = 0 from hl.symm),
          show num + lead [0] = num from rfl, Nat.mod_eq_of_lt hn]
        exact .pure _ _
      | cons x xs =>
        obtain ⟨n, ns, e⟩ := Sep.lens_not_hit _ h' (List.cons_ne_nil x xs)
        rw [List.length_cons] at hl
        rw [e, bare_cons_succ, lead_cons_succ, Nat.add_zero, Nat.mod_eq_of_lt hn,
          decide_eq_false (show ¬ len = 0 by omega)]
        exact .pure _ _

/-- `vstr__split_buf_null_end`. -/
theorem Window.bufNullEnd (hb : buf.len ≠ 0) (w : Window E P s pos len xs)
    (h : (buf.sep hb).hit xs = true) :
    Yields Reads (splitBufNullEnd more pos len buf) s
      (some (bare ((buf.sep hb).lens xs), lead ((buf.sep hb).lens xs) % 2 ^ 32)) := by
  have hl := w.length
  have hw := Sep.width_le _ h
  rw [Buf.width_sep hb] at hw
  rw [Sep.lens_hit _ h, lead_cons_zero (Sep.lens_ne_nil _), bare_cons_zero, Buf.width_sep hb,
    splitBufNullEnd]
  by_cases he : len = buf.len
  · rw [if_pos he, List.drop_of_length_le (by omega), Sep.lens_nil]
    exact .pure _ _
  · rw [if_neg he, Nat.add_comm (lead _) 1]
    exact (w.drop (by omega)).nullRun hb (by omega) (by decide)

/-- The separators of `vstr_split_buf` are found. -/
theorem bufSeps_finds (hb : buf.len ≠ 0) : (bufSeps more buf).Finds (buf.sep hb) where
  len := (Buf.width_sep hb).symm
  srch {E P s pos len xs} w := by
    obtain ⟨hf, hr⟩ := w.bufFirst hb
    refine ⟨?_, hr⟩
    refine (foundAt_lens _ ?_).symm
    rcases hf with ⟨h0, hn⟩ | ⟨i, hi, hit, hmin⟩
    · exact .inl ⟨h0, fun j => decide_eq_false (hn j)⟩
    · have hle := le_of_prefixed hit (Buf.contents_ne_nil hb)
      refine .inr ⟨i, hi, by omega, decide_eq_true hit, fun j hj => decide_eq_false fun hp => ?_⟩
      exact absurd (hmin hp) (by omega)

/-- They are counted. -/
theorem bufSeps_tells (hb : buf.len ≠ 0) (ns : List Nat) :
    (bufSeps more buf).Tells (buf.sep hb) ns where
  nullEnd w h _ := w.bufNullEnd hb h

/-! ## A set of separators -/

/-- The separators of `vstr_split_chrs`. -/
def chrsSep (chrs : Option (List UInt8)) : Sep (Option UInt8) := .among (inChrs chrs)

/-- The characters up to the first separator. -/
theorem takeWhile_first {α : Type} (p : α → Bool) (xs : List α) :
    (xs.takeWhile fun x => !p x).length ≤ xs.length ∧
      (∀ j < (xs.takeWhile fun x => !p x).length, (Sep.among p).hit (xs.drop j) = false) ∧
      ((xs.takeWhile fun x => !p x).length ≠ xs.length →
        (Sep.among p).hit (xs.drop (xs.takeWhile fun x => !p x).length) = true) := by
  induction xs with
  | nil => exact ⟨Nat.le_refl _, fun j hj => absurd hj (Nat.not_lt_zero j), fun h => absurd rfl h⟩
  | cons x xs ih =>
    rw [List.takeWhile_cons]
    by_cases hx : p x = true
    · rw [if_neg (by simp [hx])]
      exact ⟨Nat.zero_le _, fun j hj => absurd hj (Nat.not_lt_zero j), fun _ => hx⟩
    · obtain ⟨h1, h2, h3⟩ := ih
      rw [if_pos (by simp [hx])]
      refine ⟨Nat.succ_le_succ h1, ?_, fun hne => h3 fun e => hne (congrArg Nat.succ e)⟩
      rintro (- | j) hj
      · exact Bool.of_not_eq_true hx
      · exact h2 j (Nat.lt_of_succ_lt_succ hj)

/-- The separators at the beginning are a span. -/
theorem takeWhile_run {α : Type} (p : α → Bool) (xs : List α) :
    lead ((Sep.among p).lens xs) = (xs.takeWhile p).length ∧
      bare ((Sep.among p).lens xs) = decide ((xs.takeWhile p).length = xs.length) := by
  induction xs with
  | nil => exact ⟨rfl, rfl⟩
  | cons x xs ih =>
    by_cases hx : p x = true
    · rw [Sep.lens_hit _ (show (Sep.among p).hit (x :: xs) = true from hx),
        lead_cons_zero (Sep.lens_ne_nil _), bare_cons_zero, List.takeWhile_cons, if_pos hx,
        show (x :: xs).drop (Sep.among p).width = xs from rfl, ih.1, ih.2]
      simp
    · obtain ⟨n, ns, e⟩ := Sep.lens_not_hit (Sep.among p)
        (show (Sep.among p).hit (x :: xs) = false from Bool.of_not_eq_true hx)
        (List.cons_ne_nil x xs)
      rw [e, List.takeWhile_cons, if_neg hx]
      simp

/-- `vstr_srch_chrs_fwd`. -/
theorem Window.srchChrs (w : Window E P s pos len xs) (chrs : Option (List UInt8)) :
    Yields Reads (srchChrsFwd pos len chrs) s (foundAt pos ((chrsSep chrs).lens xs)) := by
  refine (w.yields_cspnChrsFwd chrs).bind fun t r => ?_
  obtain ⟨h1, h2, h3⟩ := takeWhile_first (inChrs chrs) xs
  rw [← w.length]
  by_cases h : (xs.takeWhile fun x => !inChrs chrs x).length = xs.length
  · rw [if_pos h, foundAt_lens (r := 0) (chrsSep chrs) (.inl ⟨rfl, fun j => ?_⟩)]
    · exact .pure _ _
    · by_cases hj : j < xs.length
      · exact h2 j (h ▸ hj)
      · rw [List.drop_of_length_le (by omega)]
        exact Sep.hit_nil _
  · rw [if_neg h, foundAt_lens (r := pos + (xs.takeWhile fun x => !inChrs chrs x).length)
      (chrsSep chrs) (.inr ⟨_, rfl, h1, h3 h, h2⟩)]
    exact .pure _ _

/-- The separators of `vstr_split_chrs` are found. -/
theorem chrsSeps_finds (chrs : Option (List UInt8)) : (chrsSeps chrs).Finds (chrsSep chrs) where
  len := rfl
  srch w := w.srchChrs chrs

/-- The span of separators, cut to an `unsigned int`. -/
theorem Window.chrsNullEnd (w : Window E P s pos len xs) (chrs : Option (List UInt8)) :
    Yields Reads ((chrsSeps chrs).nullEnd pos len) s
      (some (bare ((chrsSep chrs).lens xs) && decide (lead ((chrsSep chrs).lens xs) < 2 ^ 32),
        lead ((chrsSep chrs).lens xs) % 2 ^ 32)) := by
  obtain ⟨h1, h2⟩ := takeWhile_run (inChrs chrs) xs
  have hl := w.length
  have hle := (List.takeWhile_prefix (l := xs) (inChrs chrs)).length_le
  have hmod := Nat.mod_le (xs.takeWhile (inChrs chrs)).length (2 ^ 32)
  have hlt := Nat.mod_lt (xs.takeWhile (inChrs chrs)).length (Nat.two_pow_pos 32)
  refine (w.yields_spnChrsFwd chrs).bind fun t r => ?_
  have e : decide ((xs.takeWhile (inChrs chrs)).length % 2 ^ 32 = len) =
      (decide ((xs.takeWhile (inChrs chrs)).length = xs.length) &&
        decide ((xs.takeWhile (inChrs chrs)).length < 2 ^ 32)) := by
    rw [Bool.eq_iff_iff, Bool.and_eq_true, decide_eq_true_iff, decide_eq_true_iff,
      decide_eq_true_iff]
    constructor
    · intro h
      omega
    · rintro ⟨h, h'⟩
      rw [Nat.mod_eq_of_lt h']
      omega
  rw [chrsSep, h2, h1, ← e]
  exact .pure _ _

/-- They are counted where they are fewer. -/
theorem chrsSeps_tells (chrs : Option (List UInt8)) {ns : List Nat} (hs : Short ns) :
    (chrsSeps chrs).Tells (chrsSep chrs) ns := by
  refine ⟨fun w _ ⟨i, e⟩ => ?_⟩
  have h := w.chrsNullEnd chrs
  have hi := hs i
  rw [← e] at hi
  rwa [decide_eq_true hi, Bool.and_true] at h

end Vstr
