import Vstr.Edit.Undo
import Vstr.Export.Coherent
import Vstr.Model.Grouping
import Mathlib.Data.List.SplitLengths

/-!
# Where the separators stand

The groups are counted from the right: their sizes are those of the locale, the last of
which repeats, until a size that ends grouping. The loop finds the first group first.
-/

namespace Vstr.Grouping

open Memory Splice

variable {grouping : List UInt8} {num len fuel k : Nat}

/-- The size of a group, counted from the right. -/
def groupSize (grouping : List UInt8) (i : Nat) : Nat :=
  (grouping.getD (min i (grouping.length - 1)) 0).toNat

/-- How many digits are in the last `k` groups. -/
def mark (grouping : List UInt8) : Nat → Nat
  | 0 => 0
  | k + 1 => mark grouping k + groupSize grouping k

/-- A separator belongs in front of the last `d` digits. -/
def IsMark (grouping : List UInt8) (d : Nat) : Prop :=
  ∃ k, (∀ i < k, groupSize grouping i < 127) ∧ mark grouping k = d

theorem mark_mono {j : Nat} (h : j ≤ k) : mark grouping j ≤ mark grouping k := by
  induction k with
  | zero =>
    obtain rfl : j = 0 := by omega
    exact Nat.le_refl _
  | succ k ih =>
    by_cases hj : j = k + 1
    · rw [hj]
    · have := ih (by omega)
      have : mark grouping (k + 1) = mark grouping k + groupSize grouping k := rfl
      omega

/-- The groups that the loop has counted. -/
theorem drop_min (hne : grouping ≠ []) (i : Nat) :
    ∃ g gs, grouping.drop (min i (grouping.length - 1)) = g :: gs ∧ g.toNat = groupSize grouping i ∧
      (if gs = [] then g :: gs else gs) = grouping.drop (min (i + 1) (grouping.length - 1)) := by
  have hpos := List.length_pos_iff.mpr hne
  have hlt : min i (grouping.length - 1) < grouping.length := by omega
  refine ⟨grouping[min i (grouping.length - 1)], grouping.drop (min i (grouping.length - 1) + 1),
    (List.drop_eq_getElem_cons hlt), ?_, ?_⟩
  · rw [groupSize, List.getD_eq_getElem?_getD, List.getElem?_eq_getElem hlt, Option.getD_some]
  · split
    · rename_i hnil
      rw [List.drop_eq_nil_iff] at hnil
      rw [← List.drop_eq_getElem_cons hlt]
      congr 1
      omega
    · rename_i hcons
      rw [List.drop_eq_nil_iff] at hcons
      congr 1
      omega

/-- The loop stops at the last mark in front of the number. -/
theorem groupingModLoop_spec (hne : grouping ≠ []) (hpos : ∀ i, 0 < groupSize grouping i)
    (hnum : num + 127 ≤ 2 ^ 32) {i : Nat} (hlt : mark grouping i < num)
    (hsz : ∀ j < i, groupSize grouping j < 127) (hf : num - mark grouping i < fuel) :
    ∃ k, groupingModLoop fuel (grouping.drop (min i (grouping.length - 1))) (mark grouping i) num =
        some (num - mark grouping k) ∧ (∀ j < k, groupSize grouping j < 127) ∧
      mark grouping k < num ∧ (127 ≤ groupSize grouping k ∨ num ≤ mark grouping (k + 1)) := by
  induction fuel generalizing i with
  | zero => omega
  | succ fuel ih =>
    obtain ⟨g, gs, hd, hg, hnext⟩ := drop_min hne i
    rw [hd, groupingModLoop, hg]
    by_cases hstep : groupSize grouping i < 127 ∧
        (mark grouping i + groupSize grouping i) % 2 ^ 32 < num
    · rw [if_pos hstep, hnext]
      have hmod : (mark grouping i + groupSize grouping i) % 2 ^ 32 = mark grouping (i + 1) :=
        Nat.mod_eq_of_lt (by omega)
      rw [hmod] at hstep ⊢
      refine ih hstep.2 (fun j hj => ?_) ?_
      · by_cases hji : j = i
        · rw [hji]
          exact hstep.1
        · exact hsz j (by omega)
      · have := hpos i
        have : mark grouping (i + 1) = mark grouping i + groupSize grouping i := rfl
        omega
    · rw [if_neg hstep]
      refine ⟨i, rfl, hsz, hlt, ?_⟩
      by_cases h127 : 127 ≤ groupSize grouping i
      · exact .inl h127
      · have hmod : (mark grouping i + groupSize grouping i) % 2 ^ 32 = mark grouping (i + 1) :=
          Nat.mod_eq_of_lt (by omega)
        rw [hmod] at hstep
        exact .inr (by omega)

/-- The first group is what is in front of the last mark. -/
theorem groupingMod_spec (hg : ∀ g ∈ grouping, g ≠ 0) (h0 : 0 < num) (hnum : num + 127 ≤ 2 ^ 32)
    (hf : num < fuel) : ∃ m, groupingMod fuel grouping num = some (num - m) ∧ m < num ∧
      (0 < m → IsMark grouping m) ∧ ∀ d, m < d → d < num → ¬ IsMark grouping d := by
  unfold groupingMod
  by_cases hne : grouping = []
  · subst hne
    have hz : ∀ k, mark [] k = 0 := by
      intro k
      induction k with
      | zero => rfl
      | succ k ih => simp [mark, ih, groupSize]
    refine ⟨0, by simp, h0, fun h => absurd h (Nat.lt_irrefl 0), ?_⟩
    rintro d hd - ⟨k, -, hk⟩
    rw [hz] at hk
    omega
  · rw [if_neg hne]
    have hpos : ∀ i, 0 < groupSize grouping i := by
      intro i
      obtain ⟨g, gs, hd, hg', -⟩ := drop_min hne i
      have hmem : g ∈ grouping := List.mem_of_mem_drop (by rw [hd]; exact List.mem_cons_self)
      have hn := hg g hmem
      rw [← hg']
      refine Nat.pos_of_ne_zero fun h => hn ?_
      exact UInt8.toNat_inj.mp h
    obtain ⟨k, hk, hsz, hlt, hstop⟩ := groupingModLoop_spec (i := 0) hne hpos hnum h0
      (fun j hj => absurd hj (Nat.not_lt_zero j)) hf
    rw [Nat.zero_min, List.drop_zero] at hk
    refine ⟨mark grouping k, hk, hlt, fun _ => ⟨k, hsz, rfl⟩, ?_⟩
    rintro d hmd hdn ⟨k', hsz', rfl⟩
    have hkk : k < k' := by
      by_contra hle
      have : mark grouping k' ≤ mark grouping k := mark_mono (by omega)
      omega
    have h127 := hsz' k hkk
    have : mark grouping (k + 1) ≤ mark grouping k' := mark_mono (by omega)
    omega

/-! ## All groups -/

/-- The groups of a number of `len` digits, from the left. -/
structure Groups (grouping : List UInt8) (len : Nat) (cs : List Nat) : Prop where
  /-- They are all of it. -/
  sum : cs.sum = len
  /-- None is empty. -/
  pos : ∀ c ∈ cs, 0 < c
  /-- Between two groups, and nowhere else, a separator belongs. -/
  marks : ∀ d, 0 < d → d < len → ((∃ a b, cs = a ++ b ∧ b.sum = d) ↔ IsMark grouping d)

/-- What the loops over the groups find, one group after the other. -/
inductive Chunks (grouping : List UInt8) : Nat → List Nat → Prop
  /-- No digits are left. -/
  | nil : Chunks grouping 0 []
  /-- The first group. -/
  | cons {len num : Nat} {cs : List Nat} (h0 : 0 < num) (hle : num ≤ len) (hlen : len < 2 ^ 32)
    (h : ∀ fuel, len < fuel → groupingMod fuel grouping len = some num)
    (rest : Chunks grouping (len - num) cs) : Chunks grouping len (num :: cs)

/-- The loops find the groups. -/
theorem exists_groups (hg : ∀ g ∈ grouping, g ≠ 0) (len : Nat) (hlen : len + 127 ≤ 2 ^ 32) :
    ∃ cs, Chunks grouping len cs ∧ Groups grouping len cs := by
  induction len using Nat.strongRecOn with
  | ind len ih =>
    by_cases h0 : len = 0
    · subst h0
      exact ⟨[], .nil, rfl, by simp, fun d h1 h2 => absurd h2 (by omega)⟩
    · obtain ⟨m, hm, hlt, hmark, hnone⟩ :=
        groupingMod_spec hg (Nat.pos_of_ne_zero h0) hlen (Nat.lt_succ_self len)
      obtain ⟨cs, hc, hgr⟩ := ih m hlt (by omega)
      refine ⟨(len - m) :: cs, .cons (by omega) (by omega) (by omega) ?_ ?_, ?_⟩
      · intro fuel hf
        obtain ⟨m', hm', hlt', hmark', hnone'⟩ :=
          groupingMod_spec hg (Nat.pos_of_ne_zero h0) hlen hf
        obtain rfl : m' = m := by
          rcases Nat.lt_trichotomy m' m with h | h | h
          · exact absurd (hmark (by omega)) (hnone' m h hlt)
          · exact h
          · exact absurd (hmark' (by omega)) (hnone m' h hlt')
        exact hm'
      · rw [Nat.sub_sub_self (Nat.le_of_lt hlt)]
        exact hc
      · refine ⟨by rw [List.sum_cons, hgr.sum]; omega, ?_, fun d hd1 hd2 => ?_⟩
        · intro c hcm
          rcases List.mem_cons.mp hcm with rfl | hcm
          · omega
          · exact hgr.pos c hcm
        · rcases Nat.lt_trichotomy d m with hdm | rfl | hdm
          · rw [← hgr.marks d hd1 hdm]
            constructor
            · rintro ⟨a, b, hab, hb⟩
              cases a with
              | nil =>
                rw [List.nil_append] at hab
                rw [← hab, List.sum_cons, hgr.sum] at hb
                omega
              | cons x a =>
                rw [List.cons_append, List.cons.injEq] at hab
                exact ⟨a, b, hab.2, hb⟩
            · rintro ⟨a, b, rfl, hb⟩
              exact ⟨(len - m) :: a, b, rfl, hb⟩
          · exact ⟨fun _ => hmark hd1, fun _ => ⟨[len - d], cs, rfl, hgr.sum⟩⟩
          · refine ⟨?_, fun h => absurd h (hnone d hdm hd2)⟩
            rintro ⟨a, b, hab, hb⟩
            cases a with
            | nil =>
              rw [List.nil_append] at hab
              rw [← hab, List.sum_cons, hgr.sum] at hb
              omega
            | cons x a =>
              rw [List.cons_append, List.cons.injEq] at hab
              have hle : b.sum ≤ cs.sum := by
                rw [hab.2, List.sum_append]
                omega
              rw [hgr.sum] at hle
              omega

/-! ## The loops -/

variable {cs : List Nat} {srch : LocaleNumBase} {sep : AddKind} {digits : Nat → AddKind}

/-- What the functions insert: the groups, separators between them. -/
def pieces (srch : LocaleNumBase) (sep : AddKind) (digits : Nat → AddKind) :
    Nat → List Nat → Bool → List (AddKind × Nat)
  | _, [], _ => []
  | off, c :: cs, done => (if done then [(sep, srch.sepLen)] else []) ++
    (digits off, c) :: pieces srch sep digits (off + c) cs true

/-- The loop inserts one group after the other. -/
theorem scAddGrpLoop_eq (hc : Chunks srch.grouping len cs) (hf : len + 1 < fuel) (s : St)
    (pos off : Nat) (done : Bool) :
    scAddGrpLoop srch sep digits fuel s pos off len done =
      some (addAll s pos (pieces srch sep digits off cs done)) := by
  induction hc generalizing fuel s pos off done with
  | nil =>
    obtain ⟨f, rfl⟩ : ∃ f, fuel = f + 1 := ⟨fuel - 1, by omega⟩
    rfl
  | @cons len num cs h0 hle hlen h rest ih =>
    obtain ⟨f, rfl⟩ : ∃ f, fuel = f + 1 := ⟨fuel - 1, by omega⟩
    rw [scAddGrpLoop, if_neg (by omega), Nat.mod_eq_of_lt hlen, h f (by omega)]
    dsimp only
    cases done with
    | false =>
      rw [if_neg (by simp), if_neg (by simp)]
      dsimp only
      change _ = some (addAll s pos ((digits off, num) ::
        pieces srch sep digits (off + num) cs true))
      rw [addAll]
      cases (digits off).add s pos num with
      | mk ok s₁ =>
        cases ok with
        | false => rfl
        | true => exact ih (by omega) s₁ (pos + num) (off + num) true
    | true =>
      rw [if_pos rfl, if_pos rfl]
      change _ = some (addAll s pos ((sep, srch.sepLen) :: (digits off, num) ::
        pieces srch sep digits (off + num) cs true))
      rw [addAll]
      cases sep.add s pos srch.sepLen with
      | mk ok s₁ =>
        cases ok with
        | false => rfl
        | true =>
          dsimp only
          rw [addAll]
          cases (digits off).add s₁ (pos + srch.sepLen) num with
          | mk ok s₂ =>
            cases ok with
            | false => rfl
            | true => exact ih (by omega) s₂ (pos + srch.sepLen + num) (off + num) true

/-- The length is that of the digits and of the separators between the groups. -/
theorem groupingNumSzLoop_eq {sepLen ret : Nat} (hc : Chunks grouping len cs) (hf : len + 1 < fuel)
    (done : Bool) : groupingNumSzLoop grouping sepLen fuel len ret done =
      some (ret + len + sepLen * (if done then cs.length else cs.length - 1)) := by
  induction hc generalizing fuel ret done with
  | nil =>
    obtain ⟨f, rfl⟩ : ∃ f, fuel = f + 1 := ⟨fuel - 1, by omega⟩
    simp [groupingNumSzLoop]
  | @cons len num cs h0 hle hlen h rest ih =>
    obtain ⟨f, rfl⟩ : ∃ f, fuel = f + 1 := ⟨fuel - 1, by omega⟩
    rw [groupingNumSzLoop, if_neg (by omega), Nat.mod_eq_of_lt hlen, h f (by omega)]
    dsimp only
    rw [ih (by omega), if_pos rfl]
    cases done with
    | false =>
      simp only [Bool.false_eq_true, if_false, List.length_cons, Nat.add_sub_cancel,
        Option.some.injEq]
      omega
    | true =>
      simp only [if_true, List.length_cons, Nat.mul_add, Nat.mul_one, Option.some.injEq]
      omega

/-! ## What is inserted -/

/-- The bytes of a number: its groups, separators between them. -/
def grouped (sep ds : List (Option UInt8)) (cs : List Nat) : List (Option UInt8) :=
  sep.intercalate (cs.splitLengths ds)

/-- The bytes of the pieces. -/
theorem pieceBytes_pieces {h : Heap} (ds : List (Option UInt8)) {off : Nat}
    (hd : ∀ off c, off + c ≤ ds.length → (digits off).src h c = (ds.drop off).take c)
    (hcs : off + cs.sum ≤ ds.length) :
    pieceBytes h (pieces srch sep digits off cs false) =
      grouped (sep.src h srch.sepLen) (ds.drop off) cs := by
  have behind : ∀ (cs : List Nat) (off : Nat), off + cs.sum ≤ ds.length →
      pieceBytes h (pieces srch sep digits off cs true) =
        (cs.splitLengths (ds.drop off)).flatMap (sep.src h srch.sepLen ++ ·) := by
    intro cs
    induction cs with
    | nil => exact fun _ _ => rfl
    | cons c cs ih =>
      intro off hle
      rw [List.sum_cons] at hle
      have hrest := ih (off + c) (by omega)
      simp only [pieces, pieceBytes, if_true, List.flatMap_append, List.flatMap_cons,
        List.flatMap_nil, List.append_nil, List.splitLengths_cons] at hrest ⊢
      rw [hrest, hd off c (by omega), List.drop_drop, List.append_assoc]
  have joined : ∀ (sep : List (Option UInt8)) (x : List (Option UInt8))
      (xs : List (List (Option UInt8))),
      sep.intercalate (x :: xs) = x ++ xs.flatMap (sep ++ ·) := by
    intro sep x xs
    induction xs generalizing x with
    | nil => rw [List.intercalate_singleton, List.flatMap_nil, List.append_nil]
    | cons y ys ih =>
      rw [List.intercalate_cons_cons, ih, List.flatMap_cons, List.append_assoc, List.append_assoc]
  cases cs with
  | nil => rfl
  | cons c cs =>
    rw [List.sum_cons] at hcs
    have hrest := behind cs (off + c) (by omega)
    rw [grouped, List.splitLengths_cons, joined, List.drop_drop, ← hrest, ← hd off c (by omega)]
    rfl

variable {E : Env} {P : Own} {s : St} {loc : List LocaleNumBase} {pos numBase : Nat} {buf : Addr}

/-- Digits are added in the groups of the locale, separators between them, or, when memory
runs out, not at all. -/
theorem add_grouped (u : Usable E P s) (hf : Fits s.base.nodes) (hpos : pos ≤ s.base.len)
    (hsrch : locNumSrch loc numBase = some srch) (hg : ∀ g ∈ srch.grouping, g ≠ 0)
    (hsep : 0 < E.ext srch.sepRef) (hbuf : Foreign E P buf.blk) (hlen : len + 127 ≤ 2 ^ 32)
    (hfuel : len + 1 < fuel) :
    ∃ cs ok s', scAddGrpbasenumBuf fuel loc s pos numBase buf len = some (ok, s') ∧
      Groups srch.grouping len cs ∧
      groupingNumSz fuel loc numBase len = some (len + srch.sepLen * (cs.length - 1)) ∧
      content s' = if ok then insertAfter (content s) pos
        (grouped ((read s.heap.mem (s.heap.refs srch.sepRef).ptr srch.sepLen).map some)
          ((read s.heap.mem buf len).map some) cs) else content s := by
  obtain ⟨cs, hc, hgr⟩ := exists_groups hg len hlen
  have ht := length_content u.sound.valid
  have hlive : 0 < (s.heap.refs srch.sepRef).ref := by
    have := u.sound.owned.refs srch.sepRef
    omega
  have hsepF : Foreign E P (s.heap.refs srch.sepRef).ptr.blk :=
    u.sound.owned.heap.foreign_ref hlive hsep
  generalize hps : pieces srch (.buf (s.heap.refs srch.sepRef).ptr)
    (fun off => .buf (buf.add off)) 0 cs false = ps
  have hcopy : ∀ p ∈ ps, ∃ a, p.1 = .buf a ∧ Foreign E P a.blk := by
    have all : ∀ (cs : List Nat) (off : Nat) (done : Bool),
        ∀ p ∈ pieces srch (.buf (s.heap.refs srch.sepRef).ptr) (fun off => .buf (buf.add off)) off
          cs done, ∃ a, p.1 = .buf a ∧ Foreign E P a.blk := by
      intro cs
      induction cs with
      | nil => exact fun _ _ p hp => by cases hp
      | cons c cs ih =>
        intro off done p hp
        rw [pieces, List.mem_append, List.mem_cons] at hp
        rcases hp with hp | rfl | hp
        · split at hp
          · rw [List.mem_singleton] at hp
            subst hp
            exact ⟨_, rfl, hsepF⟩
          · cases hp
        · exact ⟨buf.add off, rfl, hbuf⟩
        · exact ih (off + c) true p hp
    rw [← hps]
    exact all cs 0 false
  obtain ⟨hsuits, hmeans⟩ := (Partly.start u hf).copies hpos ht hcopy
  obtain ⟨P', xs, hp, hxs⟩ :=
    (Partly.start u hf).addAll hpos ht (fun r hr => u.ext_lt hr) hsuits
  obtain ⟨hdel, keeps⟩ := hp.undo hpos ht
  have hloop : scAddGrpLoop srch (.buf (s.heap.refs srch.sepRef).ptr)
      (fun off => .buf (buf.add off)) fuel s pos 0 len false = some (addAll s pos ps) := by
    rw [← hps]
    exact scAddGrpLoop_eq hc hfuel s pos 0 false
  have hsz : groupingNumSz fuel loc numBase len =
      some (len + srch.sepLen * (cs.length - 1)) := by
    unfold groupingNumSz
    rw [hsrch]
    dsimp only
    rw [groupingNumSzLoop_eq hc hfuel false, Nat.zero_add]
    rfl
  have hbytes : pieceBytes s.heap ps =
      grouped ((read s.heap.mem (s.heap.refs srch.sepRef).ptr srch.sepLen).map some)
        ((read s.heap.mem buf len).map some) cs := by
    rw [← hps, pieceBytes_pieces ((read s.heap.mem buf len).map some)]
    · rfl
    · intro off c hle
      rw [List.length_map, length_read] at hle
      change (read s.heap.mem (buf.add off) c).map some = _
      rw [← List.map_drop, ← List.map_take, drop_read, take_read _ _ (by omega)]
    · rw [List.length_map, length_read, hgr.sum, Nat.zero_add]
  unfold scAddGrpbasenumBuf
  rw [hsrch]
  unfold scAddGrp
  dsimp only
  rw [hloop]
  cases e : addAll s pos ps with
  | mk ok rest =>
    obtain ⟨p, s₁⟩ := rest
    rw [e] at hp hxs hdel keeps
    cases ok with
    | true =>
      refine ⟨cs, true, s₁, rfl, hgr, hsz, ?_⟩
      rw [if_pos rfl, hp.content, hxs rfl hmeans, List.nil_append, hbytes]
    | false => exact ⟨cs, false, _, rfl, hgr, hsz, keeps.success hdel⟩

/-- Memory with a separator and seven digits, `,1234567`, and a use of a reference to it. -/
def number : St :=
  let h := bareHeap (textMem [44, 49, 50, 51, 52, 53, 54, 55] 0) (textRef 1) 1 (bareConf 3 false)
    fun _ => true
  ⟨h, initBase h 0 true none⟩

/-- The caller has the separator. -/
def sepHeld : Env := ⟨0, fun r => if r = 0 then 1 else 0⟩

theorem usable_number : Usable sepHeld (bareOwn 1) number where
  sound := sound_initBase (heapOk_bare (userRefs_text 1)) (fun r => rfl) (by decide) (by decide)
    true none
  posOk := posOk_of_none rfl
  ptrSafe := fun m hm => by cases hm

/-- Groups of three. -/
def threes : List LocaleNumBase := [⟨0, [3], 0, 1⟩]

/-- `1,234,567`, unless memory runs out. -/
theorem add_grouped_number : ∃ cs ok s',
    scAddGrpbasenumBuf 20 threes number 0 10 ⟨.ext 0, 1⟩ 7 = some (ok, s') ∧ Groups [3] 7 cs ∧
      groupingNumSz 20 threes 10 7 = some (7 + 1 * (cs.length - 1)) ∧
      content s' = if ok then insertAfter (content number) 0
        (grouped ((read number.heap.mem (number.heap.refs 0).ptr 1).map some)
          ((read number.heap.mem ⟨.ext 0, 1⟩ 7).map some) cs) else content number := by
  have hsrch : locNumSrch threes 10 = some ⟨0, [3], 0, 1⟩ := rfl
  have hnz : ∀ g ∈ [(3 : UInt8)], g ≠ 0 := by
    intro g hg
    rw [List.mem_singleton.mp hg]
    decide
  exact add_grouped usable_number (fun m hm => by cases hm) (Nat.zero_le _) hsrch hnz
    (show 0 < sepHeld.ext 0 by decide) (.inl rfl) (show 7 + 127 ≤ 2 ^ 32 by decide)
    (show 7 + 1 < 20 by decide)

end Vstr.Grouping
