import Vstr.Srch.FindRev

/-!
# Searching without case

The searches of `vstr_srch_case.c` find the first and the last place where the bytes are those
of the needle but for the case of ASCII letters.
-/

namespace Vstr

open Memory Splice Query Lex Occur

variable {E : Env} {P : Own} {s : St} {h : Heap} {pos len : Nat} {xs rest : List (Option UInt8)}
  {as : List (Option UInt8)} {bs str : List UInt8} {its : List Iter} {it : Iter} {p : Addr}
  {fold : UInt8 → UInt8} {c : UInt8}

/-! ## Letters -/

/-- Bytes are one in upper case if they are one in lower case. -/
theorem toAsciiUpper_eq_iff (a b : UInt8) :
    toAsciiUpper a = toAsciiUpper b ↔ toAsciiLower a = toAsciiLower b := by
  grind [toAsciiUpper, toAsciiLower]

/-- A byte that is not a letter is one with itself only. -/
theorem toAsciiLower_eq_iff (hc : isAsciiAlpha c = false) (a : UInt8) :
    toAsciiLower a = toAsciiLower c ↔ a = c := by
  simp only [isAsciiAlpha, decide_eq_false_iff_not] at hc
  grind [toAsciiLower]

/-- A letter is one with two bytes. -/
theorem toAsciiLower_eq_iff_alpha (hc : isAsciiAlpha c = true) (a : UInt8) :
    toAsciiLower a = toAsciiLower c ↔
      a = c ∨ a = if 0x61 ≤ c ∧ c ≤ 0x7A then toAsciiUpper c else toAsciiLower c := by
  simp only [isAsciiAlpha, decide_eq_true_iff] at hc
  grind [toAsciiLower, toAsciiUpper]

/-- Places of a byte in folded bytes. -/
theorem singleton_prefix_folded {i : Nat} (hf : ∀ a, fold a = fold c ↔ a = c) :
    folded fold [some c] <+: (folded fold xs).drop i ↔ [some c] <+: xs.drop i := by
  change [some (fold c)] <+: _ ↔ _
  rw [singleton_prefix_drop, singleton_prefix_drop, folded, List.getElem?_map]
  rcases xs[i]? with - | - | a
  · simp
  · simp
  · simp [hf]

/-- What is compared but for the case begins with the buffer. -/
theorem compare_take_eq_iff {ys zs : List (Option UInt8)} :
    compare (folded fold (zs.take ys.length)) (folded fold ys) = .eq ↔
      folded fold ys <+: folded fold zs := by
  rw [Std.LawfulEqCmp.compare_eq_iff_eq, List.prefix_iff_eq_take, length_folded,
    folded_take, eq_comm]

/-! ## Bytes -/

/-- The loop of `vstr_srch_case_chr_fwd`. -/
theorem srchCaseChrLoop_first {zs : List (Option UInt8)} (hl : as.length + zs.length = len)
    (hw : Walk h its zs) :
    First (folded toAsciiLower [some c]) (folded toAsciiLower zs) (pos + as.length)
      (srchCaseChrLoop h pos len (toAsciiUpper c) its) := by
  induction its generalizing as zs with
  | nil =>
    cases hw
    exact .short (by simp [folded]) (by simp [folded])
  | cons it its ih =>
    have hlen := hw.length_eq
    have htake := hw.take (Nat.le_refl it.len)
    have hnext : (∀ i < it.len, ¬ folded toAsciiLower [some c] <+:
          (folded toAsciiLower zs).drop i) →
        First (folded toAsciiLower [some c]) (folded toAsciiLower zs) (pos + as.length)
          (srchCaseChrLoop h pos len (toAsciiUpper c) its) := by
      intro hn
      have hd := hw.drop (Nat.le_refl it.len)
      rw [iterDrop_all (Nat.le_refl _)] at hd
      have hf := @ih (as ++ zs.take it.len) _ (by
        rw [List.length_append, List.length_take, List.length_drop]
        omega) hd
      rw [List.length_append, List.length_take, Nat.min_eq_left (by omega), ← Nat.add_assoc,
        folded_drop] at hf
      exact hf.behind hn
    have hget : ∀ i < it.len, folded toAsciiLower [some c] <+: (folded toAsciiLower zs).drop i ↔
        ∃ a, (zs.take it.len)[i]? = some (some a) ∧ toAsciiLower a = toAsciiLower c := by
      intro i hi
      change [some (toAsciiLower c)] <+: _ ↔ _
      rw [singleton_prefix_drop, folded, List.getElem?_map, List.getElem?_take_of_lt hi]
      rcases zs[i]? with - | - | a <;> simp
    rw [srchCaseChrLoop]
    cases hptr : it.ptr h with
    | none =>
      refine hnext fun i hi hpre => ?_
      obtain ⟨a, ha, -⟩ := (hget i hi).1 hpre
      rw [htake, hptr, List.getElem?_replicate, if_pos hi] at ha
      cases ha
    | some p =>
      rw [hptr] at htake
      dsimp only at htake ⊢
      cases hf : (read h.mem p it.len).findIdx? fun a => toAsciiUpper a = toAsciiUpper c with
      | none =>
        refine hnext fun i hi hpre => ?_
        obtain ⟨a, ha, hac⟩ := (hget i hi).1 hpre
        rw [htake, List.getElem?_map, Option.map_eq_some_iff] at ha
        obtain ⟨a, ha, ⟨⟩⟩ := ha
        have hm := List.findIdx?_eq_none_iff.1 hf a (List.mem_of_getElem? ha)
        exact of_decide_eq_false hm ((toAsciiUpper_eq_iff a c).2 hac)
      | some count =>
        obtain ⟨hlt, hc, hn⟩ := List.findIdx?_eq_some_iff_getElem.1 hf
        rw [length_read] at hlt
        have hplace : ∀ i < it.len, folded toAsciiLower [some c] <+:
            (folded toAsciiLower zs).drop i ↔ ∃ a, (read h.mem p it.len)[i]? = some a ∧
              toAsciiUpper a = toAsciiUpper c := by
          intro i hi
          rw [hget i hi, htake, List.getElem?_map]
          cases (read h.mem p it.len)[i]? with
          | none => simp
          | some a => simp [toAsciiUpper_eq_iff]
        have hpos : it.pos pos len = pos + as.length := by
          unfold Iter.pos
          omega
        dsimp only
        rw [hpos]
        refine .inr ⟨count, rfl, ?_, fun i hi => ?_⟩
        · exact (hplace count hlt).2 ⟨_, List.getElem?_eq_getElem _, of_decide_eq_true hc⟩
        · by_contra hic
          obtain ⟨a, ha, hac⟩ := (hplace i (by omega)).1 hi
          obtain ⟨hi', rfl⟩ := List.getElem?_eq_some_iff.1 ha
          exact hn i (by omega) (decide_eq_true hac)

/-- `vstr_srch_case_chr_fwd`. -/
theorem Window.caseChrFirst (w : Window E P s pos len xs) (c : UInt8) :
    Ensures Reads (srchCaseChrFwd pos len c) s
      (First (folded toAsciiLower [some c]) (folded toAsciiLower xs) pos) := by
  change First _ _ _ (srchCaseChrFwd pos len c s).1 ∧ Reads s (srchCaseChrFwd pos len c s).2
  rw [srchCaseChrFwd]
  cases hc : isAsciiAlpha c with
  | false =>
    rw [if_pos (by simp)]
    obtain ⟨hf, hr⟩ := w.chrFirst c
    exact ⟨(First.congr fun i => singleton_prefix_folded (toAsciiLower_eq_iff hc)).2 hf, hr⟩
  | true =>
    rw [if_neg (by simp)]
    rcases w.walk_cases with ⟨rfl, e⟩ | ⟨it, t, e, hr, hw⟩
    · rw [e]
      exact ⟨.short (by simp [folded]) (by simp [folded]), Std.Refl.refl s⟩
    · rw [e]
      dsimp only
      rw [hr.heap]
      exact ⟨@srchCaseChrLoop_first _ _ _ [] _ _ _ ((Nat.zero_add _).trans w.length) hw, hr⟩

/-- The last place of a byte, from the bytes behind it. -/
theorem last_of_rtakeWhile {α β : Type} {f : α → β} {q : α → Bool} {y : β}
    (hf : ∀ x, q x = true ↔ f x ≠ y) (xs : List α) :
    Last [y] (xs.map f) pos (if (xs.rtakeWhile q).length = xs.length then 0
      else pos + (xs.length - (xs.rtakeWhile q).length - 1)) := by
  induction xs using List.reverseRecOn with
  | nil => exact last_of_not_mem List.not_mem_nil
  | append_singleton xs x ih =>
    rw [List.map_append, List.length_append]
    by_cases hx : q x = true
    · rw [List.rtakeWhile_concat_pos _ _ _ hx, List.length_append]
      have e : (if (xs.rtakeWhile q).length + [x].length = xs.length + [x].length then 0
          else pos + (xs.length + [x].length - ((xs.rtakeWhile q).length + [x].length) - 1)) =
          if (xs.rtakeWhile q).length = xs.length then 0
          else pos + (xs.length - (xs.rtakeWhile q).length - 1) := by
        simp only [Nat.add_right_cancel_iff, Nat.add_sub_add_right]
      rw [e]
      exact last_append ih (by simpa using ((hf x).1 hx).symm)
    · rw [List.rtakeWhile_concat_neg _ _ _ hx, if_neg (by simp)]
      obtain rfl : f x = y := by
        by_contra hne
        exact hx ((hf x).2 hne)
      have h := @last_of_split _ (xs.map f) _ pos (f x) List.not_mem_nil
      rw [List.length_map] at h
      exact h

/-- `vstr_srch_case_chr_rev`. -/
theorem Window.caseChrRev (w : Window E P s pos len xs) (pk : PosOk True s.base) (iv : IovecOk s)
    (c : UInt8) : Ensures Reads (srchCaseChrRev pos len c) s
      (Last (folded toAsciiLower [some c]) (folded toAsciiLower xs) pos) := by
  unfold srchCaseChrRev
  cases hc : isAsciiAlpha c with
  | false =>
    rw [if_pos (by simp)]
    refine (w.chrRev pk iv c).mono fun r hr => ?_
    exact (Last.congr fun i => singleton_prefix_folded (toAsciiLower_eq_iff hc)).2 hr
  | true =>
    rw [if_neg (by simp)]
    have hy := w.yields_cspnChrsRev pk iv
      (some [c, if 0x61 ≤ c ∧ c ≤ 0x7A then toAsciiUpper c else toAsciiLower c])
    unfold srchChrsRev
    generalize hd : (if 0x61 ≤ c ∧ c ≤ 0x7A then toAsciiUpper c else toAsciiLower c) = d at hy
    have hf : ∀ x : Option UInt8, (!inChrs (some [c, d]) x) = true ↔
        x.map toAsciiLower ≠ some (toAsciiLower c) := by
      intro x
      cases x with
      | none => simp [inChrs]
      | some a =>
        rw [Option.map_some, ne_eq, Option.some_inj, toAsciiLower_eq_iff_alpha hc, hd]
        simp [inChrs]
    have hlast := @last_of_rtakeWhile pos _ _ _ _ _ hf xs
    refine (hy.ensures (Q := (· = _)) rfl).bind ?_
    rintro _ t - rfl
    rw [w.length] at hlast
    split
    · next hn =>
      rw [if_pos hn] at hlast
      exact .pure t hlast
    · next hn =>
      rw [if_neg hn] at hlast
      exact .pure t hlast

/-! ## Buffers -/

/-- The search of `vstr_srch_case_buf_fwd` in one node. -/
theorem srchCaseBufNode_ensures {cs : List UInt8} {fuel : Nat}
    (n : InNode E P s pos len as bs rest it p) (hf : it.len < fuel) :
    Ensures Reads (srchCaseBufNode pos len (c :: cs) (toAsciiUpper c) fuel it) s
      (Among (folded toAsciiLower ((c :: cs).map some)) (folded toAsciiLower (bs.map some ++ rest))
        (pos + as.length) it.len) := by
  induction fuel generalizing s it p as bs with
  | zero => omega
  | succ fuel ih =>
    have hbl := n.length
    have hrl := n.left
    change Among _ _ _ _ (srchCaseBufNode pos len (c :: cs) _ (fuel + 1) it s).1 ∧
      Reads s (srchCaseBufNode pos len (c :: cs) _ (fuel + 1) it s).2
    rw [srchCaseBufNode]
    dsimp only
    by_cases hshort : it.len = 0 ∨ it.len + it.remaining < (c :: cs).length
    · rw [if_pos hshort]
      refine ⟨n.short toAsciiLower (by simp [folded]) ?_, Std.Refl.refl s⟩
      rw [length_folded, List.length_map]
      exact hshort.symm
    rw [if_neg hshort, n.ptr]
    dsimp only
    have hnext : ∀ t, Reads s t →
        ¬ folded toAsciiLower ((c :: cs).map some) <+:
          folded toAsciiLower (bs.map some ++ rest) →
        Ensures Reads (srchCaseBufNode pos len (c :: cs) (toAsciiUpper c) fuel
          { it with off := it.off + 1, len := it.len - 1 }) t
          (Among (folded toAsciiLower ((c :: cs).map some))
            (folded toAsciiLower (bs.map some ++ rest)) (pos + as.length) it.len) := by
      intro t hr hn
      refine (ih (n.advance hr 1) (by dsimp only; omega)).mono fun o ho => ?_
      refine n.among toAsciiLower (by omega) ho fun i hi => ?_
      obtain rfl : i = 0 := by omega
      exact hn
    by_cases hhead : toAsciiUpper (s.heap.byte p) ≠ toAsciiUpper c
    · rw [if_pos hhead]
      refine hnext s (Std.Refl.refl s) fun hp => hhead ?_
      obtain ⟨k, hk⟩ : ∃ k, it.len = k + 1 := ⟨it.len - 1, by omega⟩
      have hbs : bs = s.heap.byte p :: read s.heap.mem (p.add 1) k := by
        rw [← n.bytes, hk, Nat.add_comm k 1, read_add]
        rfl
      rw [hbs] at hp
      have he := (List.cons_prefix_cons.1 hp).1
      exact (toAsciiUpper_eq_iff _ _).2 (Option.some.inj he).symm
    · rw [if_neg hhead, n.pos_eq]
      have hle : (c :: cs).length ≤ (bs.map some ++ rest).length := by
        rw [List.length_append, List.length_map]
        omega
      obtain ⟨hc, hr⟩ := cmpCaseBuf_yields (n.window.part hle) (.bytes (c :: cs))
      unfold StateT.run at hc hr
      generalize cmpCaseBuf (pos + as.length) (c :: cs).length (.bytes (c :: cs)) s = r at hc hr
      obtain ⟨o, t⟩ := r
      dsimp only at hc hr ⊢
      have ho : o = .eq ↔ folded toAsciiLower ((c :: cs).map some) <+:
          folded toAsciiLower (bs.map some ++ rest) := by
        rw [← compare_take_eq_iff, List.length_map, hc]
        rfl
      have hone := n.window.one_le
      cases o with
      | eq => exact ⟨⟨by omega, .here (ho.1 rfl)⟩, hr⟩
      | lt =>
        obtain ⟨ha, hr'⟩ := hnext t hr fun hp => by cases ho.2 hp
        exact ⟨ha, IsTrans.trans _ _ _ hr hr'⟩
      | gt =>
        obtain ⟨ha, hr'⟩ := hnext t hr fun hp => by cases ho.2 hp
        exact ⟨ha, IsTrans.trans _ _ _ hr hr'⟩

/-- The search of `vstr_srch_case_buf_fwd` in one node of a walk. -/
theorem srchCaseBufNode_walk {cs : List UInt8} {zs : List (Option UInt8)}
    (w : Window E P s pos len (as ++ zs)) (hw : Walk s.heap (it :: its) zs) :
    Ensures Reads (srchCaseBufNode pos len (c :: cs) (toAsciiUpper c) (it.len + 1) it) s
      (Among (folded toAsciiLower ((c :: cs).map some)) (folded toAsciiLower zs)
        (pos + as.length) it.len) := by
  cases hw with
  | @non _ _ zs ptr hp hrest walk =>
    have e : (srchCaseBufNode pos len (c :: cs) (toAsciiUpper c) (it.len + 1) it).run s =
        (none, s) := by
      change srchCaseBufNode pos len (c :: cs) (toAsciiUpper c) (it.len + 1) it s = _
      rw [srchCaseBufNode]
      dsimp only
      rw [ptr]
      split <;> rfl
    rw [Ensures, e]
    refine ⟨fun i hi => ?_, Std.Refl.refl s⟩
    rw [show folded toAsciiLower (List.replicate it.len none ++ zs) =
        List.replicate it.len none ++ folded toAsciiLower zs by simp [folded]]
    exact not_prefix_replicate hi
  | @data _ _ zs p ptr hp hrest walk =>
    exact srchCaseBufNode_ensures ⟨w, ptr, rfl, hrest⟩ (Nat.lt_succ_self _)

/-- Unknown bytes have no case. -/
theorem replicate_prefix_folded {k i : Nat} :
    folded fold (List.replicate k none) <+: (folded fold xs).drop i ↔
      List.replicate k none <+: xs.drop i := by
  rw [← folded_drop]
  generalize xs.drop i = zs
  have hf : ∀ ws : List (Option UInt8),
      folded fold ws = List.replicate k none ↔ ws = List.replicate k none := by
    intro ws
    simp [folded, List.eq_replicate_iff]
  rw [(hf _).2 rfl, List.prefix_iff_eq_take, List.prefix_iff_eq_take, List.length_replicate,
    ← folded_take, eq_comm, hf, eq_comm]

/-- `vstr_srch_case_buf_fwd`. -/
theorem Window.caseBufFirst (w : Window E P s pos len xs) {buf : Buf} (hb : buf.len ≠ 0) :
    Ensures Reads (srchCaseBufFwd pos len buf) s
      (First (folded toAsciiLower buf.contents) (folded toAsciiLower xs) pos) := by
  have hl := w.length
  have hne := @folded_ne_nil _ toAsciiLower (Buf.contents_ne_nil hb)
  change First _ _ _ (srchCaseBufFwd pos len buf s).1 ∧ Reads s (srchCaseBufFwd pos len buf s).2
  unfold srchCaseBufFwd
  by_cases hshort : len = 0 ∨ buf.len > len
  · rw [if_pos hshort]
    refine ⟨.short hne ?_, Std.Refl.refl s⟩
    rw [length_folded, length_folded, Buf.length_contents]
    omega
  rw [if_neg hshort, if_neg hb]
  cases buf with
  | null strLen =>
    obtain ⟨hf, hr⟩ := w.bufFirst hb
    exact ⟨(First.congr fun i => replicate_prefix_folded).2 hf, hr⟩
  | bytes str =>
    obtain ⟨c, cs, rfl⟩ := List.exists_cons_of_ne_nil
      (List.ne_nil_of_length_pos (Nat.pos_of_ne_zero hb))
    cases cs with
    | nil => exact w.caseChrFirst c
    | cons d cs =>
      refine w.started (by omega) (srchNodeLoop (fun it => srchCaseBufNode pos len (c :: d :: cs)
        (toAsciiUpper c) (it.len + 1) it) (c :: d :: cs).length) fun t its hr hw => ?_
      have h := @srchNodeLoop_ensures _ _ _ _ _ [] _ toAsciiLower _ _ _ hne
        (fun t it its as zs w hw => srchCaseBufNode_walk w hw) (w.reads hr) hw
      rwa [length_folded, Buf.length_contents] at h

/-! ## From the end -/

/-- `vstr__srch_case_buf_rev_slow` for more than one byte. -/
theorem Window.caseBufRevSlow (w : Window E P s pos len xs) {buf : Buf} (hb : 2 ≤ buf.len) :
    Ensures Reads (srchCaseBufRevSlow pos len buf) s
      (Last (folded toAsciiLower buf.contents) (folded toAsciiLower xs) pos) := by
  have hl := w.length
  have hne := @folded_ne_nil _ toAsciiLower (Buf.contents_ne_nil (by omega : buf.len ≠ 0))
  refine srchRevLoop_last w.one_le hne (by rw [length_folded, hl]) (fun k t hr hk _ => ?_)
    fun k hk hm i hi => ?_
  · rw [← folded_drop]
    exact ((w.reads hr).drop hk).caseBufFirst (by omega)
  · have hin := le_of_prefixed hi hne
    rw [List.length_drop, length_folded, length_folded, Buf.length_contents, hl] at hin
    simp only [decide_eq_false_iff_not] at hm
    omega

/-- `vstr_srch_case_buf_rev` for bytes. -/
theorem Window.caseBufRev (w : Window E P s pos len xs) (pk : PosOk True s.base) (iv : IovecOk s)
    (hs : str ≠ []) : Ensures Reads (srchCaseBufRev pos len (.bytes str)) s
      (Last (folded toAsciiLower (str.map some)) (folded toAsciiLower xs) pos) := by
  have hl := w.length
  obtain ⟨c, cs, rfl⟩ := List.exists_cons_of_ne_nil hs
  change Last _ _ _ (srchCaseBufRev pos len (.bytes (c :: cs)) s).1 ∧
    Reads s (srchCaseBufRev pos len (.bytes (c :: cs)) s).2
  unfold srchCaseBufRev
  have hb : (Buf.bytes (c :: cs)).len = cs.length + 1 := rfl
  by_cases hshort : len = 0 ∨ (Buf.bytes (c :: cs)).len > len
  · rw [if_pos hshort]
    refine ⟨.short (by simp [folded]) ?_, Std.Refl.refl s⟩
    rw [length_folded, length_folded, List.length_map, List.length_cons]
    omega
  rw [if_neg hshort, if_neg (by omega)]
  cases cs with
  | nil => exact w.caseChrRev pk iv c
  | cons d cs => exact w.caseBufRevSlow (by simp [Buf.len])

/-- The last byte is unknown, and it is the only one or the one before is unknown too. -/
def EndsUnknown (xs : List (Option UInt8)) : Prop := xs = [none] ∨ [none, none] <:+ xs

instance (xs : List (Option UInt8)) : Decidable (EndsUnknown xs) :=
  inferInstanceAs (Decidable (_ ∨ _))

theorem endsUnknown_iff : EndsUnknown xs ↔ xs ≠ [] ∧ xs[xs.length - 1]? = some none ∧
    (2 ≤ xs.length → xs[xs.length - 2]? = some none) := by
  rcases xs.eq_nil_or_concat with rfl | ⟨ys, x, rfl⟩
  · simp [EndsUnknown]
  rcases ys.eq_nil_or_concat with rfl | ⟨ys, y, rfl⟩
  · have hp : ¬ [none, none] <:+ [x] := fun h => absurd h.length_le (by simp)
    simp [EndsUnknown, hp]
  · have hp : [none, none] <:+ ys ++ [y] ++ [x] ↔ y = none ∧ x = none := by
      rw [List.append_assoc, ← List.nil_append [none, none],
        append_suffix_append (show [none, none].length = ([y] ++ [x]).length from rfl)]
      simp [eq_comm]
    have hone : ys ++ [y] ++ [x] ≠ [none] := fun h => by simpa using congrArg List.length h
    rw [EndsUnknown, List.concat_eq_append, List.concat_eq_append, or_iff_right hone, hp]
    simp [and_comm]

/-- `vstr__srch_case_buf_rev_slow` for one unknown byte. -/
theorem Window.caseNonRevSlow (w : Window E P s pos len xs) (hlen : 0 < len) :
    Ensures Reads (srchCaseBufRevSlow pos len (.null 1)) s fun r =>
      Last [none] xs pos r ↔ ¬ EndsUnknown xs := by
  have hl := w.length
  have hone := w.one_le
  have hex := @srchRevLoop_exit pos len _ _ Reads _ s [none] xs (srchCaseBufFwd · · (.null 1))
    (fun scanPos scanLen => scanPos < pos + len - 1 ∧ scanLen ≥ (Buf.null 1).len)
    w.one_le (by simp) (Nat.le_of_eq hl) (fun k t hr hk _ => by
      refine (((w.reads hr).drop hk).caseBufFirst (by simp [Buf.len])).mono
        fun r hf => ?_
      exact (First.congr fun i => replicate_prefix_folded (k := 1)).1 hf)
  refine hex.mono fun r h => ?_
  obtain ⟨k, hk, hst, hn⟩ := h
  have hmore : ∀ k, k < len - 1 ↔ decide (pos + k < pos + len - 1 ∧ len - k ≥ 1) = true := by
    intro k
    rw [decide_eq_true_iff]
    omega
  rw [endsUnknown_iff, hl]
  have hx : xs ≠ [] := List.ne_nil_of_length_pos (by omega)
  constructor
  · rintro hlast ⟨-, hend, hbefore⟩
    rcases hlast with ⟨rfl, hno⟩ | ⟨i, rfl, hi, hge⟩
    · exact hno (len - 1) (singleton_prefix_drop.2 hend)
    · have hle := hge (singleton_prefix_drop.2 hend)
      have hin := le_of_prefixed hi (by simp)
      rw [List.length_singleton, hl] at hin
      rcases hst with ⟨h0, -⟩ | ⟨j, k₀, hj, -, -, hk₀, hm, hnone⟩
      · omega
      · have hlt := (hmore k₀).2 hm
        exact hnone (len - 2) (by omega) (by omega) (singleton_prefix_drop.2 (hbefore (by omega)))
  · intro hends
    refine hst.last ?_
    cases hm : decide (pos + k < pos + len - 1 ∧ len - k ≥ 1) with
    | true => exact hn hm
    | false =>
      intro i hi
      have hge : ¬ k < len - 1 := fun h => by
        rw [(hmore k).1 h] at hm
        cases hm
      rw [singleton_prefix_drop, List.getElem?_drop] at hi
      have hlt := (List.getElem?_eq_some_iff.1 hi).1
      obtain ⟨rfl, rfl⟩ : k = len - 1 ∧ i = 0 := by omega
      refine hends ⟨hx, hi, fun h2 => ?_⟩
      rcases hst with ⟨-, h0⟩ | ⟨j, -, -, hj, hplace, -⟩
      · omega
      · rw [singleton_prefix_drop] at hplace
        rwa [show len - 2 = j by omega]

/-- `vstr_srch_case_buf_rev` for `NULL`. -/
theorem Window.caseNonRev (w : Window E P s pos len xs) {strLen : Nat} (hs : strLen ≠ 0) :
    Ensures Reads (srchCaseBufRev pos len (.null strLen)) s fun r =>
      Last (List.replicate strLen none) xs pos r ↔ ¬ (strLen = 1 ∧ EndsUnknown xs) := by
  have hl := w.length
  have hne : List.replicate strLen (none : Option UInt8) ≠ [] := by
    simpa using hs
  change (Last _ _ _ (srchCaseBufRev pos len (.null strLen) s).1 ↔ _) ∧
    Reads s (srchCaseBufRev pos len (.null strLen) s).2
  unfold srchCaseBufRev
  have hb : (Buf.null strLen).len = strLen := rfl
  by_cases hshort : len = 0 ∨ (Buf.null strLen).len > len
  · rw [if_pos hshort]
    refine ⟨iff_of_true (.short hne ?_) ?_, Std.Refl.refl s⟩
    · rw [List.length_replicate]
      omega
    · rintro ⟨h1, hends⟩
      have := List.length_pos_iff.2 (endsUnknown_iff.1 hends).1
      omega
  rw [if_neg hshort, if_neg (by omega)]
  dsimp only
  by_cases h1 : strLen = 1
  · subst h1
    obtain ⟨h, hr⟩ := w.caseNonRevSlow (by omega)
    refine ⟨h.trans (not_congr ?_), hr⟩
    simp
  · obtain ⟨h, hr⟩ := @Window.caseBufRevSlow _ _ _ _ _ _ w (.null strLen) (by omega)
    refine ⟨iff_of_true ((Last.congr fun i => replicate_prefix_folded).1 h) fun h => h1 h.1, hr⟩

end Vstr
