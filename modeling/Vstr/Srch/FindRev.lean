import Vstr.Srch.Find

/-!
# Searching backwards for a buffer

`vstr_srch_buf_rev` finds the last place of the bytes of the buffer. Over the vectors it looks
for the last byte of the buffer and compares from there to the front.
-/

namespace Vstr

open Memory Splice Query Occur

variable {E : Env} {P : Own} {s : St} {h : Heap} {pos len : Nat} {xs zs : List (Option UInt8)}
  {bs str cs : List UInt8} {sc : Scan} {scs : List Scan} {p : Addr} {c : UInt8}

theorem eq_of_concat_suffix {α : Type} {as bs : List α} {a b : α} (hs : as ++ [a] <:+ bs ++ [b]) :
    a = b := by
  have h := ((append_suffix_append (show [a].length = [b].length from rfl)).1 hs).2
  exact List.head_eq_of_cons_eq h

/-- No known bytes end with an unknown one. -/
theorem not_suffix_replicate {n : Nat} (hn : 0 < n) (hs : str ≠ []) :
    ¬ str.map some <:+ xs ++ List.replicate n none := by
  obtain ⟨k, rfl⟩ : ∃ k, n = k + 1 := ⟨n - 1, by omega⟩
  obtain ⟨cs, c, rfl⟩ : ∃ cs c, str = cs ++ [c] :=
    ⟨str.dropLast, str.getLast hs, (List.dropLast_append_getLast hs).symm⟩
  rw [List.map_append, List.replicate_succ', ← List.append_assoc]
  intro h
  cases eq_of_concat_suffix h

/-- No unknown bytes end with a known one. -/
theorem not_replicate_suffix {k : Nat} (hk : 0 < k) (hb : bs ≠ []) :
    ¬ List.replicate k none <:+ xs ++ bs.map some := by
  obtain ⟨k, rfl⟩ : ∃ j, k = j + 1 := ⟨k - 1, by omega⟩
  obtain ⟨cs, c, rfl⟩ : ∃ cs c, bs = cs ++ [c] :=
    ⟨bs.dropLast, bs.getLast hb, (List.dropLast_append_getLast hb).symm⟩
  rw [List.map_append, List.replicate_succ', ← List.append_assoc]
  intro h
  cases eq_of_concat_suffix h

/-- Unknown bytes that end among unknown bytes end behind all of them as well. -/
theorem replicate_suffix_of_le {e k n : Nat} (he : e ≤ n)
    (hs : List.replicate k none <:+ xs ++ List.replicate e none) :
    List.replicate k none <:+ xs ++ List.replicate n none := by
  obtain ⟨ts, h⟩ := hs
  refine ⟨ts ++ List.replicate (n - e) none, ?_⟩
  rw [List.append_assoc, List.replicate_append_replicate, Nat.add_comm,
    ← List.replicate_append_replicate, ← List.append_assoc, h, List.append_assoc,
    List.replicate_append_replicate, Nat.add_sub_cancel' he]

/-! ## Comparing from the end -/

/-- The loop of `vstr__cmp_eq_rev_buf`. -/
theorem cmpEqRevBufLoop_iff (hw : ScanWalk h scs zs) (hl : str.length ≤ zs.length) :
    cmpEqRevBufLoop h str scs = true ↔ str.map some <:+ zs := by
  induction hw generalizing str with
  | nil =>
    obtain rfl : str = [] := List.length_eq_zero_iff.1 (by simpa using hl)
    simp [cmpEqRevBufLoop]
  | @non sc scs zs hstr hp hrest walk ih =>
    cases str with
    | nil => simp [cmpEqRevBufLoop]
    | cons d ds =>
      have e : cmpEqRevBufLoop h (d :: ds) (sc :: scs) = false := by
        rw [cmpEqRevBufLoop, hstr]
      rw [e]
      exact iff_of_false (by simp) (not_suffix_replicate hp (by simp))
  | @data sc scs zs p hstr hp hrest walk ih =>
    rw [List.length_append, List.length_map, length_read] at hl
    cases str with
    | nil => simp [cmpEqRevBufLoop]
    | cons d ds =>
      rw [cmpEqRevBufLoop, hstr]
      dsimp only
      generalize hstr' : d :: ds = str at hl
      generalize ht : min sc.scanLen str.length = tmp
      have hread : read h.mem (p.add (sc.scanLen - tmp)) tmp =
          (read h.mem p sc.scanLen).drop (sc.scanLen - tmp) := by
        rw [drop_read, Nat.sub_sub_self (by omega)]
      have hsplit : str.map some <:+ zs ++ (read h.mem p sc.scanLen).map some ↔
          (str.take (str.length - tmp)).map some <:+
            zs ++ ((read h.mem p sc.scanLen).take (sc.scanLen - tmp)).map some ∧
          str.drop (str.length - tmp) = read h.mem (p.add (sc.scanLen - tmp)) tmp := by
        rw [hread, ← List.map_inj_right (f := some) fun _ _ h => Option.some.inj h]
        rw [← append_suffix_append (by
          simp only [List.length_map, List.length_drop, length_read]
          omega), List.append_assoc, ← List.map_append, ← List.map_append, List.take_append_drop,
          List.take_append_drop]
      have hm : memcmp (str.drop (str.length - tmp)) (read h.mem (p.add (sc.scanLen - tmp)) tmp) =
          .eq ↔ str.drop (str.length - tmp) = read h.mem (p.add (sc.scanLen - tmp)) tmp :=
        memcmp_eq_iff (by rw [List.length_drop, length_read]; omega)
      rw [hsplit]
      by_cases hb : str.drop (str.length - tmp) = read h.mem (p.add (sc.scanLen - tmp)) tmp
      · rw [if_neg (by simpa using hm.2 hb), and_iff_left hb]
        rcases Nat.le_total sc.scanLen str.length with hle | hle
        · rw [show sc.scanLen - tmp = 0 by omega, List.take_zero, List.map_nil, List.append_nil]
          exact ih (by rw [List.length_take]; omega)
        · rw [show str.length - tmp = 0 by omega, List.take_zero, List.map_nil]
          cases scs <;> simp [cmpEqRevBufLoop]
      · rw [if_pos fun e => hb (hm.1 e)]
        exact iff_of_false (by simp) fun h => hb h.2

/-- `vstr__cmp_eq_rev_buf`, from the byte before `n` of a stretch on. -/
theorem cmpEqRevBuf_iff {n : Nat} (hstr : sc.str = some p) (hrest : sc.len = zs.length)
    (hw : ScanWalk h scs zs) (hn : 0 < n) :
    cmpEqRevBuf h str { sc with scanLen := n } scs = true ↔
      str.map some <:+ zs ++ (read h.mem p n).map some := by
  unfold cmpEqRevBuf
  dsimp only
  have hw' : ScanWalk h ({ sc with scanLen := n } :: scs) (zs ++ (read h.mem p n).map some) :=
    .data hstr hn hrest hw
  by_cases hl : str.length > sc.len + n
  · rw [if_pos hl]
    refine iff_of_false (by simp) fun hs => ?_
    have := hs.length_le
    rw [List.length_map, List.length_append, List.length_map, length_read] at this
    omega
  · rw [if_neg hl]
    exact cmpEqRevBufLoop_iff hw' (by rw [List.length_append, List.length_map, length_read]; omega)

/-- The loop of `vstr__cmp_eq_rev_non`. -/
theorem cmpEqRevNonLoop_iff {k : Nat} (hk : 0 < k) (hw : ScanWalk h scs zs) (hl : k ≤ zs.length) :
    cmpEqRevNonLoop k scs = true ↔ List.replicate k none <:+ zs := by
  induction hw generalizing k with
  | nil =>
    rw [List.length_nil] at hl
    omega
  | @non sc scs zs hstr hp hrest walk ih =>
    rw [cmpEqRevNonLoop, hstr]
    dsimp only
    by_cases hle : k ≤ sc.scanLen
    · rw [if_pos hle]
      refine iff_of_true rfl ?_
      have e : List.replicate sc.scanLen (none : Option UInt8) =
          List.replicate (sc.scanLen - k) none ++ List.replicate k none := by
        rw [List.replicate_append_replicate, Nat.sub_add_cancel hle]
      rw [e, ← List.append_assoc]
      exact List.suffix_append _ _
    · rw [if_neg hle]
      have e : List.replicate k (none : Option UInt8) =
          List.replicate (k - sc.scanLen) none ++ List.replicate sc.scanLen none := by
        rw [List.replicate_append_replicate, Nat.sub_add_cancel (by omega)]
      rw [List.length_append, List.length_replicate] at hl
      rw [e, append_suffix_append rfl, and_iff_left rfl]
      exact ih (by omega) (by omega)
  | @data sc scs zs p hstr hp hrest walk ih =>
    have e : cmpEqRevNonLoop k (sc :: scs) = false := by
      rw [cmpEqRevNonLoop, hstr]
    rw [e]
    refine iff_of_false (by simp) (not_replicate_suffix hk ?_)
    exact List.ne_nil_of_length_pos (by rwa [length_read])

/-- `vstr__cmp_eq_rev_non`. -/
theorem cmpEqRevNon_iff {k : Nat} (hk : 0 < k) (hw : ScanWalk h (sc :: scs) zs)
    (hl : sc.len + sc.scanLen = zs.length) :
    cmpEqRevNon k sc scs = true ↔ List.replicate k none <:+ zs := by
  unfold cmpEqRevNon
  by_cases hlt : k > sc.len + sc.scanLen
  · rw [if_pos hlt]
    refine iff_of_false (by simp) fun hs => ?_
    have := hs.length_le
    rw [List.length_replicate] at this
    omega
  · rw [if_neg hlt]
    exact cmpEqRevNonLoop_iff hk hw (by omega)

/-! ## One node -/

/-- Known bytes that end in a node end with their last byte. -/
theorem getElem?_of_suffix {e : Nat} (he : e < bs.length)
    (hs : (cs ++ [c]).map some <:+ zs ++ (bs.take (e + 1)).map some) : bs[e]? = some c := by
  rw [List.take_succ_eq_append_getElem he, List.map_append, List.map_append,
    ← List.append_assoc] at hs
  rw [List.getElem?_eq_getElem he, ← eq_of_concat_suffix hs]

/-- What the search from the end of one node may answer: the place with the last end in it, or
that there is no end in it. -/
def AmongLast (ys zs : List (Option UInt8)) (bs : List UInt8) (pos : Nat) : Option Nat → Prop
  | some r => ∃ e, 0 < e ∧ e ≤ bs.length ∧ r = pos + zs.length + e - ys.length ∧
      ys <:+ zs ++ (bs.take e).map some ∧
      ∀ e', e < e' → e' ≤ bs.length → ¬ ys <:+ zs ++ (bs.take e').map some
  | none => ∀ e, 0 < e → e ≤ bs.length → ¬ ys <:+ zs ++ (bs.take e).map some

/-- The search of `vstr__srch_buf_rev_fast` in one node. -/
theorem srchBufRevNode_among {fuel count : Nat} (hstr : sc.str = some p)
    (hrest : sc.len = zs.length) (hw : ScanWalk h scs zs) (hbs : read h.mem p sc.scanLen = bs)
    (hc : count ≤ sc.scanLen) (hf : sc.scanLen ≤ fuel + count)
    (hn : ∀ e, sc.scanLen - count < e → e ≤ bs.length →
      ¬ (cs ++ [c]).map some <:+ zs ++ (bs.take e).map some) :
    AmongLast ((cs ++ [c]).map some) zs bs pos
      (srchBufRevNode h pos (cs ++ [c]) sc scs p fuel count) := by
  induction fuel generalizing count with
  | zero =>
    intro e h0 he
    exact hn e (by omega) he
  | succ fuel ih =>
    have hbl : bs.length = sc.scanLen := by rw [← hbs, length_read]
    rw [srchBufRevNode]
    by_cases hlt : count < sc.scanLen
    swap
    · rw [if_neg hlt]
      exact fun e h0 he => hn e (by omega) he
    rw [if_pos hlt]
    dsimp only
    obtain ⟨rest, hr⟩ : ∃ rest, sc.scanLen = count + 1 + rest :=
      ⟨sc.scanLen - (count + 1), by omega⟩
    have hrest' : sc.scanLen - (count + 1) = rest := by omega
    have hcheck : ∀ k, k ≤ rest → (∀ e, k + 1 < e → e ≤ bs.length →
          ¬ (cs ++ [c]).map some <:+ zs ++ (bs.take e).map some) →
        AmongLast ((cs ++ [c]).map some) zs bs pos
          (if cmpEqRevBuf h (cs ++ [c])
              { sc with scanLen := scPosdiff (sc.scanLen - k) sc.scanLen } scs then
            some (pos + sc.len + scPosdiff (sc.scanLen - k) sc.scanLen - (cs ++ [c]).length)
          else srchBufRevNode h pos (cs ++ [c]) sc scs p fuel (sc.scanLen - k)) := by
      intro k hk hnk
      have hd : scPosdiff (sc.scanLen - k) sc.scanLen = k + 1 := by
        unfold scPosdiff
        omega
      have hiff : cmpEqRevBuf h (cs ++ [c]) { sc with scanLen := k + 1 } scs = true ↔ _ :=
        cmpEqRevBuf_iff hstr hrest hw (Nat.succ_pos k)
      rw [← take_read h.mem p (show k + 1 ≤ sc.scanLen by omega), hbs] at hiff
      rw [hd]
      by_cases he : cmpEqRevBuf h (cs ++ [c]) { sc with scanLen := k + 1 } scs = true
      · rw [if_pos he, hrest]
        refine ⟨k + 1, Nat.succ_pos k, by omega, by rw [List.length_map], hiff.1 he, hnk⟩
      · rw [if_neg he]
        refine ih (by omega) (by omega) fun e h1 h2 => ?_
        by_cases hek : e = k + 1
        · subst hek
          exact fun hs => he (hiff.2 hs)
        · exact hnk e (by omega) h2
    have hbyte : bs[rest]? = some (h.byte (p.add rest)) := by
      rw [← hbs, getElem?_read, if_pos (by omega)]
      rfl
    have hread : read h.mem p rest = bs.take rest := by
      rw [← hbs, take_read _ _ (by omega)]
    have hbehind : ∀ e, rest + 1 < e → e ≤ bs.length →
        ¬ (cs ++ [c]).map some <:+ zs ++ (bs.take e).map some :=
      fun e h1 h2 => hn e (by omega) h2
    rw [hrest', List.getLastD_concat]
    by_cases hb : h.byte (p.add rest) ≠ c
    · have hno : ∀ e, rest < e → e ≤ bs.length →
          ¬ (cs ++ [c]).map some <:+ zs ++ (bs.take e).map some := by
        intro e h1 h2 hs
        by_cases he : e = rest + 1
        · subst he
          rw [getElem?_of_suffix (by omega) hs] at hbyte
          exact hb (Option.some.inj hbyte).symm
        · exact hbehind e (by omega) h2 hs
      rw [if_pos hb, hread]
      rcases memrchr_cases (bs.take rest) c with ⟨e, -⟩ | ⟨as, ds, e, hds, hs⟩
      · rw [e]
        exact ih (by omega) (by omega) fun e h1 h2 => hno e (by omega) h2
      · have hlen := congrArg List.length e
        rw [List.length_take, List.length_append, List.length_cons,
          Nat.min_eq_left (by omega)] at hlen
        rw [hs, Option.map_some]
        dsimp only
        rw [show count + 1 + (rest - as.length) = sc.scanLen - as.length by omega]
        refine hcheck as.length (by omega) fun e' h1 h2 hs' => ?_
        rcases Nat.lt_or_ge rest e' with hge | hle
        · exact hno e' hge h2 hs'
        · obtain ⟨j, rfl⟩ : ∃ j, e' = j + 1 := ⟨e' - 1, by omega⟩
          have hj := getElem?_of_suffix (by omega) hs'
          rw [← List.getElem?_take_of_lt (show j < rest by omega), e,
            List.getElem?_append_right (by omega)] at hj
          obtain ⟨i, hi⟩ : ∃ i, j - as.length = i + 1 := ⟨j - as.length - 1, by omega⟩
          rw [hi, List.getElem?_cons_succ] at hj
          exact hds (List.mem_of_getElem? hj)
    · rw [if_neg hb]
      dsimp only
      rw [show count + 1 = sc.scanLen - rest by omega]
      exact hcheck rest (Nat.le_refl _) hbehind

/-- A node of the loop without bytes. -/
theorem srchBufRevFastLoop_non {sc : Scan} {scs : List Scan} {xs : List (Option UInt8)}
    {buf : Buf} (hb : buf.len ≠ 0) (hstr : sc.str = none) (hp : 0 < sc.scanLen)
    (hrest : sc.len = xs.length) (walk : ScanWalk h scs xs)
    (ih : Last buf.contents xs pos (srchBufRevFastLoop h pos buf scs)) :
    Last buf.contents (xs ++ List.replicate sc.scanLen none) pos
      (srchBufRevFastLoop h pos buf (sc :: scs)) := by
  have hne := Buf.contents_ne_nil hb
  cases buf with
  | bytes str =>
    have e : srchBufRevFastLoop h pos (.bytes str) (sc :: scs) =
        srchBufRevFastLoop h pos (.bytes str) scs := by
      rw [srchBufRevFastLoop.eq_def]
      dsimp only
      rw [hstr]
    rw [e]
    refine ih.append hne fun e h0 he => ?_
    rw [List.length_replicate] at he
    rw [List.take_replicate, Nat.min_eq_left he]
    exact not_suffix_replicate h0 (List.ne_nil_of_length_pos (Nat.pos_of_ne_zero hb))
  | null k =>
    have e : srchBufRevFastLoop h pos (.null k) (sc :: scs) =
        if cmpEqRevNon k sc scs then pos + sc.len + sc.scanLen - k
        else srchBufRevFastLoop h pos (.null k) scs := by
      rw [srchBufRevFastLoop.eq_def]
      dsimp only
      rw [hstr]
    have hlen : (xs ++ List.replicate sc.scanLen none).length = sc.len + sc.scanLen := by
      rw [List.length_append, List.length_replicate, hrest]
    have hiff := cmpEqRevNon_iff (Nat.pos_of_ne_zero hb) (.non hstr hp hrest walk) hlen.symm
    rw [e]
    by_cases hc : cmpEqRevNon k sc scs = true
    · rw [if_pos hc]
      have hl : Last (Buf.contents (.null k)) (xs ++ List.replicate sc.scanLen none) pos
          (pos + (sc.len + sc.scanLen) - (Buf.contents (.null k)).length) := by
        refine .of_end hne (Nat.le_of_eq hlen.symm) ?_ fun e' h1 h2 => ?_
        · rw [← hlen, List.take_length]
          exact hiff.1 hc
        · omega
      rwa [Buf.length_contents, ← Nat.add_assoc] at hl
    · rw [if_neg hc]
      refine ih.append hne fun e h0 he hs => hc (hiff.2 ?_)
      rw [List.length_replicate] at he
      rw [List.take_replicate, Nat.min_eq_left he] at hs
      exact replicate_suffix_of_le he hs

/-- A node of the loop with bytes. -/
theorem srchBufRevFastLoop_data {sc : Scan} {scs : List Scan} {xs : List (Option UInt8)}
    {buf : Buf} {p : Addr} (hb : buf.len ≠ 0) (hstr : sc.str = some p)
    (hrest : sc.len = xs.length) (walk : ScanWalk h scs xs)
    (ih : Last buf.contents xs pos (srchBufRevFastLoop h pos buf scs)) :
    Last buf.contents (xs ++ (read h.mem p sc.scanLen).map some) pos
      (srchBufRevFastLoop h pos buf (sc :: scs)) := by
  have hne := Buf.contents_ne_nil hb
  cases buf with
  | null k =>
    have e : srchBufRevFastLoop h pos (.null k) (sc :: scs) =
        srchBufRevFastLoop h pos (.null k) scs := by
      rw [srchBufRevFastLoop.eq_def]
      dsimp only
      rw [hstr]
    rw [e]
    refine ih.append hne fun e h0 he => ?_
    rw [← List.map_take]
    refine not_replicate_suffix (Nat.pos_of_ne_zero hb) (List.ne_nil_of_length_pos ?_)
    rw [List.length_map, length_read] at he
    rw [List.length_take, length_read]
    omega
  | bytes str =>
    have hs : str ≠ [] := List.ne_nil_of_length_pos (Nat.pos_of_ne_zero hb)
    obtain ⟨cs, c, rfl⟩ : ∃ cs c, str = cs ++ [c] :=
      ⟨str.dropLast, str.getLast hs, (List.dropLast_append_getLast hs).symm⟩
    have hnode : AmongLast ((cs ++ [c]).map some) xs (read h.mem p sc.scanLen) pos
        (srchBufRevNode h pos (cs ++ [c]) sc scs p sc.scanLen 0) :=
      srchBufRevNode_among hstr hrest walk rfl (Nat.zero_le _) (Nat.le_refl _)
        fun e h1 h2 => by
          rw [length_read] at h2
          omega
    rw [srchBufRevFastLoop.eq_def]
    dsimp only
    rw [hstr]
    dsimp only
    cases hf : srchBufRevNode h pos (cs ++ [c]) sc scs p sc.scanLen 0 with
    | none =>
      rw [hf] at hnode
      refine ih.append hne fun e h0 he => ?_
      rw [List.length_map] at he
      rw [← List.map_take]
      exact hnode e h0 he
    | some r =>
      rw [hf] at hnode
      obtain ⟨e, h0, he, rfl, hsuf, hmax⟩ := hnode
      have htake : ∀ e, (xs ++ (read h.mem p sc.scanLen).map some).take (xs.length + e) =
          xs ++ ((read h.mem p sc.scanLen).take e).map some := by
        intro e
        rw [List.take_length_add_append, List.map_take]
      rw [Nat.add_assoc]
      refine .of_end hne ?_ ?_ fun e' h1 h2 => ?_
      · rw [List.length_append, List.length_map]
        omega
      · rw [htake]
        exact hsuf
      · rw [List.length_append, List.length_map] at h2
        obtain ⟨j, rfl⟩ : ∃ j, e' = xs.length + j := ⟨e' - xs.length, by omega⟩
        rw [htake]
        exact hmax j (by omega) (by omega)

/-- The loop of `vstr__srch_buf_rev_fast`. -/
theorem srchBufRevFastLoop_last {buf : Buf} (hb : buf.len ≠ 0) (hw : ScanWalk h scs xs) :
    Last buf.contents xs pos (srchBufRevFastLoop h pos buf scs) := by
  induction hw with
  | nil => exact .nil (Buf.contents_ne_nil hb)
  | @non sc scs xs hstr hp hrest walk ih => exact srchBufRevFastLoop_non hb hstr hp hrest walk ih
  | @data sc scs xs p hstr hp hrest walk ih => exact srchBufRevFastLoop_data hb hstr hrest walk ih

/-- `vstr__srch_buf_rev_fast`. -/
theorem Window.bufRevFast (w : Window E P s pos len xs) (pk : PosOk True s.base) (iv : IovecOk s)
    (hup : s.base.iovecUptoDate = true) {buf : Buf} (hb : buf.len ≠ 0) :
    Ensures Reads (srchBufRevFast pos len buf) s (Last buf.contents xs pos) := by
  unfold Ensures srchBufRevFast StateT.run
  beta_reduce
  rcases w.scanWalk_cases pk iv hup with ⟨rfl, e⟩ | ⟨sc, t, e, hr, hw⟩
  · rw [e]
    exact ⟨.nil (Buf.contents_ne_nil hb), Std.Refl.refl s⟩
  · rw [e]
    dsimp only
    rw [hr.heap]
    exact ⟨srchBufRevFastLoop_last hb hw, hr⟩

/-- `vstr_srch_buf_rev`. -/
theorem Window.bufRev (w : Window E P s pos len xs) (pk : PosOk True s.base) (iv : IovecOk s)
    {buf : Buf} (hb : buf.len ≠ 0) :
    Ensures Reads (srchBufRev pos len buf) s (Last buf.contents xs pos) := by
  change Last _ _ _ (srchBufRev pos len buf s).1 ∧ Reads s (srchBufRev pos len buf s).2
  rw [srchBufRev.eq_def]
  by_cases hshort : len = 0 ∨ buf.len > len
  · rw [if_pos hshort]
    refine ⟨.short (Buf.contents_ne_nil hb) ?_, Std.Refl.refl s⟩
    rw [w.length, Buf.length_contents]
    omega
  rw [if_neg hshort, if_neg hb]
  split
  · exact w.chrRev pk iv _
  · by_cases hup : s.base.iovecUptoDate = true
    · rw [if_pos hup]
      exact w.bufRevFast pk iv hup hb
    · rw [if_neg hup]
      exact w.bufRevSlow hb

end Vstr
