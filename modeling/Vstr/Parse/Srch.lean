import Vstr.Model.Srch
import Vstr.Parse.Number

/-!
# Searching and comparing a slice

What the search for a byte and the comparison with a buffer answer, from the bytes of the
slice.
-/

namespace Vstr

open Memory Splice Query

variable {E : Env} {P : Own} {s : St} {pos len : Nat} {xs : List (Option UInt8)}

/-- The position of the first byte that is `c`, or zero. -/
def srchOf (c : UInt8) (pos : Nat) (xs : List (Option UInt8)) : Nat :=
  match xs.findIdx? (· = some c) with
  | none => 0
  | some i => pos + i

theorem srchOf_append (c : UInt8) (pos : Nat) {as : List (Option UInt8)} (h : some c ∉ as)
    (xs : List (Option UInt8)) : srchOf c pos (as ++ xs) = srchOf c (pos + as.length) xs := by
  have hn : as.findIdx? (· = some c) = none := by
    rw [List.findIdx?_eq_none_iff]
    intro x hx
    exact decide_eq_false fun e => h (e ▸ hx)
  unfold srchOf
  rw [List.findIdx?_append, hn, Option.none_or]
  cases xs.findIdx? (· = some c) with
  | none => rfl
  | some i =>
    show pos + (i + as.length) = pos + as.length + i
    omega

theorem srchOf_none {c : UInt8} (pos : Nat) (h : some c ∉ xs) : srchOf c pos xs = 0 := by
  rw [show xs = xs ++ [] by simp, srchOf_append c pos h]
  rfl

@[simp] theorem srchOf_cons (c : UInt8) (pos : Nat) (xs : List (Option UInt8)) :
    srchOf c pos (some c :: xs) = pos := by
  simp [srchOf, List.findIdx?_cons]

/-- The loop of `vstr_srch_chr_fwd` over stretches that lie one behind the other. -/
theorem srchChrLoop_eq {b : Base} (h : Heap) (c : UInt8) {its : List Iter}
    (hon : ∀ it ∈ its, ∃ pre post, it.On b pre post)
    (hsum : ∀ pre it post, its = pre ++ it :: post →
      it.len + it.remaining + (pre.map Iter.len).sum = len) :
    srchChrLoop h pos len c its = srchOf c pos (its.flatMap (Iter.bytes h)) := by
  have hrun : ∀ (its : List Iter) (k : Nat), (∀ it ∈ its, ∃ pre post, it.On b pre post) →
      (∀ pre it post, its = pre ++ it :: post →
        it.len + it.remaining + (pre.map Iter.len).sum + k = len) →
      srchChrLoop h pos len c its = srchOf c (pos + k) (its.flatMap (Iter.bytes h)) := by
    intro its
    induction its with
    | nil => intros; rfl
    | cons it its ih =>
      intro k hon hsum
      obtain ⟨pre, post, on⟩ := hon it List.mem_cons_self
      have h0 := hsum [] it its rfl
      simp only [List.map_nil, List.sum_nil, Nat.add_zero] at h0
      have hrest := ih (k + it.len) (fun it' hit => hon it' (List.mem_cons_of_mem _ hit))
        (fun pre' it' post' e => by
          have := hsum (it :: pre') it' post' (by rw [e]; rfl)
          simp only [List.map_cons, List.sum_cons] at this
          omega)
      rw [srchChrLoop, List.flatMap_cons, it.bytes_eq h on]
      cases it.ptr h with
      | none =>
        dsimp only
        rw [srchOf_append _ _ (by simp [List.mem_replicate]), List.length_replicate, hrest]
        congr 1
        omega
      | some p =>
        dsimp only
        cases hm : memchr (read h.mem p it.len) c with
        | none =>
          have hno : some c ∉ (read h.mem p it.len).map some := by
            intro hmem
            obtain ⟨x, hx, e⟩ := List.mem_map.1 hmem
            have := List.findIdx?_eq_none_iff.1 hm x hx
            exact absurd (Option.some.inj e) (of_decide_eq_false this)
          dsimp only
          rw [srchOf_append _ _ hno, List.length_map, length_read, hrest]
          congr 1
          omega
        | some i =>
          have hf : ((read h.mem p it.len).map some).findIdx? (· = some c) = some i := by
            rw [List.findIdx?_map]
            rw [← hm, memchr]
            congr 1
            funext x
            simp
          dsimp only
          unfold srchOf
          rw [List.findIdx?_append, hf, Option.some_or]
          show pos + (len - (it.len + it.remaining)) + i = pos + k + i
          omega
  have := hrun its 0 hon fun pre it post e => by
    have := hsum pre it post e
    omega
  rwa [Nat.add_zero] at this

/-- Every stretch of an iteration knows what is left of the slice. -/
theorem iterAll_sum (b : Base) {fuel : Nat} {it : Iter} :
    ∀ pre it' post, iterAll b fuel it = pre ++ it' :: post →
      it'.len + it'.remaining + (pre.map Iter.len).sum = it.len + it.remaining := by
  induction fuel generalizing it with
  | zero =>
    intro pre it' post h
    rw [iterAll] at h
    cases pre with
    | nil =>
      obtain ⟨rfl, -⟩ := List.cons.inj h
      rfl
    | cons x pre => cases pre <;> simp at h
  | succ fuel ih =>
    intro pre it' post h
    rw [iterAll] at h
    cases hn : iterFwdNxt b it with
    | none =>
      rw [hn] at h
      cases pre with
      | nil =>
        obtain ⟨rfl, -⟩ := List.cons.inj h
        rfl
      | cons x pre => cases pre <;> simp at h
    | some nx =>
      rw [hn] at h
      have hnx : nx.len + nx.remaining = it.remaining := by
        unfold iterFwdNxt at hn
        split at hn
        · cases hn
        · split at hn
          · cases hn
          · obtain rfl := Option.some.inj hn
            dsimp only
            omega
      cases pre with
      | nil =>
        obtain ⟨rfl, -⟩ := List.cons.inj h
        rfl
      | cons x pre =>
        replace h : it :: iterAll b fuel nx = x :: (pre ++ it' :: post) := h
        have hrest := ih pre it' post (List.cons.inj h).2
        rw [List.map_cons, List.sum_cons, ← (List.cons.inj h).1]
        omega

/-- `vstr_srch_chr_fwd`. -/
theorem Window.srch (w : Window E P s pos len xs) (c : UInt8) :
    Yields Reads (srchChrFwd pos len c) s (srchOf c pos xs) := by
  by_cases hl : len = 0
  · subst hl
    have hxs : xs = [] := List.length_eq_zero_iff.1 w.length
    have e : (srchChrFwd pos 0 c).run s = (0, s) := by
      change srchChrFwd pos 0 c s = _
      rw [srchChrFwd, iterFwdBeg_zero]
    rw [hxs]
    refine ⟨?_, ?_⟩
    · rw [e]
      rfl
    · rw [e]
      exact Std.Refl.refl s
  · have u := w.usable
    obtain ⟨it, b', pre, post, e, rfl, on, hsum, hlen, -, -, hslice⟩ :=
      iterFwdBeg_spec u.sound u.posOk w.one_le w.le_len (by omega)
    have hns := nodes_of_core (core_basePos s.base pos true)
    have c' := iterAll_covers s.heap on (by rw [hns]; exact u.sound.owned.nodes.nodup)
      (show post.length ≤ (basePos s.base pos true).2.nodes.length by rw [on.nodes]; simp; omega)
    have e' : (srchChrFwd pos len c).run s =
        (srchOf c pos xs, ⟨s.heap, (basePos s.base pos true).2⟩) := by
      change srchChrFwd pos len c s = _
      rw [srchChrFwd, e]
      dsimp only
      rw [srchChrLoop_eq s.heap c c'.on (fun pre it' post h => by
        rw [iterAll_sum _ pre it' post h, hsum]), c'.bytes, hsum, ← hslice, w.bytes]
    refine ⟨?_, ?_⟩
    · rw [e']
    · rw [e']
      have := w.le_len
      exact reads_basePos u w.one_le (by omega)

/-! ## Comparing -/

theorem memcmp_eq_iff {as bs : List UInt8} (h : as.length = bs.length) :
    memcmp as bs = .eq ↔ as = bs := by
  induction as generalizing bs with
  | nil =>
    cases bs with
    | nil => simp [memcmp]
    | cons b bs => cases h
  | cons a as ih =>
    cases bs with
    | nil => cases h
    | cons b bs =>
      rw [memcmp, Ordering.then_eq_eq, Nat.compare_eq_eq, ih (by simpa using h), UInt8.toNat_inj]
      simp

/-- The loop of `vstr_cmp_buf` for a buffer as long as the slice. -/
theorem cmpBufLoop_eq {b : Base} (h : Heap) {its : List Iter} {buf : List UInt8}
    (hon : ∀ it ∈ its, ∃ pre post, it.On b pre post) (hpos : ∀ it ∈ its, 0 < it.len)
    (hlen : (its.map Iter.len).sum = buf.length) (hbuf : 0 < buf.length)
    (hrem : ∀ pre it post, its = pre ++ it :: post → it.remaining = (post.map Iter.len).sum) :
    cmpBufLoop h buf its = .eq ↔ its.flatMap (Iter.bytes h) = buf.map some := by
  induction its generalizing buf with
  | nil =>
    simp only [List.map_nil, List.sum_nil] at hlen
    omega
  | cons it its ih =>
    obtain ⟨pre, post, on⟩ := hon it List.mem_cons_self
    have hit := hpos it List.mem_cons_self
    have hr := hrem [] it its rfl
    simp only [List.map_cons, List.sum_cons] at hlen
    have hmin : min it.len buf.length = it.len := by omega
    have hsplit : buf = buf.take it.len ++ buf.drop it.len := (List.take_append_drop _ _).symm
    have htl : (buf.take it.len).length = it.len := by
      rw [List.length_take]
      omega
    rw [cmpBufLoop, List.flatMap_cons, it.bytes_eq h on, hmin]
    cases it.ptr h with
    | none =>
      dsimp only
      constructor
      · intro hc
        cases hc
      · intro he
        obtain ⟨k, hk⟩ : ∃ k, it.len = k + 1 := ⟨it.len - 1, by omega⟩
        obtain ⟨a, as, ha⟩ := List.exists_cons_of_length_pos hbuf
        rw [hk, ha] at he
        simp [List.replicate_succ] at he
    | some p =>
      dsimp only
      have hm : memcmp (read h.mem p it.len) (buf.take it.len) = .eq ↔ _ :=
        memcmp_eq_iff (by rw [length_read, htl])
      have hiff : ∀ zs : List (Option UInt8),
          ((read h.mem p it.len).map some ++ zs = buf.map some) ↔
          read h.mem p it.len = buf.take it.len ∧ zs = (buf.drop it.len).map some := by
        intro zs
        rw [show buf.map some = (buf.take it.len).map some ++ (buf.drop it.len).map some by
          rw [← List.map_append, List.take_append_drop]]
        constructor
        · intro e
          obtain ⟨e1, e2⟩ := List.append_inj e
            (by rw [List.length_map, List.length_map, htl, length_read])
          exact ⟨(List.map_inj_right (fun _ _ e => Option.some.inj e)).1 e1, e2⟩
        · rintro ⟨e1, e2⟩
          rw [e1, e2]
      rw [hiff]
      cases hc : memcmp (read h.mem p it.len) (buf.take it.len) with
      | eq =>
        dsimp only
        have hread := hm.1 hc
        by_cases hend : buf.length ≤ it.len
        · have hits : its = [] := by
            cases its with
            | nil => rfl
            | cons it' its' =>
              have := hpos it' (by simp)
              simp only [List.map_cons, List.sum_cons] at hlen
              omega
          subst hits
          have h0 : it.remaining = 0 := by simpa using hr
          rw [if_pos hend, if_neg (by omega), List.drop_eq_nil_of_le hend]
          simp [hread]
        · rw [if_neg hend, ih (fun it' hi => hon it' (List.mem_cons_of_mem _ hi))
            (fun it' hi => hpos it' (List.mem_cons_of_mem _ hi))
            (by rw [List.length_drop]; omega) (by rw [List.length_drop]; omega)
            (fun pre' it' post' e => hrem (it :: pre') it' post' (by rw [e]; rfl))]
          exact ⟨fun e => ⟨hread, e⟩, fun e => e.2⟩
      | lt =>
        refine ⟨(fun e => by cases e), fun e => ?_⟩
        rw [hm.2 e.1] at hc
        cases hc
      | gt =>
        refine ⟨(fun e => by cases e), fun e => ?_⟩
        rw [hm.2 e.1] at hc
        cases hc

/-- What is left after a stretch is in the stretches behind it. -/
theorem iterAll_remaining {b : Base} {it : Iter} {pre post : List Node} (on : it.On b pre post)
    (hd : (b.nodes.map Node.id).Nodup) {fuel : Nat} (hfuel : post.length ≤ fuel) :
    ((iterAll b fuel it).map Iter.len).sum = it.len + it.remaining := by
  induction fuel generalizing it pre post with
  | zero =>
    obtain rfl : post = [] := List.length_eq_zero_iff.1 (by omega)
    have := on.rest
    rw [iterAll]
    simp only [lens, List.map_nil, List.sum_nil] at this
    simp
    omega
  | succ fuel ih =>
    rw [iterAll]
    rcases iterFwdNxt_cases on hd with ⟨h0, hn⟩ | ⟨m, ms, rfl, hpos, hn, on'⟩
    · rw [hn]
      simp [h0]
    · rw [hn]
      rw [List.map_cons, List.sum_cons, ih on' (by simpa using hfuel)]
      dsimp only
      omega

/-- `vstr_cmp_buf_eq` with a buffer as long as the slice. -/
theorem Window.cmpEq {buf : List UInt8} (w : Window E P s pos buf.length xs)
    (hbuf : 0 < buf.length) :
    Yields Reads (cmpBufEq pos buf.length buf) s (decide (xs = buf.map some)) := by
  have u := w.usable
  obtain ⟨it, b', pre, post, e, rfl, on, hsum, hlen, -, -, hslice⟩ :=
    iterFwdBeg_spec u.sound u.posOk w.one_le w.le_len hbuf
  have hns := nodes_of_core (core_basePos s.base pos true)
  have hd : ((basePos s.base pos true).2.nodes.map Node.id).Nodup := by
    rw [hns]
    exact u.sound.owned.nodes.nodup
  have hfuel : post.length ≤ (basePos s.base pos true).2.nodes.length := by
    rw [on.nodes]
    simp
    omega
  have c := iterAll_covers s.heap on hd hfuel
  have hall := iterAll_remaining on hd hfuel
  have hiff : cmpBufLoop s.heap buf
      (iterAll (basePos s.base pos true).2 (basePos s.base pos true).2.nodes.length it) = .eq ↔
      xs = buf.map some := by
    rw [cmpBufLoop_eq s.heap c.on
      (iterAll_pos (by rw [hns]; exact u.sound.valid.pos) hlen) (by rw [hall, hsum]) hbuf
      (fun pre' it' post' h => by
        have h1 := iterAll_sum _ pre' it' post' h
        rw [h, List.map_append, List.sum_append, List.map_cons, List.sum_cons] at hall
        omega), c.bytes, hsum, ← hslice, w.bytes]
  have e' : (cmpBufEq pos buf.length buf).run s =
      (decide (xs = buf.map some), ⟨s.heap, (basePos s.base pos true).2⟩) := by
    have ec : (cmpBuf pos buf.length buf).run s = (cmpBufLoop s.heap buf
        (iterAll (basePos s.base pos true).2 (basePos s.base pos true).2.nodes.length it),
        ⟨s.heap, (basePos s.base pos true).2⟩) := by
      change cmpBuf pos buf.length buf s = _
      rw [cmpBuf, e]
      dsimp only
      rw [if_neg (by omega)]
    rw [cmpBufEq, if_pos rfl, StateT.run_bind, ec]
    change (_ == Ordering.eq, _) = _
    congr 1
    rw [Bool.eq_iff_iff, beq_iff_eq, decide_eq_true_iff, hiff]
  refine ⟨?_, ?_⟩
  · rw [e']
  · rw [e']
    have := w.le_len
    exact reads_basePos u w.one_le (by omega)

end Vstr
