import Vstr.Cmp.Order
import Vstr.Model.FindCase
import Vstr.Srch.Span

/-!
# Searching forward for a buffer

`vstr_srch_buf_fwd` finds the first place of the bytes of the buffer, wherever the nodes of
the slice end.
-/

namespace Vstr

open Memory Splice Query Occur

variable {E : Env} {P : Own} {s : St} {h : Heap} {pos len : Nat} {xs rest : List (Option UInt8)}
  {as : List (Option UInt8)} {bs str : List UInt8} {its : List Iter} {it : Iter} {p : Addr}

/-- What `memchr` finds. -/
theorem memchr_cases (bs : List UInt8) (c : UInt8) :
    (memchr bs c = none ∧ c ∉ bs) ∨
      ∃ i, memchr bs c = some i ∧ bs[i]? = some c ∧ ∀ j < i, bs[j]? ≠ some c := by
  unfold memchr
  cases hf : bs.findIdx? (· = c) with
  | none =>
    refine .inl ⟨rfl, fun hc => ?_⟩
    rw [List.findIdx?_eq_none_iff] at hf
    exact absurd (hf c hc) (by simp)
  | some i =>
    obtain ⟨hi, hc, hn⟩ := List.findIdx?_eq_some_iff_getElem.1 hf
    refine .inr ⟨i, rfl, ?_, fun j hj e => ?_⟩
    · rw [List.getElem?_eq_getElem hi]
      simpa using hc
    · obtain ⟨hj', rfl⟩ := List.getElem?_eq_some_iff.1 e
      exact absurd (hn j hj) (by simp)

/-- The bytes of a slice from here to the end of a node. -/
structure InNode (E : Env) (P : Own) (s : St) (pos len : Nat) (as : List (Option UInt8))
    (bs : List UInt8) (rest : List (Option UInt8)) (it : Iter) (p : Addr) : Prop where
  /-- They are between the ones before and the ones of the nodes behind. -/
  window : Window E P s pos len (as ++ (bs.map some ++ rest))
  /-- Where they are. -/
  ptr : it.ptr s.heap = some p
  /-- What they are. -/
  bytes : read s.heap.mem p it.len = bs
  /-- What is behind. -/
  left : it.remaining = rest.length

section InNode

variable (n : InNode E P s pos len as bs rest it p)
include n

theorem InNode.length : bs.length = it.len := by rw [← n.bytes, length_read]

theorem InNode.pos_eq : it.pos pos len = pos + as.length := by
  have hl := n.window.length
  have hb := n.length
  have hr := n.left
  simp only [List.length_append, List.length_map] at hl
  unfold Iter.pos
  omega

theorem InNode.get {i : Nat} (hi : i < it.len) : (bs.map some ++ rest)[i]? = some (bs[i]?) := by
  have hb := n.length
  rw [List.getElem?_append_left (by rw [List.length_map]; omega), List.getElem?_map,
    List.getElem?_eq_getElem (by omega)]
  rfl

/-- Where too few bytes are left nothing begins. -/
theorem InNode.short (fold : UInt8 → UInt8) {ys : List (Option UInt8)} (hne : ys ≠ [])
    (h : it.len + it.remaining < ys.length ∨ it.len = 0) :
    Among ys (folded fold (bs.map some ++ rest)) (pos + as.length) it.len none := by
  intro i hi hp
  have hb := n.length
  have hr := n.left
  have hin := le_of_prefixed hp hne
  rw [length_folded, List.length_append, List.length_map] at hin
  omega

/-- Some bytes further. -/
theorem InNode.advance {t : St} (hr : Reads s t) (d : Nat) :
    InNode E P t pos len (as ++ (bs.take d).map some) (bs.drop d) rest
      { it with off := it.off + d, len := it.len - d } (p.add d) where
  window := by
    rw [List.append_assoc, ← List.append_assoc (List.map some (bs.take d)), ← List.map_append,
      List.take_append_drop]
    exact n.window.reads hr
  ptr := by
    rw [hr.heap, ptr_add, n.ptr]
    rfl
  bytes := by rw [hr.heap, ← n.bytes, drop_read]
  left := n.left

/-- What is found some bytes further, when nothing begins before. -/
theorem InNode.among (fold : UInt8 → UInt8) {ys : List (Option UInt8)} {d : Nat} {o : Option Nat}
    (hd : d ≤ it.len)
    (ho : Among ys (folded fold ((bs.drop d).map some ++ rest))
      (pos + (as ++ (bs.take d).map some).length) (it.len - d) o)
    (hn : ∀ i < d, ¬ ys <+: (folded fold (bs.map some ++ rest)).drop i) :
    Among ys (folded fold (bs.map some ++ rest)) (pos + as.length) it.len o := by
  have hb := n.length
  have hz : (folded fold (bs.map some ++ rest)).drop d =
      folded fold ((bs.drop d).map some ++ rest) := by
    rw [folded, ← List.map_drop, List.drop_append_of_le_length (by rw [List.length_map]; omega),
      List.map_drop, folded]
  have hk : (as ++ (bs.take d).map some).length = as.length + d := by
    rw [List.length_append, List.length_map, List.length_take, Nat.min_eq_left (by omega)]
  rw [hk, ← Nat.add_assoc, ← hz] at ho
  exact ho.behind hn

/-- The string begins here if its part in the node is here, and the rest behind. -/
theorem InNode.prefix_iff {str : List UInt8} {tmp : Nat} (ht : min it.len str.length = tmp)
    (hle : str.length ≤ it.len + it.remaining) :
    str.map some <+: bs.map some ++ rest ↔
      memcmp (read s.heap.mem p tmp) (str.take tmp) = .eq ∧
        ((bs.map some ++ rest).drop tmp).take (str.length - tmp) = (str.drop tmp).map some := by
  have hb := n.length
  have hr := n.left
  have hread : (read s.heap.mem p tmp).length = (str.take tmp).length := by
    rw [length_read, List.length_take]
    omega
  have hz : (bs.map some ++ rest).take tmp = (read s.heap.mem p tmp).map some := by
    rw [List.take_append_of_le_length (by rw [List.length_map]; omega), ← List.map_take,
      ← n.bytes, take_read _ _ (by omega)]
  have hparts : str.map some <+: bs.map some ++ rest ↔ _ :=
    prefix_iff_parts (n := tmp) (by rw [List.length_map]; omega)
      (by simp only [List.length_append, List.length_map]; omega)
  rw [hz, ← List.map_take, ← List.map_drop, List.length_map,
    List.map_inj_right fun _ _ h => Option.some.inj h, ← memcmp_eq_iff hread] at hparts
  exact hparts

/-- The comparison with the bytes behind the node. -/
theorem InNode.cmpRest {str : List UInt8} {tmp : Nat} (ht : min it.len str.length = tmp)
    (hle : str.length ≤ it.len + it.remaining) (hne : tmp ≠ str.length)
    (hm : memcmp (read s.heap.mem p tmp) (str.take tmp) = .eq) :
    Ensures Reads (cmpBuf (pos + as.length + tmp) (str.length - tmp) (str.drop tmp)) s
      fun o => o = .eq ↔ str.map some <+: bs.map some ++ rest := by
  have hl := n.window.length
  have hb := n.length
  have hr := n.left
  simp only [List.length_append, List.length_map] at hl
  have w : Window E P s (pos + as.length + tmp) (str.length - tmp)
      (((bs.map some ++ rest).drop tmp).take (str.length - tmp)) := by
    have hw := (n.window.drop (k := as.length + tmp) (by omega)).take
      (k := str.length - tmp) (by omega)
    rwa [List.drop_append, List.drop_eq_nil_of_le (by omega), List.nil_append,
      Nat.add_sub_cancel_left, ← Nat.add_assoc] at hw
  rw [cmpBuf_eq_cmpAnyBuf]
  refine (cmpAnyBuf_yields w (.bytes (str.drop tmp))).ensures ?_
  rw [n.prefix_iff ht hle, Std.LawfulEqCmp.compare_eq_iff_eq]
  exact ⟨fun h => ⟨hm, h⟩, fun h => h.2⟩

end InNode

/-- The bytes that `memchr` passes over begin nothing. -/
theorem InNode.not_prefix (n : InNode E P s pos len as bs rest it p) {c : UInt8}
    {cs : List UInt8} {i : Nat} (hi : i < it.len) (hc : bs[i]? ≠ some c) :
    ¬ (c :: cs).map some <+: (bs.map some ++ rest).drop i := by
  refine not_prefix_of_ne ?_
  rw [n.get hi]
  exact fun e => hc (Option.some.inj e)

/-- What is tried where the first byte is found. -/
theorem srchBufNode_here {c : UInt8} {cs : List UInt8} {fuel : Nat}
    (n : InNode E P s pos len as bs rest it p)
    (hle : (c :: cs).length ≤ it.len + it.remaining)
    (hnext : ∀ t, Reads s t → ¬ (c :: cs).map some <+: bs.map some ++ rest →
      Ensures Reads (srchBufNode pos len (c :: cs) fuel
        { it with off := it.off + 1, len := it.len - 1 }) t
        (Among ((c :: cs).map some) (bs.map some ++ rest) (pos + as.length) it.len))
    {tmp : Nat} (ht : min it.len (c :: cs).length = tmp) {r : Option Nat × St}
    (hr : r = if memcmp (read s.heap.mem p tmp) ((c :: cs).take tmp) ≠ .eq then
        srchBufNode pos len (c :: cs) fuel { it with off := it.off + 1, len := it.len - 1 } s
      else if tmp = (c :: cs).length then (some (pos + as.length), s)
      else
        match cmpBuf (pos + as.length + tmp) ((c :: cs).length - tmp) ((c :: cs).drop tmp) s with
        | (.eq, s) => (some (pos + as.length), s)
        | (_, s) =>
          srchBufNode pos len (c :: cs) fuel { it with off := it.off + 1, len := it.len - 1 } s) :
    Among ((c :: cs).map some) (bs.map some ++ rest) (pos + as.length) it.len r.1 ∧
      Reads s r.2 := by
  have hparts := n.prefix_iff ht hle
  have hfound : (c :: cs).map some <+: bs.map some ++ rest →
      Among ((c :: cs).map some) (bs.map some ++ rest) (pos + as.length) it.len
        (some (pos + as.length)) := fun hp =>
    ⟨by have := n.window.one_le; omega, .here hp⟩
  by_cases hm : memcmp (read s.heap.mem p tmp) ((c :: cs).take tmp) = .eq
  · rw [if_neg (not_not_intro hm)] at hr
    by_cases hfull : tmp = (c :: cs).length
    · have hp : (c :: cs).map some <+: bs.map some ++ rest := by
        refine hparts.2 ⟨hm, ?_⟩
        rw [hfull, Nat.sub_self, List.take_zero, List.drop_length, List.map_nil]
      rw [if_pos hfull] at hr
      rw [hr]
      exact ⟨hfound hp, Std.Refl.refl s⟩
    · obtain ⟨ho, hread⟩ := n.cmpRest ht hle hfull hm
      unfold StateT.run at ho hread
      rw [if_neg hfull] at hr
      generalize cmpBuf (pos + as.length + tmp) ((c :: cs).length - tmp)
        ((c :: cs).drop tmp) s = x at ho hread hr
      obtain ⟨o, t⟩ := x
      have hlater := fun hne : o ≠ .eq => hnext t hread fun hp => hne (ho.2 hp)
      rw [hr]
      cases o with
      | eq => exact ⟨hfound (ho.1 rfl), hread⟩
      | lt =>
        obtain ⟨ha, hr'⟩ := hlater (by decide)
        exact ⟨ha, IsTrans.trans _ _ _ hread hr'⟩
      | gt =>
        obtain ⟨ha, hr'⟩ := hlater (by decide)
        exact ⟨ha, IsTrans.trans _ _ _ hread hr'⟩
  · rw [if_pos hm] at hr
    rw [hr]
    exact hnext s (Std.Refl.refl s) fun hp => hm (hparts.1 hp).1

/-- The search of `vstr_srch_buf_fwd` in one node. -/
theorem srchBufNode_ensures {c : UInt8} {cs : List UInt8} {fuel : Nat}
    (n : InNode E P s pos len as bs rest it p) (hf : it.len < fuel) :
    Ensures Reads (srchBufNode pos len (c :: cs) fuel it) s
      (Among ((c :: cs).map some) (bs.map some ++ rest) (pos + as.length) it.len) := by
  induction fuel generalizing s it p as bs with
  | zero => omega
  | succ fuel ih =>
    have hadv : ∀ (d : Nat) (t : St), 1 ≤ d → d ≤ it.len → Reads s t →
        (∀ i < d, ¬ (c :: cs).map some <+: (bs.map some ++ rest).drop i) →
        Ensures Reads (srchBufNode pos len (c :: cs) fuel
          { it with off := it.off + d, len := it.len - d }) t
          (Among ((c :: cs).map some) (bs.map some ++ rest) (pos + as.length) it.len) := by
      intro d t h1 hd hr hn
      refine (ih (n.advance hr d) (by dsimp only; omega)).mono fun o ho => ?_
      have h := n.among id hd (by rwa [folded_id]) (by rwa [folded_id])
      rwa [folded_id] at h
    change Among _ _ _ _ (srchBufNode pos len (c :: cs) (fuel + 1) it s).1 ∧
      Reads s (srchBufNode pos len (c :: cs) (fuel + 1) it s).2
    rw [srchBufNode]
    dsimp only
    by_cases hshort : it.len + it.remaining < (c :: cs).length ∨ it.len = 0
    · rw [if_pos hshort]
      have h := n.short id (List.cons_ne_nil (some c) (cs.map some))
        (by rwa [← List.map_cons, List.length_map])
      rw [folded_id] at h
      exact ⟨h, Std.Refl.refl s⟩
    rw [if_neg hshort, n.ptr]
    dsimp only
    rw [n.bytes, List.headD_cons]
    rcases memchr_cases bs c with ⟨e, hc⟩ | ⟨i, e, hi, hn⟩
    · rw [e]
      exact ⟨fun i hi => n.not_prefix hi fun e => hc (List.mem_of_getElem? e), Std.Refl.refl s⟩
    have hilt : i < it.len := by
      rw [← n.length]
      exact (List.getElem?_eq_some_iff.1 hi).1
    rw [e]
    cases i with
    | succ i =>
      exact hadv (i + 1) s (by omega) (by omega) (Std.Refl.refl s)
        fun j hj => n.not_prefix (by omega) (hn j hj)
    | zero =>
      dsimp only
      rw [n.pos_eq]
      refine srchBufNode_here n (by omega) (fun t hr hn => ?_) rfl rfl
      refine hadv 1 t (Nat.le_refl 1) (by omega) hr fun j hj => ?_
      obtain rfl : j = 0 := by omega
      exact hn

/-- No known byte is at an unknown one. -/
theorem not_prefix_replicate {c : UInt8} {ys zs : List (Option UInt8)} {n i : Nat} (hi : i < n) :
    ¬ some c :: ys <+: (List.replicate n none ++ zs).drop i := by
  refine not_prefix_of_ne ?_
  rw [List.getElem?_append_left (by rw [List.length_replicate]; exact hi), List.getElem?_replicate,
    if_pos hi]
  simp

/-- The search of `vstr_srch_buf_fwd` in one node of a walk. -/
theorem srchBufNode_walk {c : UInt8} {cs : List UInt8} {zs : List (Option UInt8)}
    (w : Window E P s pos len (as ++ zs)) (hw : Walk s.heap (it :: its) zs) :
    Ensures Reads (srchBufNode pos len (c :: cs) (it.len + 1) it) s
      (Among ((c :: cs).map some) zs (pos + as.length) it.len) := by
  cases hw with
  | @non _ _ zs ptr hp hrest walk =>
    have e : (srchBufNode pos len (c :: cs) (it.len + 1) it).run s = (none, s) := by
      change srchBufNode pos len (c :: cs) (it.len + 1) it s = _
      rw [srchBufNode]
      dsimp only
      rw [ptr]
      split <;> rfl
    rw [Ensures, e]
    exact ⟨fun i hi => not_prefix_replicate hi, Std.Refl.refl s⟩
  | @data _ _ zs p ptr hp hrest walk =>
    exact srchBufNode_ensures ⟨w, ptr, rfl, hrest⟩ (Nat.lt_succ_self _)

/-- A loop over the nodes finds the first place, if its search in a node finds those that
begin there. -/
theorem srchNodeLoop_ensures {fold : UInt8 → UInt8} {node : Iter → StateM St (Option Nat)}
    {ys zs : List (Option UInt8)} (hne : ys ≠ [])
    (hnode : ∀ t it its as zs, Window E P t pos len (as ++ zs) → Walk t.heap (it :: its) zs →
      Ensures Reads (node it) t (Among ys (folded fold zs) (pos + as.length) it.len))
    (w : Window E P s pos len (as ++ zs)) (hw : Walk s.heap its zs) :
    Ensures Reads (srchNodeLoop node ys.length its) s
      (First ys (folded fold zs) (pos + as.length)) := by
  induction its generalizing s as zs with
  | nil =>
    cases hw
    exact .pure s (.short hne (List.length_pos_iff.2 hne))
  | cons it its ih =>
    have hl := hw.length_eq
    rw [srchNodeLoop]
    by_cases hshort : it.len + it.remaining < ys.length
    · rw [if_pos hshort]
      refine .pure s (.short hne ?_)
      rw [length_folded]
      omega
    · rw [if_neg hshort]
      refine (hnode s it its as zs w hw).bind fun o t hr ho => ?_
      cases o with
      | some r => exact .pure t ho.2
      | none =>
        have w' : Window E P t pos len (as ++ zs.take it.len ++ zs.drop it.len) := by
          rw [List.append_assoc, List.take_append_drop]
          exact w.reads hr
        have hw' : Walk t.heap its (zs.drop it.len) := by
          have hd := hw.drop (Nat.le_refl it.len)
          rwa [iterDrop_all (Nat.le_refl _), ← hr.heap] at hd
        refine (ih w' hw').mono fun r hf => ?_
        rw [List.length_append, List.length_take, Nat.min_eq_left (by omega), ← Nat.add_assoc,
          folded_drop] at hf
        exact hf.behind ho

theorem srchBufLoop_eq (pos len : Nat) (str : List UInt8) (its : List Iter) :
    srchBufLoop pos len str its =
      srchNodeLoop (fun it => srchBufNode pos len str (it.len + 1) it) str.length its := by
  induction its with
  | nil => rfl
  | cons it its ih =>
    rewrite [srchBufLoop, srchNodeLoop, ih]
    rfl

/-- The loop of `vstr_srch_buf_fwd` over the nodes. -/
theorem srchBufLoop_ensures {c : UInt8} {cs : List UInt8} {zs : List (Option UInt8)}
    (w : Window E P s pos len (as ++ zs)) (hw : Walk s.heap its zs) :
    Ensures Reads (srchBufLoop pos len (c :: cs) its) s
      (First ((c :: cs).map some) zs (pos + as.length)) := by
  have h := @srchNodeLoop_ensures _ _ _ pos len _ _ id
    (fun it => srchBufNode pos len (c :: cs) (it.len + 1) it) ((c :: cs).map some) _ (by simp)
    (fun t it its as zs w hw => by
      rw [folded_id]
      exact srchBufNode_walk w hw) w hw
  rwa [folded_id, List.length_map, ← srchBufLoop_eq] at h

/-- Unknown bytes in the middle of unknown bytes are at their beginning as well. -/
theorem replicate_prefix_of_drop {n i k : Nat} {zs : List (Option UInt8)} (hi : i ≤ n)
    (hp : List.replicate k none <+: (List.replicate n none ++ zs).drop i) :
    List.replicate k none <+: List.replicate n none ++ zs := by
  rw [List.drop_append_of_le_length (by rw [List.length_replicate]; exact hi),
    List.drop_replicate] at hp
  have hn : List.replicate n (none : Option UInt8) ++ zs =
      List.replicate i none ++ (List.replicate (n - i) none ++ zs) := by
    rw [← List.append_assoc, List.replicate_append_replicate, Nat.add_sub_cancel' hi]
  rw [hn]
  have hk : List.replicate k (none : Option UInt8) <+:
      List.replicate i none ++ List.replicate k none := by
    rw [List.replicate_append_replicate, Nat.add_comm, ← List.replicate_append_replicate]
    exact List.prefix_append _ _
  exact hk.trans ((List.prefix_append_right_inj _).2 hp)

/-- A part of the slice. -/
theorem Window.part {zs : List (Option UInt8)} (w : Window E P s pos len (as ++ zs)) {k : Nat}
    (hk : k ≤ zs.length) : Window E P s (pos + as.length) k (zs.take k) := by
  have hlen := w.length
  rw [List.length_append] at hlen
  have hw := (w.drop (k := as.length) (by omega)).take (k := k) (by omega)
  rwa [List.drop_left] at hw

/-- The loop of `vstr_srch_buf_fwd` for `NULL`. -/
theorem srchNonLoop_ensures {strLen : Nat} {zs : List (Option UInt8)} (hs : strLen ≠ 0)
    (w : Window E P s pos len (as ++ zs)) (hh : s.heap = h) (hw : Walk h its zs) :
    Ensures Reads (srchNonLoop pos len strLen its) s
      (First (List.replicate strLen none) zs (pos + as.length)) := by
  have hne : List.replicate strLen (none : Option UInt8) ≠ [] := by
    simpa using hs
  induction hw generalizing s as with
  | nil => exact .pure s (.short hne (by simp; omega))
  | @non it its zs ptr hp hrest walk ih =>
    have hl := w.length
    rw [List.length_append, List.length_append, List.length_replicate] at hl
    have hpos : it.pos pos len = pos + as.length := by
      unfold Iter.pos
      omega
    change First _ _ _ (srchNonLoop pos len strLen (it :: its) s).1 ∧
      Reads s (srchNonLoop pos len strLen (it :: its) s).2
    rw [srchNonLoop]
    dsimp only
    by_cases hshort : it.len + it.remaining < strLen
    · rw [if_pos hshort]
      refine ⟨.short hne ?_, Std.Refl.refl s⟩
      rwa [List.length_append, List.length_replicate, List.length_replicate, ← hrest]
    · rw [if_neg hshort, hh, ptr, hpos]
      dsimp only
      have hlen : strLen ≤ (List.replicate it.len none ++ zs).length := by
        rw [List.length_append, List.length_replicate]
        omega
      obtain ⟨hc, hr⟩ := cmpAnyBuf_yields (w.part hlen) (.null strLen)
      change (cmpAnyBuf (pos + as.length) strLen (.null strLen) s).1 = _ at hc
      change Reads s (cmpAnyBuf (pos + as.length) strLen (.null strLen) s).2 at hr
      generalize cmpAnyBuf (pos + as.length) strLen (.null strLen) s = r at hc hr
      obtain ⟨o, t⟩ := r
      dsimp only at hc hr ⊢
      have ho : o = .eq ↔ List.replicate strLen none <+: List.replicate it.len none ++ zs := by
        rw [hc, Std.LawfulEqCmp.compare_eq_iff_eq, List.prefix_iff_eq_take, List.length_replicate,
          eq_comm]
        rfl
      have hnext : o ≠ .eq → Ensures Reads (srchNonLoop pos len strLen its) t
          (First (List.replicate strLen none) (List.replicate it.len none ++ zs)
            (pos + as.length)) := by
        intro hno
        have w' : Window E P t pos len (as ++ List.replicate it.len none ++ zs) := by
          rw [List.append_assoc]
          exact w.reads hr
        refine (ih w' (hr.heap.trans hh)).mono fun r hf => ?_
        refine First.behind (k := it.len) ?_ fun i hi hpre =>
          hno (ho.2 (replicate_prefix_of_drop (by omega) hpre))
        rw [List.length_append, List.length_replicate, ← Nat.add_assoc] at hf
        rwa [List.drop_left' List.length_replicate]
      cases o with
      | eq => exact ⟨.here (ho.1 rfl), hr⟩
      | lt =>
        obtain ⟨hf, hr'⟩ := hnext (by simp)
        exact ⟨hf, IsTrans.trans _ _ _ hr hr'⟩
      | gt =>
        obtain ⟨hf, hr'⟩ := hnext (by simp)
        exact ⟨hf, IsTrans.trans _ _ _ hr hr'⟩
  | @data it its zs p ptr hp hrest walk ih =>
    change First _ _ _ (srchNonLoop pos len strLen (it :: its) s).1 ∧
      Reads s (srchNonLoop pos len strLen (it :: its) s).2
    rw [srchNonLoop]
    dsimp only
    by_cases hshort : it.len + it.remaining < strLen
    · rw [if_pos hshort]
      refine ⟨.short hne ?_, Std.Refl.refl s⟩
      rwa [List.length_append, List.length_map, length_read, List.length_replicate, ← hrest]
    · rw [if_neg hshort, hh, ptr]
      dsimp only
      have w' : Window E P s pos len (as ++ (read h.mem p it.len).map some ++ zs) := by
        rw [List.append_assoc]
        exact w
      obtain ⟨hf, hr⟩ := ih w' hh
      refine ⟨First.behind (k := it.len) ?_ fun i hi hpre => ?_, hr⟩
      · rw [List.length_append, List.length_map, length_read, ← Nat.add_assoc] at hf
        rwa [List.drop_left' (by rw [List.length_map, length_read])]
      · obtain ⟨k, rfl⟩ : ∃ k, strLen = k + 1 := ⟨strLen - 1, by omega⟩
        refine not_prefix_of_ne ?_ hpre
        rw [List.getElem?_append_left (by rw [List.length_map, length_read]; exact hi),
          List.getElem?_map, getElem?_read, if_pos hi]
        simp

/-- A search from the start of its iterator on. -/
theorem Window.started (w : Window E P s pos len xs) (hl : 0 < len)
    (loop : List Iter → StateM St Nat) {Q : Nat → Prop}
    (h : ∀ t its, Reads s t → Walk t.heap its xs → Ensures Reads (loop its) t Q) :
    Ensures Reads (fun s => match iterFwdBeg s pos len with
      | (none, s) => (0, s)
      | (some it, s) => loop (iterAll s.base s.base.nodes.length it) s : StateM St Nat) s Q := by
  obtain ⟨it, t, e, hr, -, hw⟩ := w.walk hl
  rw [← hr.heap] at hw
  obtain ⟨hq, hr'⟩ := h t _ hr hw
  have e' : StateT.run (fun s => match iterFwdBeg s pos len with
      | (none, s) => (0, s)
      | (some it, s) => loop (iterAll s.base s.base.nodes.length it) s : StateM St Nat) s =
      (loop (iterAll t.base t.base.nodes.length it)).run t := by
    change (match iterFwdBeg s pos len with
      | (none, s) => (0, s)
      | (some it, s) => loop (iterAll s.base s.base.nodes.length it) s : Id (Nat × St)) = _
    rw [e]
    rfl
  rw [Ensures, e']
  exact ⟨hq, IsTrans.trans _ _ _ hr hr'⟩

/-- `vstr_srch_buf_fwd` for a buffer that is not `NULL`. -/
theorem Window.srchBufFirst (w : Window E P s pos len xs) (hs : str ≠ []) :
    Ensures Reads (srchBufFwd pos len str) s (First (str.map some) xs pos) := by
  have hl := w.length
  obtain ⟨c, cs, rfl⟩ := List.exists_cons_of_ne_nil hs
  unfold srchBufFwd
  by_cases hshort : len = 0 ∨ (c :: cs).length > len
  · rw [if_pos hshort]
    refine .pure s (.short (by simp) ?_)
    rw [List.length_map]
    rcases hshort with rfl | h
    · rw [hl]
      exact Nat.succ_pos _
    · omega
  · rw [if_neg hshort]
    cases cs with
    | nil => exact w.chrFirst c
    | cons d cs =>
      refine w.started (by omega) (srchBufLoop pos len (c :: d :: cs)) fun t its hr hw => ?_
      have h : Ensures Reads (srchBufLoop pos len (c :: d :: cs) its) t
          (First _ xs (pos + ([] : List (Option UInt8)).length)) :=
        srchBufLoop_ensures (w.reads hr) hw
      exact h

/-- `vstr_srch_buf_fwd` for `NULL`. -/
theorem Window.srchNonFirst (w : Window E P s pos len xs) {strLen : Nat} (hs : strLen ≠ 0) :
    Ensures Reads (srchNonFwd pos len strLen) s (First (List.replicate strLen none) xs pos) := by
  have hl := w.length
  have hne : List.replicate strLen (none : Option UInt8) ≠ [] := by
    simpa using hs
  change First _ _ _ (srchNonFwd pos len strLen s).1 ∧ Reads s (srchNonFwd pos len strLen s).2
  rw [srchNonFwd]
  by_cases hshort : len = 0 ∨ strLen > len
  · rw [if_pos hshort]
    refine ⟨.short hne ?_, Std.Refl.refl s⟩
    rw [List.length_replicate]
    omega
  rw [if_neg hshort, if_neg hs]
  by_cases hn : s.base.nodeUsed .non = true
  · rw [if_neg (by simpa using hn)]
    refine w.started (by omega) (srchNonLoop pos len strLen) fun t its hr hw => ?_
    have h : Ensures Reads (srchNonLoop pos len strLen its) t
        (First _ xs (pos + ([] : List (Option UInt8)).length)) :=
      srchNonLoop_ensures hs (w.reads hr) rfl hw
    exact h
  · rw [if_pos hn]
    refine ⟨.inl ⟨rfl, fun i hp => ?_⟩, Std.Refl.refl s⟩
    obtain ⟨k, rfl⟩ : ∃ k, strLen = k + 1 := ⟨strLen - 1, by omega⟩
    have hm := List.mem_of_mem_drop (hp.subset List.mem_cons_self)
    exact w.none_not_mem (by simpa using hn) hm

/-- `vstr_srch_buf_fwd`. -/
theorem Window.bufFirst (w : Window E P s pos len xs) {buf : Buf} (hb : buf.len ≠ 0) :
    Ensures Reads (srchAnyBufFwd pos len buf) s (First buf.contents xs pos) := by
  cases buf with
  | bytes str => exact w.srchBufFirst (List.ne_nil_of_length_pos (Nat.pos_of_ne_zero hb))
  | null strLen => exact w.srchNonFirst hb

/-- `vstr__srch_buf_rev_slow`. -/
theorem Window.bufRevSlow (w : Window E P s pos len xs) {buf : Buf} (hb : buf.len ≠ 0) :
    Ensures Reads (srchBufRevSlow pos len buf) s (Last buf.contents xs pos) := by
  refine srchRevLoop_last w.one_le (Buf.contents_ne_nil hb) (Nat.le_of_eq w.length)
    (fun k t hr hk _ => ?_) fun k hk hm i hi => ?_
  · exact ((w.reads hr).drop hk).bufFirst hb
  · have hin := le_of_prefixed hi (Buf.contents_ne_nil hb)
    rw [List.length_drop, Buf.length_contents, w.length] at hin
    simp only [ge_iff_le, decide_eq_false_iff_not, not_le] at hm
    omega

end Vstr
