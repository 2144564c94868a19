import Vstr.Export.Forward
import Vstr.Srch.Walk

/-!
# Exporting into vectors

A slice goes into the buffers of some vectors one after the other, as far as there is room, or
vectors are made that point to the slice.
-/

namespace Vstr.Fwd

open Memory Splice

variable {E : Env} {P : Own} {s : St} {b : Base} {h : Heap} {it : Iter} {o : Option Iter}
  {pre post : List Node} {pos len k n u fuel : Nat} {xs ys : List (Option UInt8)} {p : Addr}
  {iovs : List (Addr × Nat)}

/-! ## Buffers -/

/-- The room in some vectors. -/
def room (iovs : List (Addr × Nat)) : Nat := (iovs.map Prod.snd).sum

/-- Bytes go to the buffers of some vectors. -/
def spread : List (Addr × Nat) → List (Option UInt8) → Mem Blk UInt8 → Mem Blk UInt8
  | [], _, m => m
  | v :: vs, xs, m => spread vs (xs.drop v.2) (patch m v.1 (xs.take v.2))

/-- The vectors that have bytes in them, and are as long as those. -/
def trimmed : List (Addr × Nat) → Nat → List (Addr × Nat)
  | [], _ => []
  | v :: vs, len => if len = 0 then [] else (v.1, min v.2 len) :: trimmed vs (len - v.2)

/-- How many vectors are full, and how many bytes are in the next one. -/
def fillAt : List (Addr × Nat) → Nat → Nat × Nat
  | [], _ => (0, 0)
  | v :: vs, len =>
    if v.2 ≤ len then ((fillAt vs (len - v.2)).1 + 1, (fillAt vs (len - v.2)).2) else (0, len)

theorem spread_nil (iovs : List (Addr × Nat)) (m : Mem Blk UInt8) : spread iovs [] m = m := by
  induction iovs generalizing m with
  | nil => rfl
  | cons v vs ih => rw [spread, List.drop_nil, List.take_nil, patch_nil, ih]

theorem trimmed_zero (iovs : List (Addr × Nat)) : trimmed iovs 0 = [] := by
  cases iovs with
  | nil => rfl
  | cons v vs => exact if_pos rfl

theorem fillAt_zero (hv : ∀ v ∈ iovs, 0 < v.2) : fillAt iovs 0 = (0, 0) := by
  cases iovs with
  | nil => rfl
  | cons v vs =>
    have := hv v List.mem_cons_self
    exact if_neg (by omega)

/-- The vectors at the end: the last one is shortened. -/
theorem finish_eq (hv : ∀ v ∈ iovs, 0 < v.2) (len : Nat) :
    (if (fillAt iovs len).2 = 0 then (iovs, (fillAt iovs len).1)
      else (iovs.modify (fillAt iovs len).1 fun v => (v.1, (fillAt iovs len).2),
        (fillAt iovs len).1 + 1)) =
      (trimmed iovs len ++ iovs.drop (trimmed iovs len).length, (trimmed iovs len).length) := by
  induction iovs generalizing len with
  | nil => rfl
  | cons v vs ih =>
    have hpos := hv v List.mem_cons_self
    have ih' := ih (fun v hm => hv v (List.mem_cons_of_mem _ hm)) (len - v.2)
    by_cases hle : v.2 ≤ len
    · have hf : fillAt (v :: vs) len =
          ((fillAt vs (len - v.2)).1 + 1, (fillAt vs (len - v.2)).2) := if_pos hle
      have ht : trimmed (v :: vs) len = v :: trimmed vs (len - v.2) := by
        rw [trimmed, if_neg (by omega), Nat.min_eq_left hle]
      rw [hf, ht, List.length_cons, List.drop_succ_cons, List.cons_append]
      dsimp only
      split
      · rename_i h0
        rw [if_pos h0, Prod.mk.injEq] at ih'
        rw [← ih'.1, ← ih'.2]
      · rename_i h0
        rw [if_neg h0, Prod.mk.injEq] at ih'
        rw [List.modify_succ_cons, ih'.1, ← ih'.2]
    · have hf : fillAt (v :: vs) len = (0, len) := if_neg hle
      by_cases h0 : len = 0
      · subst h0
        rw [hf, trimmed_zero]
        rfl
      · have ht : trimmed (v :: vs) len = [(v.1, len)] := by
          rw [trimmed, if_neg h0, Nat.min_eq_right (by omega), Nat.sub_eq_zero_of_le (by omega),
            trimmed_zero]
        rw [hf, ht]
        dsimp only
        rw [if_neg h0]
        rfl

/-- The memory after the next bytes were copied. -/
theorem copyOut_patch (on : it.On b pre post) (rest : it.rest h post = xs) (hk : k ≤ it.len) :
    copyOut h it p k = h.setMem (patch h.mem p (xs.take k)) := by
  rw [copyOut_eq on hk, rest]

/-- What the copying loop of `vstr_export_iovec_cpy_buf` does from somewhere in a vector on. -/
structure Copied (f : Filled) (p : Addr) (n : Nat) (vs : List (Addr × Nat))
    (xs : List (Option UInt8)) (f' : Filled) : Prop where
  /-- The memory. -/
  heap : f'.heap = f.heap.setMem
    (spread vs (xs.drop (n - f.used)) (patch f.heap.mem (p.add f.used) (xs.take (n - f.used))))
  /-- The length. -/
  retLen : f'.retLen = f.retLen + min xs.length (n - f.used + room vs)
  /-- The vectors. -/
  retNum : f'.retNum = f.retNum + (fillAt ((p, n) :: vs) (f.used + xs.length)).1
  /-- Bytes in the last one. -/
  used : f'.used = (fillAt ((p, n) :: vs) (f.used + xs.length)).2

/-- A turn of the loop. -/
def Filled.turn (f : Filled) (p : Addr) (n k : Nat) (xs : List (Option UInt8)) : Filled where
  heap := f.heap.setMem (patch f.heap.mem (p.add f.used) (xs.take k))
  retNum := if n = f.used + k then f.retNum + 1 else f.retNum
  used := if n = f.used + k then 0 else f.used + k
  retLen := f.retLen + k

section Turn

variable {f f' : Filled} {vs : List (Addr × Nat)}

/-- The vector is full, and nothing is left, or no vector. -/
theorem copied_full (hn : n = f.used + k) (hk : k ≤ xs.length) (hv : ∀ v ∈ vs, 0 < v.2)
    (hd : vs = [] ∨ xs.drop k = []) : Copied f p n vs xs (f.turn p n k xs) := by
  have hnu : n - f.used = k := by omega
  have hrest : f.used + xs.length - n = (xs.drop k).length := by
    rw [List.length_drop]
    omega
  have hfill : fillAt ((p, n) :: vs) (f.used + xs.length) = (1, 0) := by
    have hstep : fillAt ((p, n) :: vs) (f.used + xs.length) =
        ((fillAt vs (xs.drop k).length).1 + 1, (fillAt vs (xs.drop k).length).2) := by
      rw [← hrest]
      exact if_pos (show n ≤ f.used + xs.length by omega)
    rw [hstep]
    rcases hd with rfl | hd
    · rfl
    · rw [hd, List.length_nil, fillAt_zero hv]
  refine ⟨?_, ?_, ?_, ?_⟩
  · rw [hnu]
    rcases hd with rfl | hd
    · rfl
    · rw [hd, spread_nil]
      rfl
  · show f.retLen + k = _
    rw [hnu]
    rcases hd with rfl | hd
    · show f.retLen + k = f.retLen + min xs.length (k + 0)
      omega
    · have := List.drop_eq_nil_iff.1 hd
      omega
  · rw [hfill]
    exact if_pos hn
  · rw [hfill]
    exact if_pos hn

/-- The vector is full, and it goes on with the next one. -/
theorem Copied.full {q : Addr} {m : Nat} (hn : n = f.used + k) (hk : k ≤ xs.length)
    (c : Copied (f.turn p n k xs) q m vs (xs.drop k) f') : Copied f p n ((q, m) :: vs) xs f' := by
  have hnu : n - f.used = k := by omega
  have hu : (f.turn p n k xs).used = 0 := if_pos hn
  have hr : (f.turn p n k xs).retNum = f.retNum + 1 := if_pos hn
  have hrest : f.used + xs.length - n = (xs.drop k).length := by
    rw [List.length_drop]
    omega
  have hstep : fillAt ((p, n) :: (q, m) :: vs) (f.used + xs.length) =
      ((fillAt ((q, m) :: vs) (xs.drop k).length).1 + 1,
        (fillAt ((q, m) :: vs) (xs.drop k).length).2) := by
    rw [← hrest]
    exact if_pos (show n ≤ f.used + xs.length by omega)
  refine ⟨?_, ?_, ?_, ?_⟩
  · rw [c.heap, hu, hnu, Nat.sub_zero]
    rfl
  · rw [c.retLen, hu]
    show f.retLen + k + min (xs.drop k).length (m - 0 + room vs) =
      f.retLen + min xs.length (n - f.used + room ((q, m) :: vs))
    have hroom : room ((q, m) :: vs) = m + room vs := List.sum_cons
    rw [List.length_drop, hroom]
    omega
  · rw [c.retNum, hu, hr, hstep, Nat.zero_add]
    show f.retNum + 1 + _ = f.retNum + (_ + 1)
    omega
  · rw [c.used, hu, hstep, Nat.zero_add]

/-- Nothing is left, and the vector is not full. -/
theorem copied_short (hn : f.used + k < n) (hk : k ≤ xs.length) (hd : xs.drop k = []) :
    Copied f p n vs xs (f.turn p n k xs) := by
  have hlen : xs.length = k := by
    have := List.drop_eq_nil_iff.1 hd
    omega
  have hstep : fillAt ((p, n) :: vs) (f.used + xs.length) = (0, f.used + xs.length) :=
    if_neg (show ¬ n ≤ f.used + xs.length by omega)
  refine ⟨?_, ?_, ?_, ?_⟩
  · rw [List.drop_eq_nil_of_le (by omega), spread_nil, List.take_of_length_le (by omega)]
    show f.heap.setMem (patch f.heap.mem (p.add f.used) (xs.take k)) = _
    rw [List.take_of_length_le (by omega)]
  · show f.retLen + k = _
    omega
  · rw [hstep]
    exact if_neg (by omega)
  · rw [hstep, hlen]
    exact if_neg (by omega)

/-- The vector is not full, and it goes on. -/
theorem Copied.short (hn : f.used + k < n) (hk : k ≤ xs.length)
    (c : Copied (f.turn p n k xs) p n vs (xs.drop k) f') : Copied f p n vs xs f' := by
  have hu : (f.turn p n k xs).used = f.used + k := if_neg (by omega)
  have hr : (f.turn p n k xs).retNum = f.retNum := if_neg (by omega)
  have hlen : f.used + k + (xs.drop k).length = f.used + xs.length := by
    rw [List.length_drop]
    omega
  have hsub : k + (n - (f.used + k)) = n - f.used := by omega
  have htk : (xs.take k).length = k := by
    rw [List.length_take]
    omega
  have hpatch := patch_append f.heap.mem (p.add f.used) (xs.take k)
    ((xs.drop k).take (n - (f.used + k)))
  rw [htk, Ptr.add_add, ← List.take_add, hsub] at hpatch
  refine ⟨?_, ?_, ?_, ?_⟩
  · rw [c.heap, hu, List.drop_drop, hsub, ← hpatch]
    rfl
  · rw [c.retLen, hu, List.length_drop]
    show f.retLen + k + _ = _
    omega
  · rw [c.retNum, hu, hr, hlen]
  · rw [c.used, hu, hlen]

end Turn

theorem iovecCpyBufLoop_spec (wk : Walkable b) {f : Filled} {vs : List (Addr × Nat)}
    (hf : xs.length ≤ fuel) (on : it.On b pre post) (rest : it.rest f.heap post = xs)
    (hpos : 0 < it.len) (hu : f.used < n) (hv : ∀ v ∈ vs, 0 < v.2)
    (hp : Apart f.heap b.nodes p.blk) (ha : ∀ v ∈ vs, Apart f.heap b.nodes v.1.blk) :
    Copied f p n vs xs (iovecCpyBufLoop b fuel it ((p, n) :: vs) f) := by
  induction fuel generalizing f it pre post xs p n vs with
  | zero =>
    rw [← rest, length_rest on] at hf
    omega
  | succ fuel ih =>
    have hx : it.len ≤ xs.length := by
      rw [← rest, length_rest on]
      omega
    obtain ⟨k, hkd⟩ : ∃ k, k = min it.len (n - f.used) := ⟨_, rfl⟩
    have hk : k ≤ it.len ∧ k ≤ xs.length ∧ 0 < k := by omega
    have hpu : Apart f.heap b.nodes (p.add f.used).blk := hp
    have hadv : Holds (f.turn p n k xs).heap b (some (advance it k)) (xs.drop k) :=
      (outside_patch hpu (xs.take k)).holds (Holds.advance on rest hk.1)
    have hl : (xs.drop k).length ≤ fuel := by
      rw [List.length_drop]
      omega
    rw [iovecCpyBufLoop, ← hkd, copyOut_patch (p := p.add f.used) on rest hk.1]
    by_cases hfull : n = f.used + k
    · have ht : f.turn p n k xs = ⟨f.heap.setMem (patch f.heap.mem (p.add f.used) (xs.take k)),
          f.retNum + 1, 0, f.retLen + k⟩ := by
        rw [Filled.turn, if_pos hfull, if_pos hfull]
      simp only [if_pos hfull]
      rw [← ht]
      rcases vs with - | ⟨⟨q, m⟩, vs⟩
      · rw [if_pos ⟨hfull, rfl⟩]
        exact copied_full hfull hk.2.1 hv (.inl rfl)
      · rw [if_neg fun h => List.cons_ne_nil _ _ h.2]
        rcases more_spec wk hadv with ⟨hd, e⟩ | ⟨it', pre', post', e, on', rest', hpos'⟩
        · rw [e]
          exact copied_full hfull hk.2.1 hv (.inr hd)
        · rw [e]
          have hu' : (f.turn p n k xs).used = 0 := if_pos hfull
          refine Copied.full hfull hk.2.1 (ih hl on' rest' hpos' ?_ ?_ ?_ ?_)
          · rw [hu']
            exact hv (q, m) List.mem_cons_self
          · exact fun w hw => hv w (List.mem_cons_of_mem _ hw)
          · exact ha (q, m) List.mem_cons_self
          · exact fun w hw => ha w (List.mem_cons_of_mem _ hw)
    · have ht : f.turn p n k xs = ⟨f.heap.setMem (patch f.heap.mem (p.add f.used) (xs.take k)),
          f.retNum, f.used + k, f.retLen + k⟩ := by
        rw [Filled.turn, if_neg hfull, if_neg hfull]
      rw [if_neg fun h => hfull h.1]
      simp only [if_neg hfull]
      rw [← ht]
      rcases more_spec wk hadv with ⟨hd, e⟩ | ⟨it', pre', post', e, on', rest', hpos'⟩
      · rw [e]
        exact copied_short (by omega) hk.2.1 hd
      · rw [e]
        have hu' : (f.turn p n k xs).used = f.used + k := if_neg hfull
        refine Copied.short (by omega) hk.2.1 (ih hl on' rest' hpos' ?_ hv hp ha)
        rw [hu']
        omega

/-- `vstr_iter_fwd_beg` on a slice: where the iterator stands. -/
theorem begins (w : Window E P s pos len xs) (hl : 0 < len) :
    ∃ it b' pre post, iterFwdBeg s pos len = (some it, ⟨s.heap, b'⟩) ∧
      b'.nodes = s.base.nodes ∧ Walkable b' ∧ it.On b' pre post ∧ it.rest s.heap post = xs ∧
      0 < it.len := by
  have u := w.usable
  obtain ⟨it, b', pre, post, e, rfl, on, hsum, hpos, -, -, hslice⟩ :=
    iterFwdBeg_spec u.sound u.posOk w.one_le w.le_len hl
  have hns := nodes_of_core (core_basePos s.base pos true)
  refine ⟨it, _, pre, post, e, hns, ⟨?_, ?_⟩, on, ?_, hpos⟩
  · rw [hns]
    exact u.sound.owned.nodes.nodup
  · rw [hns]
    exact u.sound.valid.pos
  · rw [← w.bytes, hslice, Iter.rest, hsum]

/-- The vectors are written one after the other, and the last one is shortened. -/
structure CpyBuf (s : St) (iovs : List (Addr × Nat)) (xs : List (Option UInt8))
    (r : (Nat × List (Addr × Nat) × Option Nat) × St) : Prop where
  /-- As much as there is room for. -/
  retLen : r.1.1 = min xs.length (room iovs)
  /-- The lengths are those of what is in them. -/
  vecs : r.1.2.1 = trimmed iovs xs.length ++ iovs.drop (trimmed iovs xs.length).length
  /-- How many there are, if that is set. -/
  retNum : iovs ≠ [] → xs ≠ [] → r.1.2.2 = some (trimmed iovs xs.length).length
  /-- The memory. -/
  heap : r.2.heap = s.heap.setMem (spread iovs xs s.heap.mem)

/-- `vstr_export_iovec_cpy_buf`. -/
theorem exportIovecCpyBuf_spec (w : Window E P s pos len xs) (hv : ∀ v ∈ iovs, 0 < v.2)
    (ha : ∀ v ∈ iovs, Apart s.heap s.base.nodes v.1.blk) :
    CpyBuf s iovs xs (exportIovecCpyBuf s pos len iovs) := by
  have hlen := w.length
  rcases iovs with - | ⟨⟨p, n⟩, vs⟩
  · exact ⟨(Nat.min_zero _).symm, rfl, fun h => absurd rfl h, rfl⟩
  · by_cases hl : len = 0
    · subst hl
      obtain rfl : xs = [] := List.length_eq_zero_iff.1 hlen
      have e : exportIovecCpyBuf s pos 0 ((p, n) :: vs) = ((0, (p, n) :: vs, none), s) := by
        rw [exportIovecCpyBuf, if_neg (List.cons_ne_nil _ _), iterFwdBeg_zero]
      rw [e]
      refine ⟨(Nat.zero_min _).symm, ?_, fun _ h => absurd rfl h, ?_⟩
      · rw [List.length_nil, trimmed_zero]
        rfl
      · rw [spread_nil]
        rfl
    · obtain ⟨it, b', pre, post, e, hns, wk, on, rest, hpos⟩ := begins w (by omega)
      have hn : 0 < n := hv (p, n) List.mem_cons_self
      have c := iovecCpyBufLoop_spec (f := ⟨s.heap, 0, 0, 0⟩) (p := p) (n := n) wk
        (Nat.le_of_eq hlen) on rest hpos hn (fun v hm => hv v (List.mem_cons_of_mem _ hm))
        (by rw [hns]; exact ha (p, n) List.mem_cons_self)
        (by rw [hns]; exact fun v hm => ha v (List.mem_cons_of_mem _ hm))
      have hfin := finish_eq hv xs.length
      obtain ⟨f, hf⟩ : ∃ f, f = iovecCpyBufLoop b' len it ((p, n) :: vs) ⟨s.heap, 0, 0, 0⟩ :=
        ⟨_, rfl⟩
      rw [← hf] at c
      have hnum : f.retNum = (fillAt ((p, n) :: vs) xs.length).1 := by
        rw [c.retNum, Nat.zero_add]
        show (fillAt ((p, n) :: vs) (0 + xs.length)).1 = _
        rw [Nat.zero_add]
      have hused : f.used = (fillAt ((p, n) :: vs) xs.length).2 := by
        rw [c.used]
        show (fillAt ((p, n) :: vs) (0 + xs.length)).2 = _
        rw [Nat.zero_add]
      rw [← hnum, ← hused] at hfin
      have hrun : exportIovecCpyBuf s pos len ((p, n) :: vs) =
          ((f.retLen, (if f.used = 0 then ((p, n) :: vs, f.retNum)
            else (((p, n) :: vs).modify f.retNum fun v => (v.1, f.used), f.retNum + 1)).1,
            some (if f.used = 0 then ((p, n) :: vs, f.retNum)
              else (((p, n) :: vs).modify f.retNum fun v => (v.1, f.used), f.retNum + 1)).2),
            ⟨f.heap, b'⟩) := by
        rw [exportIovecCpyBuf, if_neg (List.cons_ne_nil _ _), e]
        dsimp only
        rw [← hf]
        split
        · rfl
        · rfl
      rw [hrun, hfin]
      refine ⟨?_, rfl, fun _ _ => rfl, ?_⟩
      · show f.retLen = _
        rw [c.retLen, Nat.zero_add]
        rfl
      · show f.heap = _
        rw [c.heap]
        rfl

/-! ## Pointers -/

/-- What an iterator points to. -/
def iovecOf (h : Heap) (it : Iter) : Iovec := ⟨it.ptr h, it.len⟩

theorem iovecBytes_of (on : it.On b pre post) : iovecBytes h (iovecOf h it) = it.bytes h := by
  rw [it.bytes_eq h on]
  rfl

/-- The vectors of `vstr_export_iovec_cpy_ptr` are those of the first stretches. -/
theorem iovecCpyPtrLoop_eq (h : Heap) (num : Nat) (on : it.On b pre post)
    (hd : (b.nodes.map Node.id).Nodup) (hf : post.length ≤ fuel) :
    iovecCpyPtrLoop b h num it = ((iterAll b fuel it).take num).map (iovecOf h) := by
  induction num generalizing fuel it pre post with
  | zero => rw [iovecCpyPtrLoop, List.take_zero, List.map_nil]
  | succ num ih =>
    rw [iovecCpyPtrLoop]
    rcases iterFwdNxt_cases on hd with ⟨-, e⟩ | ⟨m, ms, rfl, -, e, on'⟩
    · have hall : iterAll b fuel it = [it] := by
        cases fuel with
        | zero => rfl
        | succ fuel => rw [iterAll, e]
      rw [e, hall, List.take_succ_cons, List.take_nil]
      rfl
    · cases fuel with
      | zero => cases hf
      | succ fuel =>
        rw [iterAll, e, List.take_succ_cons, List.map_cons,
          ← ih on' (Nat.le_of_succ_le_succ hf)]
        rfl

/-- The bytes of some vectors are those of the stretches. -/
theorem flatMap_iovecOf {its : List Iter} (hon : ∀ it ∈ its, ∃ pre post, it.On b pre post) :
    (its.map (iovecOf h)).flatMap (iovecBytes h) = its.flatMap (Iter.bytes h) := by
  rw [List.flatMap_map]
  refine List.flatMap_congr fun it hit => ?_
  obtain ⟨pre, post, on⟩ := hon it hit
  exact iovecBytes_of on

/-- The first of some stretches are the front of the slice. -/
theorem flatMap_take {its : List Iter} (hon : ∀ it ∈ its, ∃ pre post, it.On b pre post)
    (num : Nat) : (its.take num).flatMap (Iter.bytes h) =
      (its.flatMap (Iter.bytes h)).take ((its.take num).map Iter.len).sum := by
  have hlen : ((its.take num).flatMap (Iter.bytes h)).length =
      ((its.take num).map Iter.len).sum := by
    rw [List.length_flatMap]
    congr 1
    refine List.map_congr_left fun it hit => ?_
    obtain ⟨pre, post, on⟩ := hon it (List.mem_of_mem_take hit)
    exact Iter.length_bytes h on
  have hsplit : its.flatMap (Iter.bytes h) =
      (its.take num).flatMap (Iter.bytes h) ++ (its.drop num).flatMap (Iter.bytes h) := by
    rw [← List.flatMap_append, List.take_append_drop]
  rw [hsplit, ← hlen, List.take_left]

/-- The vectors point to the first stretches of the slice, which are its front. -/
structure CpyPtr (h : Heap) (numMax : Nat) (xs : List (Option UInt8)) (r : Nat × List Iovec) :
    Prop where
  /-- No more vectors than there is room for. -/
  le : r.2.length ≤ numMax
  /-- The length is that of the vectors. -/
  retLen : r.1 = (r.2.map Iovec.len).sum
  /-- They are the front of the slice. -/
  bytes : r.2.flatMap (iovecBytes h) = xs.take r.1
  /-- They are all of it, or there is no room for more. -/
  full : r.1 = xs.length ∨ r.2.length = numMax

theorem exportIovecCpyPtr_spec (w : Window E P s pos len xs) (numMax : Nat) :
    CpyPtr s.heap numMax xs (exportIovecCpyPtr s pos len numMax).1 ∧
      (exportIovecCpyPtr s pos len numMax).2.heap = s.heap := by
  have hlen := w.length
  by_cases hm : numMax = 0
  · subst hm
    exact ⟨⟨Nat.le_refl 0, rfl, List.take_zero.symm, .inr rfl⟩, rfl⟩
  · by_cases hl : len = 0
    · subst hl
      obtain rfl : xs = [] := List.length_eq_zero_iff.1 hlen
      have e : exportIovecCpyPtr s pos 0 numMax = ((0, []), s) := by
        rw [exportIovecCpyPtr, if_neg hm, iterFwdBeg_zero]
      rw [e]
      exact ⟨⟨Nat.zero_le _, rfl, rfl, .inl rfl⟩, rfl⟩
    · obtain ⟨it, b', pre, post, e, hns, wk, on, rest, hpos⟩ := begins w (by omega)
      have hfuel : post.length ≤ b'.nodes.length := by
        rw [on.nodes]
        simp
        omega
      have c := iterAll_covers s.heap on wk.nodup hfuel
      have hx : ((nodeBytes s.heap it.node ++ flat s.heap post).drop it.off).take
          (it.len + it.remaining) = xs := rest
      rw [hx] at c
      have hvs := iovecCpyPtrLoop_eq s.heap numMax on wk.nodup hfuel
      obtain ⟨its, hits⟩ : ∃ its, its = iterAll b' b'.nodes.length it := ⟨_, rfl⟩
      rw [← hits] at c hvs
      have hrun : exportIovecCpyPtr s pos len numMax =
          (((((its.take numMax).map (iovecOf s.heap)).map Iovec.len).sum,
            (its.take numMax).map (iovecOf s.heap)), ⟨s.heap, b'⟩) := by
        rw [exportIovecCpyPtr, if_neg hm, e]
        dsimp only
        rw [hvs]
      have hsum : (((its.take numMax).map (iovecOf s.heap)).map Iovec.len).sum =
          ((its.take numMax).map Iter.len).sum := by
        rw [List.map_map]
        rfl
      have hon : ∀ it ∈ its.take numMax, ∃ pre post, it.On b' pre post :=
        fun it' hit => c.on it' (List.mem_of_mem_take hit)
      rw [hrun]
      refine ⟨⟨?_, rfl, ?_, ?_⟩, rfl⟩
      · rw [List.length_map]
        exact List.length_take_le _ _
      · dsimp only
        rw [flatMap_iovecOf hon, flatMap_take c.on, c.bytes, hsum]
      · dsimp only
        rw [hsum, List.length_map, List.length_take]
        by_cases hle : its.length ≤ numMax
        · refine .inl ?_
          rw [List.take_of_length_le hle, ← c.bytes, List.length_flatMap]
          congr 1
          refine List.map_congr_left fun it' hit => ?_
          obtain ⟨pre', post', on'⟩ := c.on it' hit
          exact (Iter.length_bytes s.heap on').symm
        · exact .inr (by omega)

/-! ## A slice is delivered -/

/-- What an iterator visits, and what is read from it. -/
structure Visits (h : Heap) (b : Base) (it : Iter) (xs : List (Option UInt8)) : Prop where
  /-- The stretches are the slice. -/
  bytes : ((iterAll b b.nodes.length it).map (iovecOf h)).flatMap (iovecBytes h) = xs
  /-- No stretch is empty, and the iterator knows what is left. -/
  left : ∀ pre it' post, iterAll b b.nodes.length it = pre ++ it' :: post →
    0 < it'.len ∧ it'.len + it'.remaining = ((it' :: post).map Iter.len).sum
  /-- Any calls read what a reader of the slice reads. -/
  calls : ∀ cs : List Call, (∀ c ∈ cs, c.Apart h b.nodes) →
    (iterCalls b cs h (some it)).1 = (Reader.calls ⟨h.mem, xs⟩ cs).1 ∧
      (iterCalls b cs h (some it)).2.1 = h.setMem (Reader.calls ⟨h.mem, xs⟩ cs).2.mem ∧
      iterLen (iterCalls b cs h (some it)).2.2 = (Reader.calls ⟨h.mem, xs⟩ cs).2.left.length

/-- What is delivered of a slice. -/
structure Delivers (s : St) (pos len : Nat) (xs : List (Option UInt8)) : Prop where
  /-- There is nothing to visit in an empty one. -/
  empty : len = 0 → iterFwdBeg s pos len = (none, s)
  /-- `vstr_iter_fwd_beg`. -/
  iter : 0 < len → ∃ it t, iterFwdBeg s pos len = (some it, t) ∧ t.heap = s.heap ∧
    t.base.nodes = s.base.nodes ∧ Visits t.heap t.base it xs
  /-- `vstr_export_buf`. -/
  buf : ∀ buf bufLen, Apart s.heap s.base.nodes buf.blk →
    (exportBuf s pos len buf bufLen).1 = min len bufLen ∧
      (exportBuf s pos len buf bufLen).2.heap =
        s.heap.setMem (patch s.heap.mem buf (xs.take bufLen))
  /-- `vstr_export_iovec_cpy_buf`. -/
  cpyBuf : ∀ iovs : List (Addr × Nat), (∀ v ∈ iovs, 0 < v.2) →
    (∀ v ∈ iovs, Apart s.heap s.base.nodes v.1.blk) →
      CpyBuf s iovs xs (exportIovecCpyBuf s pos len iovs)
  /-- `vstr_export_iovec_cpy_ptr`. -/
  cpyPtr : ∀ numMax, CpyPtr s.heap numMax xs (exportIovecCpyPtr s pos len numMax).1

theorem visits (wk : Walkable b) (on : it.On b pre post) (rest : it.rest h post = xs)
    (hpos : 0 < it.len) : Visits h b it xs := by
  have hfuel : post.length ≤ b.nodes.length := by
    rw [on.nodes]
    simp
    omega
  have c := iterAll_covers h on wk.nodup hfuel
  have hall := iterAll_remaining on wk.nodup hfuel
  refine ⟨?_, fun pre' it' post' e => ⟨?_, ?_⟩, fun cs ha => ?_⟩
  · rw [flatMap_iovecOf c.on, c.bytes]
    exact rest
  · have hmem : it' ∈ iterAll b b.nodes.length it := by
      rw [e]
      exact List.mem_append_right _ List.mem_cons_self
    exact iterAll_pos wk.pos hpos it' hmem
  · have h1 := iterAll_sum _ pre' it' post' e
    rw [e, List.map_append, List.sum_append] at hall
    omega
  · obtain ⟨o', e, ho'⟩ := calls_spec wk (.here on rest : Holds h b (some it) xs) ha
    rw [e]
    exact ⟨rfl, rfl, ho'.length⟩

/-- The stretches an iterator visits are the slice, what is read from it by any calls is what
is left of the slice, and the exports deliver the front of it that there is room for. -/
theorem iter_export_delivers (w : Window E P s pos len xs) : Delivers s pos len xs where
  empty := by
    rintro rfl
    exact iterFwdBeg_zero s pos
  iter := by
    intro hl
    obtain ⟨it, b', pre, post, e, hns, wk, on, rest, hpos⟩ := begins w hl
    exact ⟨it, ⟨s.heap, b'⟩, e, rfl, hns, visits wk on rest hpos⟩
  buf := by
    intro buf bufLen ha
    have u := w.usable
    by_cases h0 : len = 0 ∨ bufLen = 0
    · have he : exportBuf s pos len buf bufLen = (0, s) := by
        unfold exportBuf
        rcases h0 with rfl | rfl
        · split
          · rfl
          · rw [Nat.zero_min, iterFwdBeg_zero]
        · exact if_pos (.inr rfl)
      have ht : xs.take bufLen = [] := by
        have hlen := w.length
        rw [List.take_eq_nil_iff, ← List.length_eq_zero_iff]
        omega
      rw [he, ht, patch_nil]
      refine ⟨?_, rfl⟩
      show 0 = min len bufLen
      omega
    · have he := exportBuf_patch u.sound u.posOk w.one_le w.le_len buf (show 0 < len by omega)
        (show 0 < bufLen by omega) ha
      have hs : slice (content s) pos (min len bufLen) = xs.take bufLen := by
        rw [← w.bytes, slice, slice, List.take_take, Nat.min_comm]
      rw [he, hs]
      exact ⟨rfl, rfl⟩
  cpyBuf := fun _ hv ha => exportIovecCpyBuf_spec w hv ha
  cpyPtr := fun numMax => (exportIovecCpyPtr_spec w numMax).1

/-- A slice over several nodes, with an unknown byte in one of them. -/
theorem iter_export_delivers_mixed :
    Delivers mixed 2 6 [some 98, none, some 99, some 100, some 97, some 98] := by
  obtain ⟨P, w⟩ := window_mixed
  exact iter_export_delivers ((w.drop (k := 1) (by decide)).take (k := 6) (by decide))

/-- A C string of two bytes has room for one of them, and without a buffer nothing is read, and
there is no zero byte. -/
example :
    let r := iterFwdBeg (written [97, 98]) 1 2
    let two := iterCall r.2.base r.2.heap r.1 (.cstr 2 ⟨.ext 1, 0⟩ 2)
    let bare := iterCall r.2.base r.2.heap r.1 (.cstr 2 ⟨.ext 1, 0⟩ 0)
    iterLen r.1 = 2 ∧ two.1 = .len 2 (some .iterDef) ∧ two.2.1.mem (.ext 1) 0 = 97 ∧
      two.2.1.mem (.ext 1) 1 = 0 ∧ bare.2.1.mem = r.2.heap.mem ∧ iterLen bare.2.2 = 2 :=
  ⟨by decide, by decide, by decide, by decide, rfl, by decide⟩

end Vstr.Fwd
