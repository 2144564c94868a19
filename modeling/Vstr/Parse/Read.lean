import Vstr.Lib.Query
import Vstr.Model.Parse
import Vstr.Export.Iter
import Vstr.Run.Calls

/-!
# Reading a string

The functions that look at a string answer from its content. The position cache is all
that they move, so that what they answer does not depend on what was asked before.
-/

namespace Vstr

open Memory Splice Query

variable {E : Env} {P : Own} {s t : St} {it : Iter} {pre post : List Node} {pos len : Nat}

/-- Reading a string moves its position cache only. -/
structure Reads (s t : St) : Prop where
  /-- Memory. -/
  heap : t.heap = s.heap
  /-- The base but for the position cache. -/
  base : ∃ d, t.base = { s.base with posData := d }
  /-- The position cache stays right. -/
  posOk : PosOk False s.base → PosOk False t.base

instance : IsPreorder St Reads where
  refl s := ⟨rfl, ⟨s.base.posData, rfl⟩, id⟩
  trans := by
    rintro s t u ⟨h, ⟨d, e⟩, p⟩ ⟨h', ⟨d', e'⟩, p'⟩
    refine ⟨h'.trans h, ⟨d', ?_⟩, p' ∘ p⟩
    rw [e', e]

theorem Reads.core (r : Reads s t) : t.base.core = s.base.core := by
  obtain ⟨d, e⟩ := r.base
  rw [e]
  rfl

theorem Reads.len_eq (r : Reads s t) : t.base.len = s.base.len := len_of_core r.core

/-- Reading leaves the content. -/
theorem Reads.content (r : Reads s t) : content t = content s := by
  have e : t = ⟨s.heap, t.base⟩ := by rw [← r.heap]
  rw [e]
  exact content_congr r.core

theorem Reads.usable (r : Reads s t) (u : Usable E P s) : Usable E P t := by
  have e : t = ⟨s.heap, t.base⟩ := by rw [← r.heap]
  refine ⟨?_, r.posOk u.posOk, ?_⟩
  · rw [e]
    exact u.sound.congr r.core
  · rw [nodes_of_core r.core]
    exact u.ptrSafe

/-- Finding a position is reading. -/
theorem reads_basePos (u : Usable E P s) (h1 : 1 ≤ pos) (h2 : pos ≤ s.base.len) :
    Reads s ⟨s.heap, (basePos s.base pos true).2⟩ where
  heap := rfl
  base := basePos_base s.base pos true
  posOk pk := posOk_basePos u.sound.valid u.sound.owned.nodes.nodup pk h1 h2 true

/-! ## Single bytes -/

/-- The byte at an index; unknown bytes and the end are zero. -/
def byteAt (xs : List (Option UInt8)) (i : Nat) : UInt8 := (xs[i]?.getD none).getD 0

theorem byteAt_drop (xs : List (Option UInt8)) (i j : Nat) :
    byteAt (xs.drop i) j = byteAt xs (i + j) := by
  rw [byteAt, byteAt, List.getElem?_drop]

theorem byteAt_take (xs : List (Option UInt8)) {i j : Nat} (h : j < i) :
    byteAt (xs.take i) j = byteAt xs j := by
  rw [byteAt, byteAt, List.getElem?_take_of_lt h]

/-- A byte of a node. -/
theorem byteAt_nodeBytes (h : Heap) (n : Node) {i : Nat} (hi : i < n.len) :
    byteAt (nodeBytes h n) i = match exportNodePtr h n with
      | none => 0
      | some p => h.byte (p.add i) := by
  unfold nodeBytes byteAt Heap.byte
  cases exportNodePtr h n with
  | none =>
    dsimp only
    rw [List.getElem?_replicate, if_pos hi]
    rfl
  | some p =>
    dsimp only
    rw [List.getElem?_map, getElem?_read, if_pos hi]
    rfl

/-- `vstr_export_chr`. -/
theorem exportChr_yields (u : Usable E P s) (h1 : 1 ≤ pos) (h2 : pos ≤ s.base.len) :
    Yields Reads (exportChr pos) s (byteAt (Vstr.content s) (pos - 1)) := by
  obtain ⟨pre, n, post, hat, -, -⟩ :=
    basePos_at u.sound.valid u.sound.owned.nodes.nodup u.posOk h1 h2 true
  have hcore := core_basePos s.base pos true
  have hpos := hat.pos
  have hone := hat.one_le
  have hle := hat.le_len
  have hnode : (basePos s.base pos true).2.node (basePos s.base pos true).1.idx = n := by
    rw [hat.idx]
    exact node_of_eq ((nodes_of_core hcore).trans hat.nodes)
  have hbyte : byteAt (Vstr.content s) (pos - 1) =
      byteAt (nodeBytes s.heap n) ((basePos s.base pos true).1.pos - 1) := by
    have e := slice_content (s := s) hat.nodes (show lens pre +
      ((basePos s.base pos true).1.pos - 1) + 1 = pos + s.base.used by omega) h1 1
    have e' := congrArg (byteAt · 0) e
    simp only [slice, byteAt_take _ Nat.one_pos, byteAt_drop, Nat.add_zero] at e'
    rw [e', byteAt, byteAt, List.getElem?_append_left (by rw [length_nodeBytes]; omega)]
  have hval : (exportChr pos).run s = (byteAt (Vstr.content s) (pos - 1),
      ⟨s.heap, (basePos s.base pos true).2⟩) := by
    rw [hbyte, byteAt_nodeBytes _ _ (show (basePos s.base pos true).1.pos - 1 < n.len by omega)]
    change exportChr pos s = _
    unfold exportChr St.pos
    dsimp only
    rw [hnode]
    cases exportNodePtr s.heap n <;> rfl
  refine ⟨?_, ?_⟩
  · rw [hval]
  · rw [hval]
    exact reads_basePos u h1 h2

/-- `vstr_export_chr` before the first byte. -/
theorem exportChr_zero_yields (u : Usable E P s) (hne : 0 < s.base.len) :
    ∃ c, Yields Reads (exportChr 0) s c := by
  have hb : (basePos s.base 0 true).2 = s.base := by
    unfold basePos
    rw [if_pos]
    have hlen := u.sound.valid.len
    cases hns : s.base.nodes with
    | nil =>
      rw [hns, lens_nil] at hlen
      omega
    | cons n ns =>
      rw [node_zero_of_eq hns, Nat.zero_add]
      by_cases hu : s.base.used = 0
      · omega
      · obtain ⟨m, ms, hm, -, hlt⟩ := u.sound.valid.used hu
        rw [hns] at hm
        obtain ⟨rfl, -⟩ := List.cons.inj hm
        omega
  refine ⟨_, rfl, ?_⟩
  change Reads s (exportChr 0 s).2
  unfold exportChr St.pos
  dsimp only
  rw [hb]
  cases exportNodePtr s.heap (s.base.node (basePos s.base 0 true).1.idx) <;>
    exact Std.Refl.refl s

/-! ## Spans -/

/-- How many bytes at the beginning are among `chrs`. -/
def spanOf (chrs : List UInt8) (xs : List (Option UInt8)) : Nat :=
  (xs.takeWhile (·.any (· ∈ chrs))).length

theorem spanOf_le (chrs : List UInt8) (xs : List (Option UInt8)) : spanOf chrs xs ≤ xs.length :=
  (List.takeWhile_prefix _).length_le

theorem spanOf_append (chrs : List UInt8) (xs ys : List (Option UInt8)) :
    spanOf chrs (xs ++ ys) =
      if spanOf chrs xs < xs.length then spanOf chrs xs else xs.length + spanOf chrs ys := by
  induction xs with
  | nil => simp [spanOf]
  | cons x xs ih =>
    unfold spanOf at ih ⊢
    rw [List.cons_append, List.takeWhile_cons, List.takeWhile_cons]
    split
    · rw [List.length_cons, List.length_cons, List.length_cons, ih]
      split
      · rw [if_pos (by omega)]
      · rw [if_neg (by omega)]
        omega
    · simp

/-- The span in known bytes. -/
theorem spanOf_some (chrs bs : List UInt8) :
    spanOf chrs (bs.map some) = (bs.takeWhile (· ∈ chrs)).length := by
  rw [spanOf, List.takeWhile_map, List.length_map]
  rfl

/-- A span does not go into unknown bytes. -/
theorem spanOf_none (chrs : List UInt8) (n : Nat) (ys : List (Option UInt8)) :
    spanOf chrs (List.replicate (n + 1) none ++ ys) = 0 := rfl

/-- The bytes do not begin with one of `chrs`. -/
def NotAmong (chrs : List UInt8) (xs : List (Option UInt8)) : Prop :=
  ∀ c, xs.head? = some (some c) → c ∉ chrs

/-- A span is as long as it is known to be. -/
theorem spanOf_eq {chrs as : List UInt8} {xs : List (Option UInt8)} (ha : ∀ a ∈ as, a ∈ chrs)
    (hx : NotAmong chrs xs) : spanOf chrs (as.map some ++ xs) = as.length := by
  induction as with
  | nil =>
    cases xs with
    | nil => rfl
    | cons x xs =>
      cases x with
      | none => rfl
      | some c => simp [spanOf, hx c rfl]
  | cons a as ih =>
    have h := ih fun a' ha' => ha a' (List.mem_cons_of_mem _ ha')
    unfold spanOf at h ⊢
    rw [List.map_cons, List.cons_append, List.takeWhile_cons, if_pos (by simp [ha a])]
    rw [List.length_cons, List.length_cons, h]

theorem spanOf_zero {chrs : List UInt8} {xs : List (Option UInt8)} (hx : NotAmong chrs xs) :
    0 = spanOf chrs xs := by
  have h : spanOf chrs (([] : List UInt8).map some ++ xs) = 0 :=
    spanOf_eq (fun a ha => by cases ha) hx
  exact h.symm

/-- Every string begins with the span. -/
theorem spanOf_split (chrs : List UInt8) (xs : List (Option UInt8)) :
    ∃ (as : List UInt8) (ys : List (Option UInt8)), xs = as.map some ++ ys ∧
      as.length = spanOf chrs xs ∧ (∀ a ∈ as, a ∈ chrs) ∧
      NotAmong chrs ys := by
  induction xs with
  | nil => exact ⟨[], [], rfl, rfl, (fun a ha => by cases ha), fun c h => by cases h⟩
  | cons x xs ih =>
    have stop : (∀ c, x = some c → c ∉ chrs) → ∃ (as : List UInt8) (ys : List (Option UInt8)),
        x :: xs = as.map some ++ ys ∧
        as.length = spanOf chrs (x :: xs) ∧ (∀ a ∈ as, a ∈ chrs) ∧ NotAmong chrs ys := by
      intro hx
      have hn : NotAmong chrs (x :: xs) := fun c hc => hx c (Option.some.inj hc)
      exact ⟨[], x :: xs, rfl, spanOf_zero hn,
        (fun a ha => by cases ha), hn⟩
    cases x with
    | none => exact stop fun c hc => by cases hc
    | some c =>
      by_cases hc : c ∈ chrs
      · obtain ⟨as, ys, rfl, -, has, hys⟩ := ih
        have hall : ∀ a ∈ c :: as, a ∈ chrs := by
          intro a ha
          rcases List.mem_cons.mp ha with rfl | ha
          · exact hc
          · exact has a ha
        exact ⟨c :: as, ys, rfl, (spanOf_eq hall hys).symm, hall, hys⟩
      · refine stop fun c' e => ?_
        obtain rfl := Option.some.inj e
        exact hc

/-- The loop of `vstr_spn_chrs_fwd`. -/
theorem spnLoop_eq {b : Base} (h : Heap) (chrs : List UInt8) {its : List Iter}
    (hon : ∀ it ∈ its, ∃ pre post, it.On b pre post) (hpos : ∀ it ∈ its, 0 < it.len) :
    spnLoop h chrs its = spanOf chrs (its.flatMap (Iter.bytes h)) := by
  induction its with
  | nil => rfl
  | cons it its ih =>
    obtain ⟨pre, post, on⟩ := hon it List.mem_cons_self
    have hlen := hpos it List.mem_cons_self
    rw [spnLoop, List.flatMap_cons, it.bytes_eq h on,
      ih (fun it' hit => hon it' (List.mem_cons_of_mem _ hit))
        fun it' hit => hpos it' (List.mem_cons_of_mem _ hit)]
    cases it.ptr h with
    | none =>
      obtain ⟨n, hn⟩ : ∃ n, it.len = n + 1 := ⟨it.len - 1, by omega⟩
      dsimp only
      rw [hn, spanOf_none]
    | some p =>
      dsimp only
      rw [spanOf_append, spanOf_some, List.length_map, length_read]

/-- Every stretch of an iteration holds something. -/
theorem iterAll_pos {b : Base} (hb : ∀ n ∈ b.nodes, 0 < n.len) {fuel : Nat} (hit : 0 < it.len) :
    ∀ it' ∈ iterAll b fuel it, 0 < it'.len := by
  induction fuel generalizing it with
  | zero =>
    intro it' h
    rw [iterAll, List.mem_singleton] at h
    exact h ▸ hit
  | succ fuel ih =>
    intro it' h
    rw [iterAll] at h
    cases hn : iterFwdNxt b it with
    | none =>
      rw [hn, List.mem_singleton] at h
      exact h ▸ hit
    | some nx =>
      rw [hn] at h
      rcases List.mem_cons.mp h with rfl | h
      · exact hit
      · refine ih ?_ it' h
        unfold iterFwdNxt Base.nextOf at hn
        split at hn
        · cases hn
        · split at hn
          · cases hn
          · rename_i m hm
            have hm' := hb m (List.mem_of_getElem? hm)
            obtain rfl := Option.some.inj hn
            dsimp only
            omega

/-- `vstr_iter_fwd_beg` on an empty slice. -/
theorem iterFwdBeg_zero (s : St) (pos : Nat) : iterFwdBeg s pos 0 = (none, s) :=
  if_pos (.inr rfl)

/-- `vstr_spn_chrs_fwd`. -/
theorem spnChrsFwd_yields (u : Usable E P s) (h1 : 1 ≤ pos) (h2 : pos + len ≤ s.base.len + 1)
    (chrs : List UInt8) :
    Yields Reads (spnChrsFwd pos len chrs) s
      (spanOf chrs (slice (Vstr.content s) pos len)) := by
  by_cases hl : len = 0
  · subst hl
    have e : (spnChrsFwd pos 0 chrs).run s = (0, s) := by
      change spnChrsFwd pos 0 chrs s = _
      rw [spnChrsFwd, iterFwdBeg_zero]
    refine ⟨?_, ?_⟩
    · rw [e, slice, List.take_zero]
      rfl
    · rw [e]
      exact Std.Refl.refl s
  · obtain ⟨it, b', pre, post, e, rfl, on, hsum, hlen, -, -, hslice⟩ :=
      iterFwdBeg_spec u.sound u.posOk h1 h2 (by omega)
    have hns := nodes_of_core (core_basePos s.base pos true)
    have c := iterAll_covers s.heap on (by rw [hns]; exact u.sound.owned.nodes.nodup)
      (show post.length ≤ (basePos s.base pos true).2.nodes.length by rw [on.nodes]; simp; omega)
    have e' : (spnChrsFwd pos len chrs).run s =
        (spanOf chrs (slice (Vstr.content s) pos len), ⟨s.heap, (basePos s.base pos true).2⟩) := by
      change spnChrsFwd pos len chrs s = _
      rw [spnChrsFwd, e]
      dsimp only
      rw [spnLoop_eq s.heap chrs c.on
        (iterAll_pos (by rw [hns]; exact u.sound.valid.pos) hlen), c.bytes, hsum, hslice]
    refine ⟨?_, ?_⟩
    · rw [e']
    · rw [e']
      exact reads_basePos u h1 (by omega)

/-! ## Byte after byte -/

/-- What an iterator has still to visit. -/
def Iter.rest (h : Heap) (it : Iter) (post : List Node) : List (Option UInt8) :=
  ((nodeBytes h it.node ++ flat h post).drop it.off).take (it.len + it.remaining)

/-- The rest is its first byte and what is behind it. -/
theorem Iter.rest_cons (h : Heap) (on : it.On s.base pre post) (hlen : 0 < it.len) :
    it.rest h post = (nodeBytes h it.node)[it.off]?.getD none ::
      ({ it with off := it.off + 1, len := it.len - 1 } : Iter).rest h post := by
  have hle := on.len
  have hlt : it.off < (nodeBytes h it.node ++ flat h post).length := by simp; omega
  have hsum : it.len + it.remaining = it.len - 1 + it.remaining + 1 := by omega
  unfold Iter.rest
  dsimp only
  rw [List.drop_eq_getElem_cons hlt, hsum, List.take_succ_cons, List.getElem_append_left]
  rw [List.getElem?_eq_getElem (by simp; omega)]
  rfl

/-- `vstr_iter_fwd_chr`: the next byte, and the iterator behind it. -/
theorem iterFwdChr_spec (on : it.On s.base pre post) (hd : (s.base.nodes.map Node.id).Nodup)
    (hp : ∀ n ∈ s.base.nodes, 0 < n.len) (hlen : 0 < it.len + it.remaining) :
    ∃ x it' pre' post', iterFwdChr s it = (x.getD 0, it') ∧ it'.On s.base pre' post' ∧
      it.rest s.heap post = x :: it'.rest s.heap post' ∧
      it'.len + it'.remaining + 1 = it.len + it.remaining := by
  have here : ∀ {it : Iter} {pre post : List Node}, it.On s.base pre post → 0 < it.len →
      ∃ x it' pre' post', iterFwdChr s it = (x.getD 0, it') ∧ it'.On s.base pre' post' ∧
        it.rest s.heap post = x :: it'.rest s.heap post' ∧
        it'.len + it'.remaining + 1 = it.len + it.remaining := by
    intro it pre post on hlen
    have hle := on.len
    refine ⟨_, { it with off := it.off + 1, len := it.len - 1 }, pre, post, ?_, ?_,
      it.rest_cons s.heap on hlen, ?_⟩
    · have hb := byteAt_nodeBytes s.heap it.node (show it.off < it.node.len by omega)
      rw [byteAt] at hb
      rw [hb, iterFwdChr, if_neg (by omega)]
      dsimp only
      unfold Iter.ptr
      cases exportNodePtr s.heap it.node <;> rfl
    · refine ⟨on.nodes, ?_, on.rest, fun hr => ?_⟩
      · dsimp only
        omega
      · have := on.full hr
        dsimp only
        omega
    · dsimp only
      omega
  by_cases h0 : it.len = 0
  · rcases iterFwdNxt_cases on hd with ⟨hr, -⟩ | ⟨m, ms, rfl, hr, e, on'⟩
    · omega
    · have hm : 0 < m.len := hp m (by rw [on.nodes]; simp)
      have hfull := on.full (by omega)
      obtain ⟨x, it', pre', post', e', on'', hrest, hsum⟩ := here on' (by dsimp only; omega)
      refine ⟨x, it', pre', post', ?_, on'', ?_, ?_⟩
      · rw [← e', iterFwdChr, iterFwdChr, if_pos h0, e, if_neg (by dsimp only; omega)]
      · rw [← hrest, Iter.rest, Iter.rest]
        dsimp only
        rw [List.drop_append, length_nodeBytes, List.drop_eq_nil_of_le (by simp; omega),
          List.nil_append, List.drop_zero, flat_cons, show it.off - it.node.len = 0 by omega,
          List.drop_zero, h0, Nat.zero_add]
        congr 1
        omega
      · dsimp only at hsum
        omega
  · exact here on (by omega)

end Vstr
