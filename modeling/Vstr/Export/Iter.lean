import Vstr.Edit.Del
import Vstr.Model.Export

/-!
# Iterating over a slice

An iterator walks the nodes under a slice of the string. The stretches it visits, put
together, are the slice.
-/

namespace Vstr

open Memory Splice

variable {E : Env} {P : Own} {s : St} {q : Prop} {b : Base} {h : Heap} {it : Iter}
  {pre post : List Node} {pos len : Nat}

/-- The bytes of one stretch. -/
def Iter.bytes (h : Heap) (it : Iter) : List (Option UInt8) :=
  ((nodeBytes h it.node).drop it.off).take it.len

/-- The iterator stands on a node of the list, and the rest of the slice is behind it. -/
structure Iter.On (b : Base) (it : Iter) (pre post : List Node) : Prop where
  /-- The list around the node. -/
  nodes : b.nodes = pre ++ it.node :: post
  /-- The stretch is in the node. -/
  len : it.off + it.len ≤ it.node.len
  /-- The rest is in the nodes behind. -/
  rest : it.remaining ≤ lens post
  /-- If there is a rest, the stretch goes to the end of the node. -/
  full : it.remaining ≠ 0 → it.off + it.len = it.node.len

@[simp] theorem Iter.length_bytes (h : Heap) (on : it.On b pre post) :
    (it.bytes h).length = it.len := by
  have := on.len
  rw [Iter.bytes, List.length_take, List.length_drop, length_nodeBytes]
  omega

/-- A stretch of unknown bytes has no address, any other one has. -/
theorem Iter.bytes_eq (h : Heap) (on : it.On b pre post) :
    it.bytes h = match it.ptr h with
      | none => List.replicate it.len none
      | some p => (read h.mem p it.len).map some := by
  have hlen := on.len
  unfold Iter.bytes Iter.ptr nodeBytes
  cases exportNodePtr h it.node with
  | none =>
    dsimp only [Option.map_none]
    rw [List.drop_replicate, List.take_replicate, Nat.min_eq_left (by omega)]
  | some p =>
    dsimp only [Option.map_some]
    rw [← List.map_drop, ← List.map_take, drop_read, take_read _ _ (by omega)]

/-- `vstr_iter_fwd_nxt`: the slice is done, or the next node goes on with it. -/
theorem iterFwdNxt_cases (on : it.On b pre post) (hd : (b.nodes.map Node.id).Nodup) :
    (it.remaining = 0 ∧ iterFwdNxt b it = none) ∨
      ∃ m ms, post = m :: ms ∧ 0 < it.remaining ∧
        iterFwdNxt b it = some ⟨m, it.num + 1, 0, min m.len it.remaining,
          it.remaining - min m.len it.remaining⟩ ∧
        Iter.On b ⟨m, it.num + 1, 0, min m.len it.remaining,
          it.remaining - min m.len it.remaining⟩ (pre ++ [it.node]) ms := by
  unfold iterFwdNxt
  by_cases hr : it.remaining = 0
  · exact .inl ⟨hr, if_pos hr⟩
  · have hrest := on.rest
    cases post with
    | nil =>
      rw [lens_nil] at hrest
      omega
    | cons m ms =>
      rw [lens_cons] at hrest
      have hnext : b.nextOf it.node.id = some m := by
        rw [Base.nextOf, indexOf_of_eq on.nodes hd, on.nodes]
        simp
      refine .inr ⟨m, ms, rfl, by omega, ?_, ?_, ?_, ?_, ?_⟩
      · rw [if_neg hr, hnext]
      · rw [on.nodes, List.append_assoc]
        rfl
      · dsimp only
        omega
      · dsimp only
        omega
      · dsimp only
        omega

/-- What an iteration visits: nodes of the list, with the whole slice in them. -/
structure Covers (h : Heap) (b : Base) (its : List Iter) (xs : List (Option UInt8)) : Prop where
  /-- The stretches are the slice. -/
  bytes : its.flatMap (Iter.bytes h) = xs
  /-- Every stretch is in a node of the list. -/
  on : ∀ it ∈ its, ∃ pre post, it.On b pre post

/-- The whole iteration. -/
theorem iterAll_covers (h : Heap) (on : it.On b pre post) (hd : (b.nodes.map Node.id).Nodup)
    {fuel : Nat} (hfuel : post.length ≤ fuel) :
    Covers h b (iterAll b fuel it)
      (((nodeBytes h it.node ++ flat h post).drop it.off).take (it.len + it.remaining)) := by
  induction fuel generalizing it pre post with
  | zero =>
    obtain rfl : post = [] := List.length_eq_zero_iff.mp (by omega)
    have hr : it.remaining = 0 := by
      have := on.rest
      rw [lens_nil] at this
      omega
    refine ⟨?_, fun it' hit => ?_⟩
    · rw [iterAll, List.flatMap_singleton, hr, flat_nil, List.append_nil]
      rfl
    · rw [iterAll, List.mem_singleton] at hit
      exact ⟨pre, [], hit ▸ on⟩
  | succ fuel ih =>
    have hlen := on.len
    rw [iterAll]
    rcases iterFwdNxt_cases on hd with ⟨hr, e⟩ | ⟨m, ms, rfl, hr, e, on'⟩
    · rw [e]
      refine ⟨?_, fun it' hit => ?_⟩
      · rw [List.flatMap_singleton, hr, Iter.bytes, List.drop_append_of_le_length (by simp; omega),
          Nat.add_zero, List.take_append_of_le_length (by simp; omega)]
      · rw [List.mem_singleton] at hit
        exact ⟨pre, post, hit ▸ on⟩
    · rw [e]
      have c := ih on' (by simpa using hfuel)
      refine ⟨?_, fun it' hit => ?_⟩
      · have hfull := on.full (by omega)
        have hmin : min m.len it.remaining + (it.remaining - min m.len it.remaining) =
            it.remaining := by omega
        rw [List.flatMap_cons, c.bytes, Iter.bytes]
        dsimp only
        have hA : ((nodeBytes h it.node).drop it.off).length = it.len := by
          rw [List.length_drop, length_nodeBytes]
          omega
        rw [hmin, List.drop_zero, flat_cons, List.drop_append_of_le_length (by simp; omega),
          List.take_of_length_le (Nat.le_of_eq hA), ← hA, List.take_length_add_append]
      · rcases List.mem_cons.mp hit with rfl | hit
        · exact ⟨pre, m :: ms, on⟩
        · exact c.on it' hit

/-- A range that is inside the string passes the check. -/
theorem rangeOk_of_le (h1 : 1 ≤ pos) (h2 : pos + len ≤ b.len + 1) : rangeOk b pos len = true := by
  unfold rangeOk scPoslast
  rw [decide_eq_true_iff]
  refine ⟨by omega, ?_⟩
  by_cases hl : len = 0
  · exact .inr hl
  · refine .inl ⟨by omega, ?_⟩
    have := Nat.mod_le (pos + (len - 1)) (2 ^ 64)
    omega

/-- The slice under the nodes from the one at its beginning on. -/
theorem slice_content {n : Node} {off : Nat} (hns : s.base.nodes = pre ++ n :: post)
    (hoff : lens pre + off + 1 = pos + s.base.used) (h1 : 1 ≤ pos) (len : Nat) :
    slice (content s) pos len = ((nodeBytes s.heap n ++ flat s.heap post).drop off).take len := by
  have e : flat s.heap s.base.nodes =
      flat s.heap pre ++ (nodeBytes s.heap n ++ flat s.heap post) := by
    rw [hns, flat_append, flat_cons]
  rw [content, slice, e, List.drop_drop, List.drop_append, length_flat,
    List.drop_eq_nil_of_le (by rw [length_flat]; omega), List.nil_append]
  congr 2
  omega

/-- `vstr_iter_fwd_beg` on a slice that is not empty. -/
theorem iterFwdBeg_spec (sd : Sound E P s) (pk : PosOk q s.base) (h1 : 1 ≤ pos)
    (h2 : pos + len ≤ s.base.len + 1) (hlen : 0 < len) :
    ∃ it b' pre post, iterFwdBeg s pos len = (some it, ⟨s.heap, b'⟩) ∧
      b' = (basePos s.base pos true).2 ∧ it.On b' pre post ∧ it.len + it.remaining = len ∧
      0 < it.len ∧ lens pre + it.off + 1 = pos + s.base.used ∧
      (pre = [] → s.base.used ≤ it.off) ∧
      slice (content s) pos len =
        ((nodeBytes s.heap it.node ++ flat s.heap post).drop it.off).take len := by
  obtain ⟨pre, n, post, hat, -, -⟩ := basePos_at sd.valid sd.owned.nodes.nodup pk h1 (by omega) true
  have hcore := core_basePos s.base pos true
  have hns := hat.nodes
  have hpos := hat.pos
  have hle := hat.le_len
  have hone := hat.one_le
  have hv := sd.valid.len
  rw [hns, lens_append, lens_cons] at hv
  have hnode : (basePos s.base pos true).2.node (basePos s.base pos true).1.idx = n := by
    rw [hat.idx]
    exact node_of_eq ((nodes_of_core hcore).trans hns)
  generalize hf : (basePos s.base pos true).1 = f at *
  refine ⟨⟨n, f.num, f.pos - 1, min (n.len - (f.pos - 1)) len,
      len - min (n.len - (f.pos - 1)) len⟩, (basePos s.base pos true).2, pre, post, ?_, rfl,
      ⟨(nodes_of_core hcore).trans hns, ?_, ?_, ?_⟩, ?_, ?_, ?_, ?_, ?_⟩
  · unfold iterFwdBeg
    rw [rangeOk_of_le h1 h2, if_neg (by simp; omega)]
    dsimp only [St.pos]
    rw [hf, hnode]
  · dsimp only
    omega
  · dsimp only
    omega
  · dsimp only
    omega
  · dsimp only
    omega
  · dsimp only
    omega
  · dsimp only
    omega
  · rintro rfl
    rw [lens_nil] at hpos
    dsimp only
    omega
  · change slice (content s) pos len =
      ((nodeBytes s.heap n ++ flat s.heap post).drop (f.pos - 1)).take len
    exact slice_content hns (by omega) h1 len

end Vstr
