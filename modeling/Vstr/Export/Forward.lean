import Vstr.Export.Copy
import Vstr.Parse.Read
import Vstr.Model.Forward

/-!
# Reading from an iterator

An iterator that is read from, byte by byte or into buffers, is a reader of a list of bytes:
each call takes its bytes from the front of what is left, whatever nodes they are in.
-/

namespace Vstr.Fwd

open Memory Splice

variable {E : Env} {P : Own} {s : St} {b : Base} {h : Heap} {it : Iter} {o : Option Iter}
  {pre post : List Node} {pos len k n : Nat} {xs ys : List (Option UInt8)} {buf : Addr}

/-! ## What is left -/

/-- A list an iterator can walk over. -/
structure Walkable (b : Base) : Prop where
  /-- No node is twice on the list. -/
  nodup : (b.nodes.map Node.id).Nodup
  /-- No node is empty. -/
  pos : ∀ n ∈ b.nodes, 0 < n.len

/-- The iterator has these bytes still to visit. -/
inductive Holds (h : Heap) (b : Base) : Option Iter → List (Option UInt8) → Prop
  /-- It is done. -/
  | done : Holds h b none []
  /-- It is somewhere on the list. -/
  | here {it : Iter} {pre post : List Node} {xs : List (Option UInt8)} (on : it.On b pre post)
    (rest : it.rest h post = xs) : Holds h b (some it) xs

theorem length_rest (on : it.On b pre post) :
    (it.rest h post).length = it.len + it.remaining := by
  have hlen := on.len
  have hrest := on.rest
  rw [Iter.rest, List.length_take, List.length_drop, List.length_append, length_nodeBytes,
    length_flat]
  by_cases hr : it.remaining = 0
  · omega
  · have := on.full hr
    omega

/-- `vstr_iter_len` is what is left. -/
theorem Holds.length (ho : Holds h b o xs) : iterLen o = xs.length := by
  cases ho with
  | done => rfl
  | here on rest =>
    rw [← rest, length_rest on]
    rfl

/-- The next node begins with what is left. -/
theorem rest_nxt {m : Node} {ms : List Node} (on : it.On b pre (m :: ms)) (h0 : it.len = 0)
    (hr : it.remaining ≠ 0) :
    Iter.rest h ⟨m, it.num + 1, 0, min m.len it.remaining,
      it.remaining - min m.len it.remaining⟩ ms = it.rest h (m :: ms) := by
  have hfull := on.full hr
  have hlen : (nodeBytes h it.node).length = it.off := by
    rw [length_nodeBytes]
    omega
  have hmin : min m.len it.remaining + (it.remaining - min m.len it.remaining) =
      it.remaining := by omega
  rw [Iter.rest, Iter.rest, ← hlen, List.drop_left, h0, Nat.zero_add, flat_cons]
  dsimp only
  rw [List.drop_zero, hmin]

/-- `iter->len || vstr_iter_fwd_nxt(iter)`: there is nothing left, or the iterator is in front
of some bytes. -/
theorem more_spec (wk : Walkable b) (ho : Holds h b o xs) :
    (xs = [] ∧ iterMore b o = none) ∨ ∃ it pre post, iterMore b o = some it ∧
      it.On b pre post ∧ it.rest h post = xs ∧ 0 < it.len := by
  cases ho with
  | done => exact .inl ⟨rfl, rfl⟩
  | @here it pre post _ on rest =>
    by_cases h0 : it.len = 0
    · have hm : iterMore b (some it) = iterFwdNxt b it := if_pos h0
      rw [hm]
      rcases iterFwdNxt_cases on wk.nodup with ⟨hr, e⟩ | ⟨m, ms, rfl, hr, e, on'⟩
      · refine .inl ⟨?_, e⟩
        rw [← rest, Iter.rest, h0, hr]
        exact List.take_zero
      · have hpos : 0 < m.len := wk.pos m (by rw [on.nodes]; simp)
        refine .inr ⟨_, _, _, e, on', ?_, ?_⟩
        · rw [← rest]
          exact rest_nxt on h0 (Nat.pos_iff_ne_zero.1 hr)
        · show 0 < min m.len it.remaining
          omega
    · exact .inr ⟨it, pre, post, if_neg h0, on, rest, Nat.pos_of_ne_zero h0⟩

/-- Some bytes of the stretch are done. -/
theorem advance_on (on : it.On b pre post) (hk : k ≤ it.len) : (advance it k).On b pre post := by
  have hlen := on.len
  refine ⟨on.nodes, ?_, on.rest, fun hr => ?_⟩
  · show it.off + k + (it.len - k) ≤ it.node.len
    omega
  · have := on.full hr
    show it.off + k + (it.len - k) = it.node.len
    omega

theorem rest_advance (it : Iter) (h : Heap) (post : List Node) (hk : k ≤ it.len) :
    (advance it k).rest h post = (it.rest h post).drop k := by
  have hsum : it.len - k + it.remaining = it.len + it.remaining - k := by omega
  rw [Iter.rest, Iter.rest, List.drop_take, List.drop_drop, ← hsum]
  rfl

theorem Holds.advance (on : it.On b pre post) (rest : it.rest h post = xs) (hk : k ≤ it.len) :
    Holds h b (some (advance it k)) (xs.drop k) :=
  .here (advance_on on hk) (by rw [rest_advance it h post hk, rest])

/-! ## Memory that is not the list's -/

/-- Memory that the nodes do not have their bytes in may change. -/
def Outside (h : Heap) (ns : List Node) (m : Mem Blk UInt8) : Prop :=
  ∀ n ∈ ns, ∀ p, exportNodePtr h n = some p → m p.blk = h.mem p.blk

theorem Outside.nodeBytes {m : Mem Blk UInt8} {ns : List Node} (ou : Outside h ns m) {n : Node}
    (hn : n ∈ ns) : nodeBytes (h.setMem m) n = nodeBytes h n :=
  nodeBytes_congr rfl fun p hp => read_congr fun _ _ => congrFun (ou n hn p hp) _

theorem Outside.flat {m : Mem Blk UInt8} {ns : List Node} (ou : Outside h ns m) :
    flat (h.setMem m) ns = flat h ns := flat_congr fun _ hn => ou.nodeBytes hn

theorem Outside.holds {m : Mem Blk UInt8} (ou : Outside h b.nodes m) (ho : Holds h b o xs) :
    Holds (h.setMem m) b o xs := by
  cases ho with
  | done => exact .done
  | @here it pre post _ on rest =>
    refine .here on ?_
    have hn : it.node ∈ b.nodes := by
      rw [on.nodes]
      simp
    have hpost : Outside h post m := fun n hn => ou n (by rw [on.nodes]; simp [hn])
    rw [Iter.rest, ou.nodeBytes hn, hpost.flat]
    exact rest

theorem outside_patch {ns : List Node} (ha : Apart h ns buf.blk) (ys : List (Option UInt8)) :
    Outside h ns (patch h.mem buf ys) := fun n hn p hp => patch_of_ne _ _ (ha n hn p hp)

theorem outside_write {ns : List Node} (ha : Apart h ns buf.blk) (k : Nat) (bs : List UInt8) :
    Outside h ns (write h.mem (buf.add k) bs) := fun n hn p hp => write_of_ne _ _ (ha n hn p hp)

/-- What is copied is what comes next. -/
theorem copyOut_eq (on : it.On b pre post) (hk : k ≤ it.len) (buf : Addr) :
    copyOut h it buf k = h.setMem (patch h.mem buf ((it.rest h post).take k)) := by
  have hlen := on.len
  have hb : (it.rest h post).take k = (it.bytes h).take k := by
    rw [Iter.rest, Iter.bytes, List.take_take, List.take_take, Nat.min_eq_left (by omega),
      Nat.min_eq_left hk, List.drop_append_of_le_length (by rw [length_nodeBytes]; omega),
      List.take_append_of_le_length (by rw [List.length_drop, length_nodeBytes]; omega)]
  rw [hb, it.bytes_eq h on, copyOut]
  cases it.ptr h with
  | none =>
    dsimp only
    rw [List.take_replicate, patch_replicate_none]
    rfl
  | some p =>
    dsimp only
    rw [← List.map_take, take_read _ _ hk, patch_map_some]
    rfl

/-! ## A reader -/

/-- A reader: the memory it writes to, and the bytes that are left. -/
structure Reader where
  /-- The memory. -/
  mem : Mem Blk UInt8
  /-- What is left. -/
  left : List (Option UInt8)

/-- `*ern` of a call that asks for several bytes. -/
def Reader.ern (r : Reader) : Ern := if r.left = [] then .iterEnd else .iterDef

/-- The first bytes that are left go to a buffer, as far as there is room. -/
def Reader.copyTo (r : Reader) (len : Nat) (buf : Addr) (bufLen : Nat) : Reader :=
  ⟨patch r.mem buf ((r.left.take len).take bufLen), r.left.drop len⟩

/-- They go there with a zero byte behind them, and one at the end of the buffer. -/
def Reader.strTo (r : Reader) (len : Nat) (buf : Addr) (bufLen : Nat) : Reader :=
  let t := Reader.copyTo ⟨write r.mem (buf.add (bufLen - 1)) [0], r.left⟩ len buf (bufLen - 1)
  ⟨write t.mem (buf.add (min (min len r.left.length) (bufLen - 1))) [0], t.left⟩

/-- One call of a reader. -/
def Reader.call (r : Reader) : Call → Reply × Reader
  | .chr =>
    match r.left with
    | [] => (.chr 0 .iterEnd, r)
    | none :: xs => (.chr 0 .iterNon, ⟨r.mem, xs⟩)
    | some c :: xs => (.chr c .iterDef, ⟨r.mem, xs⟩)
  | .buf len buf bufLen => (.len (min len r.left.length) (some r.ern), r.copyTo len buf bufLen)
  | .cstr len buf bufLen =>
    if bufLen = 0 then (.len 0 none, r)
    else (.len (min len r.left.length) (some r.ern), r.strTo len buf bufLen)

/-- Calls one after the other. -/
def Reader.calls : Reader → List Call → List Reply × Reader
  | r, [] => ([], r)
  | r, c :: cs => ((r.call c).1 :: ((r.call c).2.calls cs).1, ((r.call c).2.calls cs).2)

/-- A call does not write to where a node has its bytes. -/
def Call.Apart (h : Heap) (ns : List Node) : Call → Prop
  | .chr => True
  | .buf _ buf _ => Vstr.Apart h ns buf.blk
  | .cstr _ buf _ => Vstr.Apart h ns buf.blk

/-- The first byte that is left is the one the iterator points to. -/
theorem rest_chr (on : it.On b pre post) (hpos : 0 < it.len) :
    it.rest h post = (it.ptr h).map h.byte :: (advance it 1).rest h post := by
  have hlen := on.len
  rw [it.rest_cons h (s := ⟨h, b⟩) on hpos]
  congr 1
  unfold Iter.ptr nodeBytes
  cases exportNodePtr h it.node with
  | none =>
    dsimp only [Option.map_none]
    rw [List.getElem?_replicate, if_pos (by omega)]
    rfl
  | some p =>
    dsimp only [Option.map_some]
    rw [List.getElem?_map, getElem?_read, if_pos (by omega)]
    rfl

/-- `vstr_iter_fwd_chr`. -/
theorem chr_spec (wk : Walkable b) (ho : Holds h b o xs) (m : Mem Blk UInt8) :
    ∃ o', iterCall b h o .chr = ((Reader.call ⟨m, xs⟩ .chr).1, h, o') ∧
      Holds h b o' (Reader.call ⟨m, xs⟩ .chr).2.left := by
  rcases more_spec wk ho with ⟨rfl, e⟩ | ⟨it, pre, post, e, on, rest, hpos⟩
  · refine ⟨none, ?_, .done⟩
    rw [iterCall, iterFwdChr, e]
    rfl
  · rw [rest_chr on hpos] at rest
    subst rest
    refine ⟨some (advance it 1), ?_, ?_⟩
    · rw [iterCall, iterFwdChr, e]
      dsimp only
      cases it.ptr h with
      | none => rfl
      | some p => rfl
    · have hnext : Holds h b (some (advance it 1)) ((advance it 1).rest h post) :=
        .here (advance_on on hpos) rfl
      cases it.ptr h with
      | none => exact hnext
      | some p => exact hnext

/-- What is stored in two parts. -/
theorem take_parts (xs : List (Option UInt8)) (hk : k ≤ len) (n : Nat) :
    xs.take (min k n) ++ ((xs.drop k).take (len - k)).take (n - min k n) =
      (xs.take len).take n := by
  by_cases hn : n ≤ k
  · rw [Nat.min_eq_right hn, Nat.sub_self, List.take_zero, List.append_nil, List.take_take,
      Nat.min_eq_left (by omega)]
  · have hle : k ≤ n := by omega
    have hsum : min n len = k + min (n - k) (len - k) := by omega
    rw [Nat.min_eq_left hle, List.take_take, List.take_take, hsum, List.take_add]

/-- The loop of `vstr_iter_fwd_buf` takes what was asked for, or what is left. -/
theorem bufLoop_spec (wk : Walkable b) (fuel : Nat) (hf : len < fuel) (ho : Holds h b o xs)
    (ha : Apart h b.nodes buf.blk) (bufLen : Nat) :
    ∃ o', iterFwdBufLoop b fuel h o len buf bufLen = (len - min len xs.length,
        h.setMem (patch h.mem buf ((xs.take len).take bufLen)), o') ∧
      Holds (h.setMem (patch h.mem buf ((xs.take len).take bufLen))) b o' (xs.drop len) := by
  induction fuel generalizing h o len buf bufLen xs with
  | zero => exact absurd hf (Nat.not_lt_zero len)
  | succ fuel ih =>
    rcases more_spec wk ho with ⟨rfl, e⟩ | ⟨it, pre, post, e, on, rest, hpos⟩
    · refine ⟨none, ?_, ?_⟩
      · rw [iterFwdBufLoop, e, List.take_nil, List.take_nil, patch_nil, List.length_nil,
          Nat.min_zero]
        rfl
      · rw [List.drop_nil]
        exact .done
    · by_cases hl : len = 0
      · subst hl
        rw [List.take_zero, List.take_nil, patch_nil, List.drop_zero]
        refine ⟨some it, ?_, .here on rest⟩
        rw [iterFwdBufLoop, e, Nat.zero_min]
        rfl
      · have hx : it.len ≤ xs.length := by
          rw [← rest, length_rest on]
          omega
        obtain ⟨k, hkd⟩ : ∃ k, k = min len it.len := ⟨_, rfl⟩
        have hk : k ≤ it.len ∧ k ≤ len ∧ 0 < k := by omega
        have hcopy := copyOut_eq (h := h) on (k := min k bufLen) (by omega) buf
        rw [rest] at hcopy
        have ou := outside_patch ha (xs.take (min k bufLen))
        have hadv := ou.holds (Holds.advance on rest hk.1)
        have hfu : len - k < fuel := by omega
        have ha' : Apart (h.setMem (patch h.mem buf (xs.take (min k bufLen)))) b.nodes
            (buf.add (min k bufLen)).blk := ha
        obtain ⟨o', e', ho'⟩ := ih hfu hadv ha' (bufLen - min k bufLen)
        have hlk : (xs.take (min k bufLen)).length = min k bufLen := by
          rw [List.length_take]
          omega
        have hmem := patch_append h.mem buf (xs.take (min k bufLen))
          (((xs.drop k).take (len - k)).take (bufLen - min k bufLen))
        rw [hlk, take_parts xs hk.2.1] at hmem
        have hset : (h.setMem (patch h.mem buf (xs.take (min k bufLen)))).setMem
            (patch (h.setMem (patch h.mem buf (xs.take (min k bufLen)))).mem
              (buf.add (min k bufLen))
              (((xs.drop k).take (len - k)).take (bufLen - min k bufLen))) =
            h.setMem (patch h.mem buf ((xs.take len).take bufLen)) := by
          rw [← hmem]
          rfl
        have hdrop : (xs.drop k).drop (len - k) = xs.drop len := by
          rw [List.drop_drop, Nat.add_sub_cancel' hk.2.1]
        have hleft : len - k - min (len - k) (xs.drop k).length = len - min len xs.length := by
          rw [List.length_drop]
          omega
        rw [hset, hleft] at e'
        rw [hset, hdrop] at ho'
        refine ⟨o', ?_, ho'⟩
        rw [iterFwdBufLoop, e]
        dsimp only
        rw [if_neg hl, ← hkd, hcopy, e']

/-- `vstr_iter_fwd_buf`. -/
theorem buf_spec (wk : Walkable b) (ho : Holds h b o xs) (ha : Apart h b.nodes buf.blk)
    (len bufLen : Nat) :
    ∃ o', iterFwdBuf b h o len buf bufLen = ((min len xs.length, Reader.ern ⟨h.mem, xs⟩),
        h.setMem (Reader.copyTo ⟨h.mem, xs⟩ len buf bufLen).mem, o') ∧
      Holds (h.setMem (Reader.copyTo ⟨h.mem, xs⟩ len buf bufLen).mem) b o' (xs.drop len) := by
  rcases more_spec wk ho with ⟨rfl, e⟩ | ⟨it, pre, post, e, on, rest, hpos⟩
  · have hm : (Reader.copyTo ⟨h.mem, []⟩ len buf bufLen).mem = h.mem := by
      show patch h.mem buf (([].take len).take bufLen) = h.mem
      rw [List.take_nil, List.take_nil, patch_nil]
    rw [hm, List.drop_nil]
    refine ⟨none, ?_, .done⟩
    rw [iterFwdBuf, e, List.length_nil, Nat.min_zero]
    rfl
  · obtain ⟨o', e', ho'⟩ := bufLoop_spec wk (len + 1) (Nat.lt_succ_self len)
      (.here on rest : Holds h b (some it) xs) ha bufLen
    have hne : xs ≠ [] := by
      rw [← List.length_pos_iff, ← rest, length_rest on]
      omega
    have hern : Reader.ern ⟨h.mem, xs⟩ = .iterDef := if_neg hne
    have hlen : len - (len - min len xs.length) = min len xs.length := by omega
    refine ⟨o', ?_, ho'⟩
    rw [iterFwdBuf, e]
    dsimp only
    rw [e', hern]
    dsimp only
    rw [hlen]
    rfl

/-- A zero byte behind what is stored stays where it is. -/
theorem write_zero_again (m : Mem Blk UInt8) (buf : Addr) (hk : xs.length ≤ k) :
    write (patch (write m (buf.add k) [0]) buf xs) (buf.add k) [0] =
      patch (write m (buf.add k) [0]) buf xs := by
  have hz : read (patch (write m (buf.add k) [0]) buf xs) (buf.add k) 1 = [0] := by
    have hr : read (patch (write m (buf.add k) [0]) buf xs) (buf.add k) 1 =
        read (write m (buf.add k) [0]) (buf.add k) 1 := by
      refine read_congr fun i _ => ?_
      exact patch_of_ge _ _ _ _ (by rw [Ptr.add_off]; omega)
    rw [hr]
    exact read_write_self m (buf.add k) [0]
  have hw := write_read (patch (write m (buf.add k) [0]) buf xs) (buf.add k) 1
  rwa [hz] at hw

/-- `vstr_iter_fwd_cstr`. -/
theorem cstr_spec (wk : Walkable b) (ho : Holds h b o xs) (ha : Apart h b.nodes buf.blk)
    (len : Nat) {bufLen : Nat} (hb : bufLen ≠ 0) :
    ∃ o', iterFwdCstr b h o len buf bufLen = ((min len xs.length, some (Reader.ern ⟨h.mem, xs⟩)),
        h.setMem (Reader.strTo ⟨h.mem, xs⟩ len buf bufLen).mem, o') ∧
      Holds (h.setMem (Reader.strTo ⟨h.mem, xs⟩ len buf bufLen).mem) b o' (xs.drop len) := by
  have hz := (outside_write ha (bufLen - 1) [0]).holds ho
  obtain ⟨o', e, ho'⟩ := buf_spec wk hz (show Apart _ b.nodes buf.blk from ha) len (bufLen - 1)
  have hcall : iterFwdCstr b h o len buf bufLen = ((min len xs.length,
      some (Reader.ern ⟨h.mem, xs⟩)),
      h.setMem (Reader.strTo ⟨h.mem, xs⟩ len buf bufLen).mem, o') := by
    rw [iterFwdCstr, if_neg hb]
    dsimp only
    rw [e]
    dsimp only
    split
    · rename_i hlt
      have hmin : min (min len xs.length) (bufLen - 1) = min len xs.length := by omega
      rw [Reader.strTo]
      dsimp only
      rw [hmin]
      rfl
    · rename_i hge
      have hmin : min (min len xs.length) (bufLen - 1) = bufLen - 1 := by omega
      have hl : ((xs.take len).take (bufLen - 1)).length ≤ bufLen - 1 := List.length_take_le _ _
      have hs : (Reader.strTo ⟨h.mem, xs⟩ len buf bufLen).mem =
          (Reader.copyTo ⟨write h.mem (buf.add (bufLen - 1)) [0], xs⟩ len buf
            (bufLen - 1)).mem := by
        rw [Reader.strTo]
        dsimp only
        rw [hmin]
        exact write_zero_again h.mem buf hl
      rw [hs]
      rfl
  refine ⟨o', hcall, ?_⟩
  have ha' : Apart (h.setMem (Reader.copyTo ⟨write h.mem (buf.add (bufLen - 1)) [0], xs⟩ len buf
      (bufLen - 1)).mem) b.nodes buf.blk := ha
  exact (outside_write ha' _ [0]).holds ho'

/-- One call does what the reader does. -/
theorem call_spec (wk : Walkable b) (ho : Holds h b o xs) {c : Call} (ha : c.Apart h b.nodes) :
    ∃ o', iterCall b h o c = ((Reader.call ⟨h.mem, xs⟩ c).1,
        h.setMem (Reader.call ⟨h.mem, xs⟩ c).2.mem, o') ∧
      Holds (h.setMem (Reader.call ⟨h.mem, xs⟩ c).2.mem) b o'
        (Reader.call ⟨h.mem, xs⟩ c).2.left := by
  cases c with
  | chr =>
    obtain ⟨o', e, ho'⟩ := chr_spec wk ho h.mem
    have hm : (Reader.call ⟨h.mem, xs⟩ .chr).2.mem = h.mem := by
      rcases xs with - | ⟨- | c, xs⟩ <;> rfl
    rw [hm]
    exact ⟨o', e, ho'⟩
  | buf len buf bufLen =>
    obtain ⟨o', e, ho'⟩ := buf_spec wk ho ha len bufLen
    refine ⟨o', ?_, ho'⟩
    rw [iterCall, e]
    rfl
  | cstr len buf bufLen =>
    by_cases hb : bufLen = 0
    · have hc : Reader.call ⟨h.mem, xs⟩ (.cstr len buf bufLen) = (.len 0 none, ⟨h.mem, xs⟩) :=
        if_pos hb
      rw [hc]
      refine ⟨o, ?_, ho⟩
      rw [iterCall, iterFwdCstr, if_pos hb]
      rfl
    · have hc : Reader.call ⟨h.mem, xs⟩ (.cstr len buf bufLen) =
          (.len (min len xs.length) (some (Reader.ern ⟨h.mem, xs⟩)),
            Reader.strTo ⟨h.mem, xs⟩ len buf bufLen) := if_neg hb
      obtain ⟨o', e, ho'⟩ := cstr_spec wk ho ha len hb
      rw [hc]
      refine ⟨o', ?_, ho'⟩
      rw [iterCall, e]

/-- Any calls do what the reader does. -/
theorem calls_spec (wk : Walkable b) (ho : Holds h b o xs) {cs : List Call}
    (ha : ∀ c ∈ cs, c.Apart h b.nodes) :
    ∃ o', iterCalls b cs h o = ((Reader.calls ⟨h.mem, xs⟩ cs).1,
        h.setMem (Reader.calls ⟨h.mem, xs⟩ cs).2.mem, o') ∧
      Holds (h.setMem (Reader.calls ⟨h.mem, xs⟩ cs).2.mem) b o'
        (Reader.calls ⟨h.mem, xs⟩ cs).2.left := by
  induction cs generalizing h o xs with
  | nil => exact ⟨o, rfl, ho⟩
  | cons c cs ih =>
    obtain ⟨o₁, e₁, ho₁⟩ := call_spec wk ho (ha c List.mem_cons_self)
    have ha' : ∀ c' ∈ cs, c'.Apart (h.setMem (Reader.call ⟨h.mem, xs⟩ c).2.mem) b.nodes := by
      intro c' hc'
      have hx := ha c' (List.mem_cons_of_mem _ hc')
      cases c' with
      | chr => trivial
      | buf => exact hx
      | cstr => exact hx
    obtain ⟨o', e, ho'⟩ := ih ho₁ ha'
    refine ⟨o', ?_, ho'⟩
    rw [iterCalls, e₁]
    dsimp only
    rw [e]
    rfl

end Vstr.Fwd
