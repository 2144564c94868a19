import Vstr.Spec.Ownership

/-!
# The structural invariant

What `vstr__check_real_nodes` checks, and what the position cache is good for. The
node number in the position cache is kept apart: finding a position does not depend
on it.
-/

namespace Vstr

open Memory

/-- A base without its caches. -/
def Base.core (b : Base) : Base :=
  { b with
    iovecUptoDate := false
    cacheInternal := false
    posData := ⟨none, 0, 0⟩
    vec := none
    cstr := none }

/-- `vstr__check_real_nodes`, with the limits of the length fields. -/
structure Valid (bufSz : Nat) (b : Base) : Prop where
  /-- The length is the sum of the lengths of the nodes, less the used bytes. -/
  len : b.len + b.used = lens b.nodes
  /-- The number of nodes. -/
  num : b.num = b.nodes.length
  /-- `end` is the last node. -/
  endNode : b.endNode = b.nodes.getLast?.map Node.id
  /-- No node is empty. -/
  pos : ∀ n ∈ b.nodes, 0 < n.len
  /-- Only a `BUF` node has used bytes, and not only used ones. -/
  used : b.used ≠ 0 → ∃ n ns, b.nodes = n :: ns ∧ n.data = .buf ∧ b.used < n.len
  /-- The type of every node is marked as used. -/
  flags : ∀ n ∈ b.nodes, b.nodeUsed n.type = true
  /-- No `BUF` node is longer than its buffer. -/
  buf : ∀ n ∈ b.nodes, n.type = .buf → n.len ≤ bufSz
  /-- Every length fits its 28 bits. -/
  max : ∀ n ∈ b.nodes, n.len ≤ maxNodeAll

/-- The node `id` is on the list, behind `i` nodes with `k` bytes. -/
def Sits (ns : List Node) (id k i : Nat) : Prop :=
  ∃ pre n post, ns = pre ++ n :: post ∧ n.id = id ∧ lens pre = k ∧ pre.length = i

/-- The cached node is on the list and starts at the cached position; given `q`, the
cached number is its number. -/
def PosOk (q : Prop) (b : Base) : Prop :=
  ∀ id, b.posData.node = some id → b.cacheAvailable = true → 1 ≤ b.posData.pos ∧
    ∃ k i, b.posData.pos + b.used = k + 1 ∧ Sits b.nodes id k i ∧ (q → b.posData.num = i + 1)

/-- What every operation may rely on, and keeps: places and structure. -/
structure Sound (E : Env) (P : Own) (s : St) : Prop where
  /-- Places. -/
  owned : Owned E P s.heap s.base.nodes
  /-- Structure. -/
  valid : Valid s.conf.bufSz s.base
  /-- A node holds something. -/
  bufSz_pos : 0 < s.conf.bufSz
  /-- `used` fits its 16 bits. -/
  bufSz_le : s.conf.bufSz ≤ maxNodeBuf

/-- `f` is where the byte at `pos` is: behind the nodes `pre`, in `n`. -/
structure At (b : Base) (pos : Nat) (f : Found) (pre : List Node) (n : Node)
    (post : List Node) : Prop where
  /-- The list around the node. -/
  nodes : b.nodes = pre ++ n :: post
  /-- The index. -/
  idx : f.idx = pre.length
  /-- The offset. -/
  pos : lens pre + f.pos = pos + b.used
  /-- The offset counts from one. -/
  one_le : 1 ≤ f.pos
  /-- The byte is in the node. -/
  le_len : f.pos ≤ n.len

/-! ## Lists of nodes -/

theorem lens_pos {ns : List Node} (h : ∀ n ∈ ns, 0 < n.len) (hne : ns ≠ []) : 0 < lens ns := by
  cases ns with
  | nil => exact absurd rfl hne
  | cons n ns =>
    have := h n List.mem_cons_self
    rw [lens_cons]
    omega

theorem node_of_eq {b : Base} {pre post : List Node} {n : Node} (h : b.nodes = pre ++ n :: post) :
    b.node pre.length = n := by
  rw [Base.node, h]
  simp

theorem node_zero_of_eq {b : Base} {post : List Node} {n : Node} (h : b.nodes = n :: post) :
    b.node 0 = n := by
  rw [Base.node, h]
  rfl

/-- Names are unique, so a node is found where it is. -/
theorem findIdx_of_eq {pre post : List Node} {n : Node}
    (hd : ((pre ++ n :: post).map Node.id).Nodup) :
    (pre ++ n :: post).findIdx (·.id = n.id) = pre.length := by
  rw [List.findIdx_append]
  rw [List.map_append, List.map_cons] at hd
  have hne : ∀ m ∈ pre, m.id ≠ n.id := by
    intro m hm e
    have := (List.nodup_append.mp hd).2.2 m.id (List.mem_map_of_mem hm) n.id List.mem_cons_self
    exact this e
  rw [List.findIdx_eq_length_of_false, if_neg (Nat.lt_irrefl _), List.findIdx_cons]
  · simp
  · intro m hm
    simp [hne m hm]

theorem indexOf_of_eq {b : Base} {pre post : List Node} {n : Node}
    (h : b.nodes = pre ++ n :: post) (hd : (b.nodes.map Node.id).Nodup) :
    b.indexOf n.id = pre.length := by
  rw [h] at hd
  rw [Base.indexOf, h]
  exact findIdx_of_eq hd

/-- The same node at two places of a list without repetitions is at one place. -/
theorem split_unique {pre post pre' post' : List Node} {n n' : Node}
    (h : pre ++ n :: post = pre' ++ n' :: post') (he : n'.id = n.id)
    (hd : ((pre ++ n :: post).map Node.id).Nodup) : pre' = pre ∧ n' = n ∧ post' = post := by
  induction pre generalizing pre' with
  | nil =>
    cases pre' with
    | nil =>
      simp only [List.nil_append, List.cons.injEq] at h
      exact ⟨rfl, h.1.symm, h.2.symm⟩
    | cons m pre' =>
      simp only [List.nil_append, List.cons_append, List.cons.injEq] at h
      rw [List.nil_append, List.map_cons, List.nodup_cons] at hd
      exfalso
      apply hd.1
      rw [h.2, ← he]
      exact List.mem_map_of_mem (by simp)
  | cons m pre ih =>
    cases pre' with
    | nil =>
      simp only [List.nil_append, List.cons_append, List.cons.injEq] at h
      rw [List.cons_append, List.map_cons, List.nodup_cons] at hd
      exfalso
      apply hd.1
      rw [h.1, he]
      exact List.mem_map_of_mem (by simp)
    | cons m' pre' =>
      simp only [List.cons_append, List.cons.injEq] at h
      rw [List.cons_append, List.map_cons, List.nodup_cons] at hd
      obtain ⟨h1, h2, h3⟩ := ih h.2 hd.2
      exact ⟨by rw [h1, h.1], h2, h3⟩

/-- The last node of a list, found through `base->end`. -/
theorem Valid.last {bufSz : Nat} {b : Base} (v : Valid bufSz b)
    (hd : (b.nodes.map Node.id).Nodup) {pre : List Node} {n : Node}
    (h : b.nodes = pre ++ [n]) :
    b.endNode = some n.id ∧ b.indexOf (b.endNode.getD 0) = pre.length := by
  have he : b.endNode = some n.id := by
    rw [v.endNode, h, List.getLast?_append]
    simp
  refine ⟨he, ?_⟩
  rw [he]
  exact indexOf_of_eq h hd

theorem sits_append {a b : List Node} {id k i : Nat} :
    Sits (a ++ b) id k i ↔
      Sits a id k i ∨ ∃ k' i', k = lens a + k' ∧ i = a.length + i' ∧ Sits b id k' i' := by
  constructor
  · rintro ⟨pre, n, post, h, rfl, rfl, rfl⟩
    rcases List.append_eq_append_iff.mp h with ⟨c, hc, hb⟩ | ⟨c, hc, hb⟩
    · refine .inr ⟨lens c, c.length, ?_, ?_, c, n, post, hb, rfl, rfl, rfl⟩
      · rw [hc, lens_append]
      · rw [hc, List.length_append]
    · cases c with
      | nil =>
        rw [List.append_nil] at hc
        refine .inr ⟨0, 0, ?_, ?_, [], n, post, hb.symm, rfl, rfl, rfl⟩
        · rw [hc, Nat.add_zero]
        · rw [hc, Nat.add_zero]
      | cons m c =>
        rw [List.cons_append, List.cons.injEq] at hb
        exact .inl ⟨pre, n, c, by rw [hc, hb.1], rfl, rfl, rfl⟩
  · rintro (⟨pre, n, post, rfl, rfl, rfl, rfl⟩ |
      ⟨k', i', rfl, rfl, pre, n, post, rfl, rfl, rfl, rfl⟩)
    · exact ⟨pre, n, post ++ b, by rw [List.append_assoc, List.cons_append], rfl, rfl, rfl⟩
    · exact ⟨a ++ pre, n, post, by rw [List.append_assoc], rfl, by rw [lens_append],
        by rw [List.length_append]⟩

theorem sits_cons {n : Node} {ns : List Node} {id k i : Nat} :
    Sits (n :: ns) id k i ↔ (n.id = id ∧ k = 0 ∧ i = 0) ∨
      ∃ k' i', k = n.len + k' ∧ i = i' + 1 ∧ Sits ns id k' i' := by
  constructor
  · rintro ⟨pre, m, post, h, rfl, rfl, rfl⟩
    cases pre with
    | nil =>
      rw [List.nil_append, List.cons.injEq] at h
      exact .inl ⟨by rw [h.1], rfl, rfl⟩
    | cons p pre =>
      rw [List.cons_append, List.cons.injEq] at h
      exact .inr ⟨lens pre, pre.length, by rw [lens_cons, h.1], rfl, pre, m, post, h.2, rfl,
        rfl, rfl⟩
  · rintro (⟨rfl, rfl, rfl⟩ | ⟨k', i', rfl, rfl, pre, m, post, rfl, rfl, rfl, rfl⟩)
    · exact ⟨[], n, ns, rfl, rfl, rfl, rfl⟩
    · exact ⟨n :: pre, m, post, rfl, rfl, rfl, rfl⟩

/-! ## Finding a position -/

theorem scanNodes_spec (ns : List Node) (pos : Nat) (h1 : 1 ≤ pos) (h2 : pos ≤ lens ns) :
    ∃ pre n post, ns = pre ++ n :: post ∧ (scanNodes ns pos).1 = pre.length ∧
      lens pre + (scanNodes ns pos).2 = pos ∧ 1 ≤ (scanNodes ns pos).2 ∧
      (scanNodes ns pos).2 ≤ n.len := by
  induction ns generalizing pos with
  | nil =>
    rw [lens_nil] at h2
    omega
  | cons n ns ih =>
    rw [lens_cons] at h2
    unfold scanNodes
    dsimp only
    split
    · rename_i hgt
      obtain ⟨pre, m, post, hns, hlen, hpos, hone, hle⟩ :=
        ih (pos - n.len) (by omega) (by omega)
      refine ⟨n :: pre, m, post, by rw [hns, List.cons_append], ?_, ?_, hone, hle⟩
      · rw [List.length_cons, ← hlen]
      · rw [lens_cons]; dsimp only; omega
    · exact ⟨[], n, ns, rfl, rfl, by rw [lens_nil]; omega, h1, by omega⟩

/-- Scanning from a node that starts at or before the position. -/
theorem scanFrom_spec {b : Base} {pos : Nat} {f : Found} {pre : List Node} {n : Node}
    {post : List Node} (hns : b.nodes = pre ++ n :: post) (hidx : f.idx = pre.length)
    (hpos : lens pre + f.pos = pos + b.used) (h1 : 1 ≤ f.pos)
    (h2 : pos + b.used ≤ lens b.nodes) :
    ∃ pre' n' post', At b pos (scanFrom b f) pre' n' post' ∧
      (f.num = pre.length + 1 → (scanFrom b f).num = pre'.length + 1) := by
  have hdrop : b.nodes.drop f.idx = n :: post := by
    rw [hns, hidx]
    exact List.drop_left' rfl
  have hle : f.pos ≤ lens (n :: post) := by
    rw [hns, lens_append] at h2
    omega
  obtain ⟨pre', n', post', hns', hlen, hp, hone, hle'⟩ := scanNodes_spec (n :: post) f.pos h1 hle
  refine ⟨pre ++ pre', n', post', ⟨?_, ?_, ?_, ?_, ?_⟩, ?_⟩
  · rw [hns, hns', List.append_assoc]
  · simp only [scanFrom, hdrop, hlen, List.length_append]
    rw [hidx]
  · simp only [scanFrom, hdrop, lens_append]
    omega
  · simpa only [scanFrom, hdrop] using hone
  · simpa only [scanFrom, hdrop] using hle'
  · intro hnum
    simp only [scanFrom, hdrop, hlen, List.length_append, hnum]
    omega

/-- The scan starts at a node that is on the list. -/
theorem scanStart_spec {bufSz : Nat} {b : Base} {pos : Nat} (v : Valid bufSz b)
    (hd : (b.nodes.map Node.id).Nodup) {q : Prop} (pk : PosOk q b) (h1 : 1 ≤ pos)
    (h2 : pos ≤ b.len) :
    ∃ pre n post, b.nodes = pre ++ n :: post ∧ (scanStart b pos).idx = pre.length ∧
      lens pre + (scanStart b pos).pos = pos + b.used ∧ 1 ≤ (scanStart b pos).pos ∧
      (q → (scanStart b pos).num = pre.length + 1) := by
  have hne : b.nodes ≠ [] := by
    intro e
    have := v.len
    rw [e, lens_nil] at this
    omega
  obtain ⟨m, ms, hm⟩ := List.exists_cons_of_ne_nil hne
  unfold scanStart
  split
  · rename_i id hid
    split
    · rename_i hc
      obtain ⟨hone, k, i, hstart, ⟨pre, n, post, hns, hn, rfl, rfl⟩, hnum⟩ := pk id hid hc.1
      refine ⟨pre, n, post, hns, ?_, ?_, ?_, ?_⟩
      · rw [← hn]
        exact indexOf_of_eq hns hd
      · dsimp only
        omega
      · dsimp only
        omega
      · exact hnum
    · exact ⟨[], m, ms, hm, rfl, by rw [lens_nil, Nat.zero_add], by dsimp only; omega,
        fun _ => rfl⟩
  · exact ⟨[], m, ms, hm, rfl, by rw [lens_nil, Nat.zero_add], by dsimp only; omega,
      fun _ => rfl⟩

/-- `vstr_base__pos` finds the position, whatever helps it. -/
theorem basePos_at {bufSz : Nat} {b : Base} {pos : Nat} (v : Valid bufSz b)
    (hd : (b.nodes.map Node.id).Nodup) {q : Prop} (pk : PosOk q b) (h1 : 1 ≤ pos) (h2 : pos ≤ b.len)
    (cache : Bool) :
    ∃ pre n post, At b pos (basePos b pos cache).1 pre n post ∧
      (q → (basePos b pos cache).1.num = pre.length + 1) ∧
      ((basePos b pos cache).2 = b ∨ (pre ≠ [] ∧ (basePos b pos cache).2 =
        cachePos b n.id (pos - (basePos b pos cache).1.pos + 1) (basePos b pos cache).1.num)) := by
  have hlen := v.len
  have hne : b.nodes ≠ [] := by
    intro e
    rw [e, lens_nil] at hlen
    omega
  obtain ⟨m, ms, hm⟩ := List.exists_cons_of_ne_nil hne
  have hnode : b.node 0 = m := node_zero_of_eq hm
  unfold basePos
  rw [hnode]
  split
  · rename_i hle
    refine ⟨[], m, ms, ⟨hm, rfl, by rw [lens_nil, Nat.zero_add], by dsimp only; omega, hle⟩,
      fun _ => rfl, .inl rfl⟩
  · rename_i hgt
    obtain ⟨pre, n, hpn⟩ : ∃ pre n, b.nodes = pre ++ [n] :=
      ⟨b.nodes.dropLast, b.nodes.getLast hne, (List.dropLast_append_getLast hne).symm⟩
    have hlast := (v.last hd hpn).2
    have hnode' : b.node pre.length = n := node_of_eq hpn
    have hpre : pre ≠ [] := by
      rintro rfl
      rw [hpn] at hm
      cases hm
      rw [hpn, lens_append, lens_nil, lens_cons, lens_nil] at hlen
      omega
    have hused : b.used ≤ lens pre := by
      obtain ⟨q, qs, hq⟩ := List.exists_cons_of_ne_nil hpre
      have hqm : q = m := by
        rw [hpn, hq, List.cons_append] at hm
        exact (List.cons.inj hm).1
      by_cases hu : b.used = 0
      · omega
      · obtain ⟨k, ks, hk, -, hlt⟩ := v.used hu
        have hkm : k = m := by
          rw [hk] at hm
          exact (List.cons.inj hm).1
        rw [hq, lens_cons, hqm, ← hkm]
        omega
    rw [hpn, lens_append, lens_cons, lens_nil] at hlen
    dsimp only
    rw [hlast, hnode']
    split
    · rename_i hend
      refine ⟨pre, n, [], ⟨hpn, rfl, ?_, ?_, ?_⟩, ?_, .inl rfl⟩
      · dsimp only; omega
      · dsimp only; omega
      · dsimp only; omega
      · intro _
        dsimp only
        rw [v.num, hpn, List.length_append]
        rfl
    · obtain ⟨pre₁, n₁, post₁, hns₁, hidx₁, hpos₁, hone₁, hnum₁⟩ := scanStart_spec v hd pk h1 h2
      obtain ⟨pre', n', post', hat, hnum⟩ := scanFrom_spec hns₁ hidx₁ hpos₁ hone₁
        (by rw [← v.len]; omega)
      refine ⟨pre', n', post', hat, fun hq => hnum (hnum₁ hq), ?_⟩
      have hpre' : pre' ≠ [] := by
        rintro rfl
        have h3 := hat.nodes
        rw [List.nil_append, hm] at h3
        have h4 : m = n' := (List.cons.inj h3).1
        have h5 := hat.pos
        have h6 := hat.le_len
        rw [lens_nil] at h5
        rw [← h4] at h6
        omega
      cases cache with
      | false => exact .inl rfl
      | true =>
        refine .inr ⟨hpre', ?_⟩
        have h7 : b.node (scanFrom b (scanStart b pos)).idx = n' := by
          rw [hat.idx]
          exact node_of_eq hat.nodes
        rw [if_pos rfl, h7]

end Vstr
