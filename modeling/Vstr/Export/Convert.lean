import Vstr.Export.Copy

/-!
# Turning buffers into references

`vstr__chg_node_buf_ref` replaces a `BUF` node by a `REF` node to the same buffer, which
the reference gives back to a spare list when its last use goes. `vstr__convert_buf_ref`
does so for all nodes under a slice. Neither changes a byte.
-/

namespace Vstr

open Memory Splice

variable {E : Env} {P P' P'' : Own} {s s' s'' : St} {q : Prop} {b : Base} {h h' : Heap}
  {pre post : List Node} {n : Node}

/-- The string is the same string, in other nodes. -/
structure Kept (q : Prop) (E : Env) (P : Own) (s : St) (P' : Own) (s' : St) : Prop where
  /-- The state is sound. -/
  sound : Sound E P' s'
  /-- Foreign blocks are left alone. -/
  frame : Frame E P s.heap P' s'.heap
  /-- The position cache is right. -/
  posOk : PosOk q s'.base
  /-- Length, configuration and caches are as they were. -/
  grown : Grown s.base s'.base 0
  /-- `PTR` nodes point where they did. -/
  ptrs : ∀ {Q : Blk → Prop}, PtrsIn Q s.base.nodes → PtrsIn Q s'.base.nodes
  /-- Offsets do not wrap. -/
  fits : Fits s.base.nodes → Fits s'.base.nodes
  /-- A cut that wraps no offset still wraps none. -/
  cutOk : ∀ p, CutOk s.base.nodes (p + s.base.used) → CutOk s'.base.nodes (p + s'.base.used)
  /-- The content is the same. -/
  content : content s' = content s

theorem Kept.trans (f : Kept q E P s P' s') (g : Kept q E P' s' P'' s'') :
    Kept q E P s P'' s'' where
  sound := g.sound
  frame := f.frame.trans g.frame
  posOk := g.posOk
  grown := f.grown.trans g.grown
  ptrs ps := g.ptrs (f.ptrs ps)
  fits hf := g.fits (f.fits hf)
  cutOk p hc := g.cutOk p (f.cutOk p hc)
  content := g.content.trans f.content

/-- Only the heap changed, and no byte of it. -/
theorem Kept.of_heap (sd : Sound E P s) (pk : PosOk q s.base) (ow : Owned E P' h' s.base.nodes)
    (fr : Frame E P s.heap P' h') (hm : h'.mem = s.heap.mem) : Kept q E P s P' ⟨h', s.base⟩ where
  sound := by
    have hb : (St.mk h' s.base).conf.bufSz = s.conf.bufSz := fr.bufSz _
    exact ⟨ow, by rw [hb]; exact sd.valid, by rw [hb]; exact sd.bufSz_pos,
      by rw [hb]; exact sd.bufSz_le⟩
  frame := fr
  posOk := pk
  grown := Grown.refl _
  ptrs ps := ps
  fits hf := hf
  cutOk _ hc := hc
  content := by
    unfold Vstr.content
    dsimp only
    rw [sd.owned.flat_refPtr (fun _ h => h) hm fr.refPtr]

/-- The node that takes the place of a `BUF` node, `used` bytes of which are consumed. -/
def convNode (n : Node) (id r used : Nat) : Node := ⟨id, n.len - used, .ref r used⟩

/-- The base after the `BUF` node `n` was replaced. -/
def convBase (b : Base) (pre : List Node) (n : Node) (post : List Node) (num id r : Nat) : Base :=
  { b with
    nodeUsed := Function.update b.nodeUsed .ref true
    used := if pre = [] then 0 else b.used
    nodes := pre ++ convNode n id r (if pre = [] then b.used else 0) :: post
    endNode := if post = [] then some id else b.endNode
    posData := if b.cacheAvailable ∧ b.posData.node = some n.id then
        { b.posData with node := some id } else b.posData
    vec := if b.iovecUptoDate then
        b.vec.map fun vec => { vec with t := Function.update vec.t (num + vec.off - 1) .ref }
      else b.vec }

theorem valid_convBase {bufSz : Nat} (v : Valid bufSz b) (hns : b.nodes = pre ++ n :: post)
    (num id r : Nat) : Valid bufSz (convBase b pre n post num id r) := by
  have hn : n ∈ b.nodes := by rw [hns]; simp
  have hlen := v.len
  rw [hns, lens_append, lens_cons] at hlen
  have hu : pre = [] → b.used < n.len := by
    rintro rfl
    have hpos := v.pos n hn
    by_cases h0 : b.used = 0
    · omega
    · obtain ⟨m, ms, hm, -, hlt⟩ := v.used h0
      rw [hns] at hm
      cases hm
      exact hlt
  have hmem : ∀ m ∈ (convBase b pre n post num id r).nodes, m ∈ b.nodes ∨
      m = convNode n id r (if pre = [] then b.used else 0) := by
    intro m hm
    rw [hns]
    rcases List.mem_append.mp hm with hm | hm
    · exact .inl (List.mem_append_left _ hm)
    · rcases List.mem_cons.mp hm with rfl | hm
      · exact .inr rfl
      · exact .inl (List.mem_append_right _ (List.mem_cons_of_mem _ hm))
  have hpos' : 0 < n.len - (if pre = [] then b.used else 0) := by
    have hpos := v.pos n hn
    split
    · rename_i e
      have := hu e
      omega
    · omega
  refine ⟨?_, ?_, ?_, fun m hm => ?_, fun h0 => ?_, fun m hm => ?_, fun m hm hty => ?_,
    fun m hm => ?_⟩
  · simp only [convBase, convNode, lens_append, lens_cons]
    split
    · rename_i e
      have := hu e
      omega
    · omega
  · simp only [convBase, List.length_append, List.length_cons]
    rw [v.num, hns, List.length_append, List.length_cons]
  · simp only [convBase]
    cases post with
    | nil => simp [convNode]
    | cons m ms =>
      have he := v.endNode
      rw [hns, List.getLast?_append, List.getLast?_cons_cons] at he
      rw [List.getLast?_append, List.getLast?_cons_cons, if_neg (by simp)]
      exact he
  · rcases hmem m hm with hm | rfl
    · exact v.pos m hm
    · exact hpos'
  · simp only [convBase] at h0 ⊢
    cases pre with
    | nil => exact absurd rfl h0
    | cons m ms =>
      obtain ⟨m', ms', hm', hd, hlt⟩ := v.used (by simpa using h0)
      rw [hns, List.cons_append] at hm'
      cases hm'
      exact ⟨m, _, rfl, hd, by simpa using hlt⟩
  · rcases hmem m hm with hm | rfl
    · simp only [convBase, Function.update_apply]
      split
      · rfl
      · exact v.flags m hm
    · simp [convBase, convNode, Node.type]
  · rcases hmem m hm with hm | rfl
    · exact v.buf m hm hty
    · cases hty
  · rcases hmem m hm with hm | rfl
    · exact v.max m hm
    · have := v.max n hn
      simp only [convNode]
      omega

/-- The position cache follows the node. -/
theorem posOk_convBase (pk : PosOk q b) (hns : b.nodes = pre ++ n :: post)
    (hd : (b.nodes.map Node.id).Nodup) (hu : pre = [] → b.used ≤ n.len) (num id r : Nat) :
    PosOk q (convBase b pre n post num id r) := by
  intro i hi hc
  simp only [convBase] at hi hc ⊢
  have key : ∀ j, b.posData.node = some j → 1 ≤ b.posData.pos ∧ ∃ k i',
      b.posData.pos + (if pre = [] then 0 else b.used) = k + 1 ∧
      Sits (pre ++ convNode n id r (if pre = [] then b.used else 0) :: post)
        (if j = n.id then id else j) k i' ∧ (q → b.posData.num = i' + 1) := by
    intro j hj
    obtain ⟨h1, k, i', hk, hs, hq⟩ := pk j hj hc
    refine ⟨h1, ?_⟩
    obtain ⟨pre', m, post', e, hm, hpre', hi'⟩ := hs
    by_cases he : j = n.id
    · obtain ⟨e₁, -, -⟩ := split_unique (hns.symm.trans e) (hm.trans he) (hns ▸ hd)
      rw [e₁] at hpre' hi'
      have hz : pre = [] → b.used = 0 := by
        rintro rfl
        rw [lens_nil] at hpre'
        omega
      refine ⟨k, i', ?_, ⟨pre, _, post, rfl, ?_, hpre', hi'⟩, hq⟩
      · split
        · rename_i e'
          rw [hz e'] at hk
          exact hk
        · exact hk
      · rw [if_pos he]
        rfl
    · rw [if_neg he]
      rw [hns] at e
      have hs : Sits (pre ++ n :: post) j k i' := ⟨pre', m, post', e, hm, hpre', hi'⟩
      simp only [sits_append, sits_cons] at hs ⊢
      rcases hs with hs | ⟨k', i'', rfl, rfl, ⟨he', -, -⟩ | ⟨k'', i₃, rfl, rfl, hs⟩⟩
      · refine ⟨k, i', ?_, .inl hs, hq⟩
        rw [if_neg]
        · exact hk
        · rintro rfl
          obtain ⟨pre₁, m₁, post₁, e₁, -⟩ := hs
          simp at e₁
      · exact absurd he'.symm he
      · refine ⟨lens pre + ((convNode n id r (if pre = [] then b.used else 0)).len + k''),
          pre.length + (i₃ + 1), ?_, .inr ⟨_, _, rfl, rfl, .inr ⟨k'', i₃, rfl, rfl, hs⟩⟩, hq⟩
        simp only [convNode]
        split
        · rename_i e'
          have := hu e'
          omega
        · omega
  by_cases hj : b.posData.node = some n.id
  · rw [if_pos ⟨hc, hj⟩] at hi ⊢
    simp only [Option.some.injEq] at hi
    subst hi
    have := key n.id hj
    rw [if_pos rfl] at this
    exact this
  · rw [if_neg (fun h => hj h.2)] at hi ⊢
    have hne : i ≠ n.id := fun e => hj (e ▸ hi)
    have := key i hi
    rw [if_neg hne] at this
    exact this

/-- The heap once the buffer of the node `i` is lent by a new reference, and the first spare
`REF` node is taken. -/
def convHeap (h : Heap) (c i : Nat) : Heap :=
  (h.malloc.2.newRef ⟨⟨.node i, 0⟩, 1, .relink c⟩).malloc.2.dropSpare c .ref 1

theorem owned_conv (ow : Owned E P h (pre ++ n :: post)) (hbuf : n.data = .buf) {c id : Nat}
    {rest : List Nat} (hsp : (h.confs c).spare .ref = id :: rest) (used : Nat) :
    Owned E ((P.give [n.id] (.lent h.next)).give [id] (.base E.me)) (convHeap h c n.id)
      (pre ++ convNode n id h.next used :: post) := by
  have hown : P (.node n.id) = .base E.me := ow.nodes.own n (by simp)
  have hspare : P (.node id) = .spare c .ref :=
    ow.heap.spareOwn c .ref id (by rw [hsp]; exact List.mem_cons_self)
  have hne : id ≠ n.id := by
    rintro rfl
    rw [hown] at hspare
    cases hspare
  have ok₁ : HeapOk (P.give [n.id] (.lent h.next))
      (h.malloc.2.newRef ⟨⟨.node n.id, 0⟩, 1, .relink c⟩).malloc.2 := by
    refine ((ow.heap.lend hown h.next).malloc.newRef fun _ => ?_).malloc
    exact ⟨rfl, n.id, rfl, P.give_mem _ (List.mem_singleton_self _)⟩
  have ok₂ : HeapOk _ (convHeap h c n.id) := ok₁.dropSpare 1 E.me
  have htake : (((h.malloc.2.newRef ⟨⟨.node n.id, 0⟩, 1, .relink c⟩).malloc.2.confs c).spare
      .ref).take 1 = [id] := by
    change ((h.confs c).spare .ref).take 1 = [id]
    rw [hsp]
    rfl
  rw [htake] at ok₂
  refine ⟨ok₂, ?_, fun r => ?_⟩
  · have hrem : NodesOk (P.give [n.id] (.lent h.next)) E.me (pre ++ post) := by
      have h : NodesOk P E.me (pre ++ [n] ++ post) := by
        rw [List.append_assoc]
        exact ow.nodes
      exact h.remove _
    have hnew : ∀ i ∈ [convNode n id h.next used].map Node.id,
        P.give [n.id] (.lent h.next) (.node i) = .spare c .ref := by
      intro i hi
      rw [List.map_singleton, List.mem_singleton] at hi
      rw [hi, P.give_not_mem _ (by simpa [convNode] using hne)]
      exact hspare
    have hins := hrem.insert (by simp) hnew
    rw [List.append_assoc] at hins
    exact hins
  · have hr := ow.refs_newRef ⟨⟨.node n.id, 0⟩, 1, .relink c⟩ r
    have hnr : n.ref = none := by simp only [Node.ref, hbuf]
    have hcr : (convNode n id h.next used).ref = some h.next := rfl
    change ((h.newRef ⟨⟨.node n.id, 0⟩, 1, .relink c⟩).refs r).ref = _
    rw [hr]
    simp only [Env.hold_ext, heldBy_append, heldBy_cons, hnr, hcr, Option.some.injEq]
    simp only [reduceCtorEq, if_false]
    omega

theorem frame_conv (ow : Owned E P h (pre ++ n :: post)) {c id : Nat} {rest : List Nat}
    (hsp : (h.confs c).spare .ref = id :: rest) :
    Frame E P h ((P.give [n.id] (.lent h.next)).give [id] (.base E.me)) (convHeap h c n.id) := by
  have hown : P (.node n.id) = .base E.me := ow.nodes.own n (by simp)
  have hspare : P (.node id) = .spare c .ref :=
    ow.heap.spareOwn c .ref id (by rw [hsp]; exact List.mem_cons_self)
  have hne : id ≠ n.id := by
    rintro rfl
    rw [hown] at hspare
    cases hspare
  have f₁ : Frame E P h (P.give [n.id] (.lent h.next)) h := by
    apply (Like.refl h).frame _ (by simp)
    intro i hi
    rw [List.mem_singleton.mp hi]
    exact not_foreign_of_base hown
  have f₂ := (like_malloc h).frame_same (E := E) (P := P.give [n.id] (.lent h.next))
  have f₃ := frame_newRef (E := E) (P := P.give [n.id] (.lent h.next)) h.malloc.2
    ⟨⟨.node n.id, 0⟩, 1, .relink c⟩
  have f₄ := (like_malloc (h.malloc.2.newRef ⟨⟨.node n.id, 0⟩, 1, .relink c⟩)).frame_same (E := E)
    (P := P.give [n.id] (.lent h.next))
  refine (((f₁.trans f₂).trans f₃).trans f₄).trans ?_
  apply (like_dropSpare _ c .ref 1).frame _ (by simp)
  intro i hi
  rw [List.mem_singleton.mp hi]
  refine not_foreign_of_spare (Eq.trans ?_ hspare)
  exact P.give_not_mem _ (by simpa using hne)

/-- A new reference that is given up at once. -/
theorem refDel_newRef (h : Heap) (ptr : Addr) (func : RefFunc) :
    let g := (h.newRef ⟨ptr, 1, func⟩).malloc.2
    refDel (g.setRef h.next { g.refs h.next with func := .free }) h.next =
      (h.newRef ⟨ptr, 0, .free⟩).malloc.2 := by
  simp [refDel, refFunc, Heap.newRef, Heap.setRef, Heap.malloc]

/-- `vstr__chg_node_buf_ref`: it fails and leaves the base alone, or replaces the node. -/
theorem chgNodeBufRef_cases (sd : Sound E P s) (hns : s.base.nodes = pre ++ n :: post)
    (num : Nat) :
    ∃ P' h', Owned E P' h' s.base.nodes ∧ Frame E P s.heap P' h' ∧ h'.mem = s.heap.mem ∧
      (chgNodeBufRef s pre.length num = (false, ⟨h', s.base⟩) ∨
        ∃ id rest, (h'.confs s.base.conf).spare .ref = id :: rest ∧
          chgNodeBufRef s pre.length num = (true, ⟨convHeap h' s.base.conf n.id,
            convBase s.base pre n post num id h'.next⟩)) := by
  have hnode : s.base.node pre.length = n := node_of_eq hns
  obtain ⟨P₁, mk, hlen⟩ := makes_rangeSpare (E := E) sd.owned.heap s.base.conf .ref 1
  unfold chgNodeBufRef
  dsimp only
  rw [hnode]
  split
  · rename_i h₁ e
    rw [e] at mk
    exact ⟨P₁, h₁, sd.owned.makes mk, mk.frame, mk.mem, .inl rfl⟩
  · rename_i h₁ e
    rw [e] at mk hlen
    have ow₁ := sd.owned.makes mk
    rcases refGrpAdd_cases h₁ ⟨.node n.id, 0⟩ (.relink s.base.conf) with e₂ | e₂
    · rw [e₂]
      have mk₂ := (mk.trans (makes_malloc mk.ok)).trans (makes_mallocBad mk.ok.malloc s.base.conf)
      exact ⟨P₁, _, sd.owned.makes mk₂, mk₂.frame, mk₂.mem, .inl rfl⟩
    · rw [e₂]
      dsimp only
      split
      · rename_i h₃ e₃
        obtain rfl : h₃ =
            (h₁.malloc.2.newRef ⟨⟨.node n.id, 0⟩, 1, .relink s.base.conf⟩).malloc.2 := by
          rw [e₃]
        refine ⟨P₁, (h₁.malloc.2.newRef ⟨⟨.node n.id, 0⟩, 0, .free⟩).malloc.2.mallocBad s.base.conf,
          ⟨?_, ow₁.nodes, fun r => ?_⟩, ?_, mk.mem, .inl ?_⟩
        · exact ((ow₁.heap.malloc.newRef fun h0 => absurd h0 (Nat.lt_irrefl 0)).malloc).mallocBad _
        · have := ow₁.refs_newRef ⟨⟨.node n.id, 0⟩, 0, .free⟩ r
          rw [Env.hold_ext, ite_self, Nat.add_zero] at this
          exact this
        · refine ((mk.frame.trans (like_malloc h₁).frame_same).trans
            (frame_newRef _ ⟨⟨.node n.id, 0⟩, 0, .free⟩)).trans ?_
          exact ((like_malloc _).trans (like_mallocBad _ _)).frame_same
        · have hr := refDel_newRef h₁.malloc.2 ⟨.node n.id, 0⟩ (.relink s.base.conf)
          dsimp only at hr
          rw [← hr]
          rfl
      · rename_i h₃ e₃
        obtain rfl : h₃ =
            (h₁.malloc.2.newRef ⟨⟨.node n.id, 0⟩, 1, .relink s.base.conf⟩).malloc.2 := by
          rw [e₃]
        obtain ⟨id, rest, hsp⟩ := List.exists_cons_of_ne_nil
          (List.ne_nil_of_length_pos (hlen rfl))
        refine ⟨P₁, h₁, ow₁, mk.frame, mk.mem, .inr ⟨id, rest, hsp, ?_⟩⟩
        have hhead : (h₁.malloc.2.newRef ⟨⟨.node n.id, 0⟩, 1,
            .relink s.base.conf⟩).malloc.2.headSpare s.base.conf .ref = id := by
          change ((h₁.confs s.base.conf).spare .ref).headD 0 = id
          rw [hsp]
          rfl
        have hend : pre.length + 1 < s.base.nodes.length ↔ post ≠ [] := by
          rw [hns, List.length_append, List.length_cons, ← List.length_pos_iff]
          omega
        have hset : ∀ m, s.base.nodes.set pre.length m = pre ++ m :: post := by
          intro m
          rw [hns]
          exact set_of_eq pre post n m
        rw [hhead, hset]
        simp only [convBase, convHeap, convNode, hend, ite_not, ne_eq, List.length_eq_zero_iff]

/-- The bytes of the node are where they were. -/
theorem nodeBytes_conv (h : Heap) (c : Nat) (hbuf : n.data = .buf) (id used : Nat) :
    nodeBytes (convHeap h c n.id) (convNode n id h.next used) = (nodeBytes h n).drop used := by
  have hr : (convHeap h c n.id).refs h.next = ⟨⟨.node n.id, 0⟩, 1, .relink c⟩ :=
    h.malloc.2.newRef_self ⟨⟨.node n.id, 0⟩, 1, .relink c⟩
  rw [nodeBytes_eq, nodeBytes_eq]
  simp only [convNode, hbuf, hr, ← List.map_drop, drop_read]
  rfl

theorem content_conv (hv : Valid s.conf.bufSz s.base) (hns : s.base.nodes = pre ++ n :: post)
    {num id : Nat} {h' : Heap}
    (hb : nodeBytes h' (convNode n id s.heap.next (if pre = [] then s.base.used else 0)) =
      (nodeBytes s.heap n).drop (if pre = [] then s.base.used else 0))
    (hpre : flat h' pre = flat s.heap pre) (hpost : flat h' post = flat s.heap post) :
    content ⟨h', convBase s.base pre n post num id s.heap.next⟩ = content s := by
  unfold content
  rw [hns, flat_append, flat_cons]
  simp only [convBase, flat_append, flat_cons, hb, hpre, hpost]
  split
  · rename_i e
    subst e
    have hle : s.base.used ≤ n.len := by
      by_cases h0 : s.base.used = 0
      · omega
      · obtain ⟨m, ms, hm, -, hlt⟩ := hv.used h0
        rw [hns] at hm
        cases hm
        exact Nat.le_of_lt hlt
    rw [flat_nil, List.nil_append, List.drop_zero, List.nil_append,
      List.drop_append_of_le_length (by rw [length_nodeBytes]; exact hle)]
  · rw [List.drop_zero]

/-- The first node of a list has the used bytes. -/
theorem Valid.used_le {bufSz : Nat} (v : Valid bufSz b) (hns : b.nodes = n :: post) :
    b.used < n.len := by
  by_cases h0 : b.used = 0
  · have := v.pos n (by rw [hns]; exact List.mem_cons_self)
    omega
  · obtain ⟨m, ms, hm, -, hlt⟩ := v.used h0
    rw [hns] at hm
    cases hm
    exact hlt

/-- The node that replaces a `BUF` node can be cut where that one was. -/
theorem cutOk_convBase {bufSz : Nat} (v : Valid bufSz b) (hsz : bufSz ≤ maxNodeBuf)
    (hns : b.nodes = pre ++ n :: post) (hbuf : n.data = .buf) (num id r p : Nat)
    (hc : CutOk b.nodes (p + b.used)) :
    CutOk (convBase b pre n post num id r).nodes (p + (convBase b pre n post num id r).used) := by
  have hn := v.buf n (by rw [hns]; simp) (by simp only [Node.type, hbuf])
  unfold maxNodeBuf at hsz
  rw [hns, cutOk_split, cutOk_cons] at hc
  obtain ⟨hpre, -, hpost⟩ := hc
  simp only [convBase, convNode, cutOk_split, cutOk_cons]
  cases pre with
  | nil =>
    have hu := v.used_le hns
    simp only [if_true, lens_nil, Nat.sub_zero] at hpre hpost ⊢
    refine ⟨fun _ _ _ _ _ e => absurd e (by simp), fun r' off e h0 hq => ?_, ?_⟩
    · cases e
      omega
    · rw [show p + 0 - (n.len - b.used) = p + b.used - n.len by omega]
      exact hpost
  | cons m pre =>
    simp only [reduceCtorEq, if_false, Nat.sub_zero]
    refine ⟨hpre, fun r' off e h0 hq => ?_, hpost⟩
    cases e
    omega

/-- `vstr__chg_node_buf_ref` changes a node, not the string. -/
theorem chgNodeBufRef_spec (sd : Sound E P s) (pk : PosOk q s.base)
    (hns : s.base.nodes = pre ++ n :: post) (hbuf : n.data = .buf) (num : Nat) :
    ∃ P' s', Kept q E P s P' s' ∧ s'.heap.mem = s.heap.mem ∧
      ((chgNodeBufRef s pre.length num = (false, s') ∧ s'.base = s.base) ∨
        ∃ id r, chgNodeBufRef s pre.length num = (true, s') ∧
          s'.base = convBase s.base pre n post num id r ∧
          (s'.heap.refs r).ptr = ⟨.node n.id, 0⟩ ∧ s.heap.next ≤ r) := by
  obtain ⟨P₁, h₁, ow, fr, hm, e | ⟨id, rest, hsp, e⟩⟩ := chgNodeBufRef_cases sd hns num
  · exact ⟨P₁, ⟨h₁, s.base⟩, Kept.of_heap sd pk ow fr hm, hm, .inl ⟨e, rfl⟩⟩
  · have k₁ : Kept q E P s P₁ ⟨h₁, s.base⟩ := Kept.of_heap sd pk ow fr hm
    have sd₁ := k₁.sound
    have ow₁ : Owned E P₁ h₁ (pre ++ n :: post) := hns ▸ ow
    have ow₂ := owned_conv ow₁ hbuf hsp (if pre = [] then s.base.used else 0)
    have fr₂ := frame_conv ow₁ hsp
    have hb : (St.mk (convHeap h₁ s.base.conf n.id)
        (convBase s.base pre n post num id h₁.next)).conf.bufSz = (St.mk h₁ s.base).conf.bufSz :=
      fr₂.bufSz _
    refine ⟨_, ⟨convHeap h₁ s.base.conf n.id, convBase s.base pre n post num id h₁.next⟩,
      k₁.trans ⟨⟨ow₂, ?_, ?_, ?_⟩, fr₂, ?_, ⟨rfl, rfl, rfl, rfl, rfl, rfl⟩, fun ps => ?_,
        fun hf => ?_,
        fun p hc => cutOk_convBase sd₁.valid sd₁.bufSz_le hns hbuf num id h₁.next p hc,
        ?_⟩, hm, .inr ⟨id, h₁.next, e, rfl, ?_, fr.next_le⟩⟩
    · rw [hb]
      exact valid_convBase sd₁.valid hns num id h₁.next
    · rw [hb]
      exact sd₁.bufSz_pos
    · rw [hb]
      exact sd₁.bufSz_le
    · refine posOk_convBase k₁.posOk hns sd₁.owned.nodes.nodup (fun e => ?_) num id h₁.next
      subst e
      exact Nat.le_of_lt (sd₁.valid.used_le hns)
    · have ps' : PtrsIn _ (pre ++ n :: post) := hns ▸ ps
      simp only [convBase, ptrsIn_append, ptrsIn_cons] at ps' ⊢
      exact ⟨ps'.1, (fun a ha => by cases ha), ps'.2.2⟩
    · have hf' : Fits (pre ++ n :: post) := hns ▸ hf
      simp only [convBase, fits_append, fits_cons] at hf' ⊢
      refine ⟨hf'.1, fun r off hr => ?_, hf'.2.2⟩
      cases hr
      have hn : n ∈ s.base.nodes := by rw [hns]; simp
      have h1 := sd₁.valid.buf n hn (by simp only [Node.type, hbuf])
      have h2 := sd₁.bufSz_le
      have h3 : (if pre = [] then s.base.used else 0) ≤ n.len := by
        split
        · rename_i e
          subst e
          exact Nat.le_of_lt (sd₁.valid.used_le hns)
        · exact Nat.zero_le _
      unfold maxNodeBuf at h2
      simp only [convNode]
      omega
    · refine content_conv (s := ⟨h₁, s.base⟩) sd₁.valid hns
        (nodeBytes_conv h₁ s.base.conf hbuf id _) (ow₁.flat_refPtr ?_ rfl fr₂.refPtr)
        (ow₁.flat_refPtr ?_ rfl fr₂.refPtr)
      · exact fun m hm => List.mem_append_left _ hm
      · exact fun m hm => List.mem_append_right _ (List.mem_cons_of_mem _ hm)
    · exact congrArg Ref.ptr (h₁.malloc.2.newRef_self ⟨⟨.node n.id, 0⟩, 1, .relink s.base.conf⟩)

theorem data_of_type_buf (h : n.type = .buf) : n.data = .buf := by
  unfold Node.type at h
  split at h <;> first | assumption | cases h

end Vstr
