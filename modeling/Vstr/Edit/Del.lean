import Vstr.Edit.Add
import Vstr.Edit.Drop
import Vstr.Edit.Named

/-!
# Deletions

The delete functions take a stretch out of the list, whatever the layout: whole nodes
go, a node is cut at its end or at its beginning, and a stretch inside one node is
closed by a move or by a split.
-/

namespace Vstr

open Memory Splice

variable {E : Env} {P P' : Own} {s : St} {h h' : Heap} {pre post : List Node} {n : Node}
variable {q : Prop} {pos len : Nat}

/-! ## Parts of nodes -/

/-- A node cut at its end. -/
theorem nodeBytes_take (h : Heap) (n : Node) {p : Nat} (hp : p ≤ n.len) :
    nodeBytes h { n with len := p } = (nodeBytes h n).take p := by
  unfold nodeBytes
  have he : exportNodePtr h { n with len := p } = exportNodePtr h n := rfl
  rw [he]
  split
  · rw [List.take_replicate, Nat.min_eq_left hp]
  · rw [← List.map_take, take_read _ _ hp]

/-- A node that is not a `BUF` node, without its first `k` bytes. -/
theorem nodeBytes_shift (h : Heap) (n : Node) {k : Nat} (hd : n.data ≠ .buf)
    (hf : ∀ r off, n.data = .ref r off → off + k < 2 ^ 32) :
    nodeBytes h { n with data := shiftPayload n.data k, len := n.len - k } =
      (nodeBytes h n).drop k := by
  rw [nodeBytes_eq, nodeBytes_eq]
  unfold shiftPayload
  cases hn : n.data with
  | buf => exact absurd hn hd
  | non =>
    dsimp only
    rw [List.drop_replicate]
  | ptr a =>
    dsimp only
    rw [← List.map_drop, drop_read]
  | ref r off =>
    have hoff : refOff (off + k) = off + k := Nat.mod_eq_of_lt (hf r off hn)
    dsimp only
    rw [← List.map_drop, drop_read, hoff, Ptr.add_add]

/-- What is left of a node names what its second half would. -/
theorem shiftPayload_eq_cut (d : Payload) (k : Nat) : shiftPayload d k = d.cut k := by
  cases d <;> rfl

theorem shiftPayload_type (n : Node) (k len : Nat) :
    Node.type { n with data := shiftPayload n.data k, len := len } = n.type := by
  unfold shiftPayload Node.type
  cases n.data <;> rfl

theorem shiftPayload_ref (n : Node) (k len : Nat) :
    Node.ref { n with data := shiftPayload n.data k, len := len } = n.ref := by
  unfold shiftPayload Node.ref
  cases n.data <;> rfl

/-- The offset of a node without its first `k` bytes does not wrap. -/
theorem shiftPayload_fits {k : Nat} (hk : k < n.len)
    (hf : ∀ r off, n.data = .ref r off → off + n.len ≤ 2 ^ 32) :
    ∀ r off, shiftPayload n.data k = .ref r off → off + (n.len - k) ≤ 2 ^ 32 := by
  intro r off hr
  unfold shiftPayload at hr
  split at hr
  · cases hr
  · rename_i off' hn
    cases hr
    have := hf r off' hn
    have hoff : refOff (off' + k) = off' + k := Nat.mod_eq_of_lt (by omega)
    rw [hoff]
    omega
  · exact absurd hr (by rename_i hne; exact hne r off)

/-- A node without its first bytes points into the same block. -/
theorem shiftPayload_ptr {Q : Blk → Prop} {k : Nat} (hp : ∀ a, n.data = .ptr a → Q a.blk) :
    ∀ a, shiftPayload n.data k = .ptr a → Q a.blk := by
  intro a ha
  unfold shiftPayload at ha
  split at ha
  · rename_i p hn
    cases ha
    exact hp p hn
  · cases ha
  · exact hp a ha

/-! ## Shrunken bases -/

/-- A base whose nodes are nodes of another, or parts of them. -/
theorem Valid.shrink {bufSz : Nat} {b b' : Base} (v : Valid bufSz b)
    (hsub : ∀ m ∈ b'.nodes, ∃ m₀ ∈ b.nodes, m.type = m₀.type ∧ 0 < m.len ∧ m.len ≤ m₀.len)
    (hf : b'.nodeUsed = b.nodeUsed) (hlen : b'.len + b'.used = lens b'.nodes)
    (hnum : b'.num = b'.nodes.length) (hend : b'.endNode = b'.nodes.getLast?.map Node.id)
    (hused : b'.used ≠ 0 → ∃ n ns, b'.nodes = n :: ns ∧ n.data = .buf ∧ b'.used < n.len) :
    Valid bufSz b' := by
  refine ⟨hlen, hnum, hend, ?_, hused, ?_, ?_, ?_⟩
  · intro m hm
    obtain ⟨m₀, -, -, hpos, -⟩ := hsub m hm
    exact hpos
  · intro m hm
    obtain ⟨m₀, hm₀, ht, -, -⟩ := hsub m hm
    rw [hf, ht]
    exact v.flags m₀ hm₀
  · intro m hm hb
    obtain ⟨m₀, hm₀, ht, -, hle⟩ := hsub m hm
    exact Nat.le_trans hle (v.buf m₀ hm₀ (ht.symm.trans hb))
  · intro m hm
    obtain ⟨m₀, hm₀, -, -, hle⟩ := hsub m hm
    exact Nat.le_trans hle (v.max m₀ hm₀)

/-- A smaller base in the memory an operation leaves. -/
theorem Sound.of_frame (sd : Sound E P s) (fr : Frame E P s.heap P' h') {b : Base}
    (hc : b.conf = s.base.conf) (ow : Owned E P' h' b.nodes) (v : Valid s.conf.bufSz b) :
    Sound E P' ⟨h', b⟩ := by
  have hb : (St.conf ⟨h', b⟩).bufSz = s.conf.bufSz := by
    unfold St.conf
    dsimp only
    rw [hc, fr.bufSz]
  refine ⟨ow, ?_, ?_, ?_⟩
  · rw [hb]; exact v
  · rw [hb]; exact sd.bufSz_pos
  · rw [hb]; exact sd.bufSz_le

/-- What a deletion leaves of a base, but for its nodes and vectors, before the callbacks. -/
structure Shrunk (b b' : Base) (len : Nat) : Prop where
  /-- The length. -/
  len : b'.len + len = b.len
  /-- The configuration. -/
  conf : b'.conf = b.conf
  /-- The cache is there or not. -/
  cacheAvailable : b'.cacheAvailable = b.cacheAvailable
  /-- The position cache. -/
  posData : b'.posData = b.posData
  /-- The C string cache. -/
  cstr : b'.cstr = b.cstr

/-- The state after the bytes from `pos` on, `len` of them, left the list, before the
callbacks. -/
structure Gone (E : Env) (P : Own) (s : St) (pos len : Nat) (P' : Own) (s' : St) : Prop where
  /-- The state is sound. -/
  sound : Sound E P' s'
  /-- Foreign blocks are left alone. -/
  frame : Frame E P s.heap P' s'.heap
  /-- The rest of the base. -/
  shrunk : Shrunk s.base s'.base len
  /-- `PTR` nodes point where they did. -/
  ptrs : ∀ {Q : Blk → Prop}, PtrsIn Q s.base.nodes → PtrsIn Q s'.base.nodes
  /-- Offsets do not wrap. -/
  fits : Fits s.base.nodes → Fits s'.base.nodes
  /-- At the front no node is split. -/
  fewer : pos = 1 → s'.base.nodes.length ≤ s.base.nodes.length
  /-- The bytes left are named as they were, unless the offset of the node that is cut behind
  the stretch wraps. -/
  sources : sources s'.base = deleteRange (sources s.base) pos len ↔
    CutOk s.base.nodes (s.base.used + (pos - 1) + len)
  /-- The content without the stretch. -/
  content : PtrSafe E P s.base.nodes → CutOk s.base.nodes (s.base.used + (pos - 1) + len) →
    content s' = deleteRange (content s) pos len

/-- The vectors and the callbacks do not matter. -/
theorem Gone.congr {s' : St} (g : Gone E P s pos len P' s') {b : Base}
    (hb : b.noVec = s'.base.noVec) : Gone E P s pos len P' ⟨s'.heap, b⟩ where
  sound := g.sound.congr (core_of_noVec hb)
  frame := g.frame
  shrunk := by
    obtain ⟨h1, h2, h3, h4, h5⟩ := g.shrunk
    refine ⟨?_, ?_, ?_, ?_, ?_⟩
    · rw [len_of_core (core_of_noVec hb)]; exact h1
    · rw [conf_of_core (core_of_noVec hb)]; exact h2
    · rw [cacheAvailable_of_core (core_of_noVec hb)]; exact h3
    · rw [posData_of_noVec hb]; exact h4
    · rw [cstr_of_noVec hb]; exact h5
  ptrs ps := by
    dsimp only
    rw [nodes_of_core (core_of_noVec hb)]
    exact g.ptrs ps
  fits hf := by
    dsimp only
    rw [nodes_of_core (core_of_noVec hb)]
    exact g.fits hf
  fewer h1 := by
    dsimp only
    rw [nodes_of_core (core_of_noVec hb)]
    exact g.fewer h1
  sources := by
    dsimp only
    rw [sources_congr (core_of_noVec hb)]
    exact g.sources
  content ps hc := by
    rw [content_congr (core_of_noVec hb)]
    exact g.content ps hc

/-! ## Deletions from the first byte on -/

theorem length_content {bufSz : Nat} (v : Valid bufSz s.base) :
    (content s).length = s.base.len := by
  have := v.len
  rw [content, List.length_drop, length_flat]
  omega

/-- `vstr__del_all`, before the callbacks. -/
theorem gone_all (sd : Sound E P s) :
    ∃ P', Gone E P s 1 s.base.len P' ⟨delAllLoop s.base.conf [] s.base.nodes s.heap,
      { s.base with
        len := 0
        used := 0
        num := 0
        nodes := []
        endNode := none
        nodeUsed := fun _ => false }⟩ := by
  obtain ⟨P', d, fr, -⟩ := delAllLoop_spec s.base.conf [] s.base.nodes s.heap
    (sd.owned.dropping (a := []))
  have hl := length_content sd.valid
  have hq : s.base.used + (1 - 1) + s.base.len = lens s.base.nodes := by
    rw [← sd.valid.len]
    omega
  refine ⟨P', ⟨sd.of_frame fr rfl d.owned ?_, fr, ⟨?_, rfl, rfl, rfl, rfl⟩, ?_, ?_,
    fun _ => Nat.zero_le _, ?_, ?_⟩⟩
  · refine ⟨rfl, rfl, rfl, ?_, fun h0 => absurd rfl h0, ?_, ?_, ?_⟩
    · intro n hn; cases hn
    · intro n hn; cases hn
    · intro n hn; cases hn
    · intro n hn; cases hn
  · exact Nat.zero_add _
  · intro _ _ n hn; cases hn
  · intro _ n hn; cases hn
  · refine iff_of_true ?_ (cutOk_between (List.append_nil _).symm hq)
    rw [deleteRange, List.drop_eq_nil_of_le]
    · rfl
    · rw [sources, List.length_drop, length_named]
      omega
  · intro _ _
    rw [deleteRange, List.drop_eq_nil_of_le (by omega)]
    rfl

/-- The first node that stays, when its first `l` bytes go. -/
def begNode (m : Node) (l : Nat) : Node :=
  match m.data with
  | .buf => m
  | data => if l = 0 then m else { m with data := shiftPayload data l, len := m.len - l }

/-- The bytes of it that are consumed afterwards. -/
def begUsed (m : Node) (l : Nat) : Nat :=
  match m.data with
  | .buf => l
  | _ => 0

theorem begNode_cases (m : Node) (l : Nat) :
    (begNode m l = m ∧ begUsed m l = l ∧ (l ≠ 0 → m.data = .buf)) ∨
      (m.data ≠ .buf ∧ l ≠ 0 ∧ begUsed m l = 0 ∧
        begNode m l = { m with data := shiftPayload m.data l, len := m.len - l }) := by
  unfold begNode begUsed
  by_cases h0 : l = 0
  · cases hm : m.data <;> simp [h0]
  · cases hm : m.data <;> simp [h0]

/-- The base once the nodes in front of `m` and the first `l` bytes of `m` went. -/
def begBase (b : Base) (len gone : Nat) (m : Node) (l : Nat) (ms : List Node) : Base :=
  { b with
    len := b.len - len
    num := b.num - gone
    nodes := begNode m l :: ms
    used := begUsed m l }

/-- The content when the front goes, up to a part of a node. -/
theorem content_deleted {gone ms : List Node} {m : Node} {l : Nat}
    (hns : s.base.nodes = gone ++ m :: ms) (hl : lens gone + l = len + s.base.used) :
    deleteRange (Vstr.content s) 1 len = (nodeBytes s.heap m ++ flat s.heap ms).drop l := by
  unfold Vstr.content
  rw [hns, ← flat_cons]
  exact deleteRange_front (length_nodeBytes s.heap) hl

/-- The bytes that are named then. -/
theorem sources_deleted {gone ms : List Node} {m : Node} {l : Nat}
    (hns : s.base.nodes = gone ++ m :: ms) (hl : lens gone + l = len + s.base.used) :
    deleteRange (Vstr.sources s.base) 1 len = (m.data.stretch m.len ++ named ms).drop l := by
  unfold Vstr.sources
  rw [hns, ← named_cons]
  exact deleteRange_front (fun m => m.data.length_stretch m.len) hl

/-- The first node that stays is whole. -/
theorem gone_beg_kept {gone ms : List Node} {m : Node} {l : Nat} (sd : Sound E P s)
    (hns : s.base.nodes = gone ++ m :: ms) (hl : lens gone + l = len + s.base.used)
    (hlt : l < m.len) (ow : Owned E P' h' (m :: ms)) (lk : Like s.heap h')
    (fr : Frame E P s.heap P' h') (e : begNode m l = m) (eu : begUsed m l = l)
    (hbuf : l ≠ 0 → m.data = .buf) :
    Gone E P s 1 len P' ⟨h', begBase s.base len gone.length m l ms⟩ := by
  have hv := sd.valid
  have hlen := hv.len
  have hnum := hv.num
  have hend := hv.endNode
  rw [hns] at hlen hnum hend
  simp only [lens_append, lens_cons] at hlen
  simp only [List.length_append, List.length_cons] at hnum
  rw [List.getLast?_append_of_ne_nil _ (by simp)] at hend
  refine ⟨sd.of_frame fr rfl ?_ ?_, fr, ⟨?_, rfl, rfl, rfl, rfl⟩, ?_, ?_, fun _ => ?_, ?_, ?_⟩
  · simp only [begBase, e]
    exact ow
  · refine hv.shrink ?_ rfl ?_ ?_ ?_ ?_
    · intro x hx
      simp only [begBase, e] at hx
      have hx' : x ∈ s.base.nodes := by
        rw [hns]
        exact List.mem_append_right gone hx
      exact ⟨x, hx', rfl, hv.pos x hx', Nat.le_refl _⟩
    · simp only [begBase, e, eu, lens_cons]
      omega
    · simp only [begBase, List.length_cons]
      omega
    · simp only [begBase, e]
      exact hend
    · intro h0
      simp only [begBase, e, eu] at h0 ⊢
      exact ⟨m, ms, rfl, hbuf h0, hlt⟩
  · simp only [begBase]
    omega
  · intro Q ps
    simp only [begBase, e]
    rw [hns] at ps
    exact ps.subset fun x hx => List.mem_append_right _ hx
  · intro hf
    simp only [begBase, e]
    rw [hns] at hf
    exact hf.subset fun x hx => List.mem_append_right _ hx
  · rw [hns]
    simp [begBase]
  · refine iff_of_true ?_ ?_
    · rw [sources_deleted hns hl]
      simp only [Vstr.sources, begBase, e, eu, named_cons]
    · by_cases h0 : l = 0
      · exact cutOk_between hns (by omega)
      · refine (cutOk_at hns (by omega : s.base.used + (1 - 1) + len = lens gone + l) (by omega)
          hlt).mpr fun r off hd => ?_
        rw [hbuf h0] at hd
        cases hd
  · intro _ _
    rw [content_deleted hns hl]
    simp only [Vstr.content, begBase, e, eu, flat_cons, lk.flat]

/-- The first node that stays is cut, or its used bytes grow. -/
theorem gone_beg {gone ms : List Node} {m : Node} {l : Nat} (sd : Sound E P s)
    (hns : s.base.nodes = gone ++ m :: ms) (hl : lens gone + l = len + s.base.used)
    (hlt : l < m.len) (ow : Owned E P' h' (m :: ms)) (lk : Like s.heap h')
    (fr : Frame E P s.heap P' h') :
    Gone E P s 1 len P' ⟨h', begBase s.base len gone.length m l ms⟩ := by
  rcases begNode_cases m l with ⟨e, eu, hbuf⟩ | ⟨hbuf, h0, eu, e⟩
  · exact gone_beg_kept sd hns hl hlt ow lk fr e eu hbuf
  have hv := sd.valid
  have hlen := hv.len
  have hnum := hv.num
  have hend := hv.endNode
  rw [hns] at hlen hnum hend
  simp only [lens_append, lens_cons] at hlen
  simp only [List.length_append, List.length_cons] at hnum
  rw [List.getLast?_append_of_ne_nil _ (by simp)] at hend
  have hms : ∀ x ∈ ms, x ∈ s.base.nodes := fun x hx => by rw [hns]; simp [hx]
  have hm : m ∈ s.base.nodes := by rw [hns]; simp
  have hq : s.base.used + (1 - 1) + len = lens gone + l := by omega
  have hid : ({ m with data := shiftPayload m.data l, len := m.len - l } : Node).id = m.id := rfl
  have hcut := cutOk_at hns hq (by omega) hlt
  refine ⟨sd.of_frame fr rfl ?_ ?_, fr, ⟨?_, rfl, rfl, rfl, rfl⟩, ?_, ?_, fun _ => ?_, ?_, ?_⟩
  · simp only [begBase, e]
    refine ow.of_same rfl ?_
    rw [List.map_cons, List.map_cons, shiftPayload_ref]
  · refine hv.shrink ?_ rfl ?_ ?_ ?_ ?_
    · intro x hx
      simp only [begBase, e] at hx
      rcases List.mem_cons.mp hx with rfl | hx
      · exact ⟨m, hm, shiftPayload_type m l _, by dsimp only; omega, Nat.sub_le _ _⟩
      · exact ⟨x, hms x hx, rfl, hv.pos x (hms x hx), Nat.le_refl _⟩
    · simp only [begBase, e, eu, lens_cons]
      omega
    · simp only [begBase, List.length_cons]
      omega
    · simp only [begBase, e]
      rw [hend]
      cases ms <;> rfl
    · intro h0
      simp only [begBase, eu] at h0
      exact absurd rfl h0
  · simp only [begBase]
    omega
  · intro Q ps
    simp only [begBase, e]
    rw [hns, ptrsIn_append, ptrsIn_cons] at ps
    rw [ptrsIn_cons]
    exact ⟨shiftPayload_ptr ps.2.1, ps.2.2⟩
  · intro hf
    simp only [begBase, e]
    rw [hns, fits_append, fits_cons] at hf
    rw [fits_cons]
    exact ⟨shiftPayload_fits hlt hf.2.1, hf.2.2⟩
  · rw [hns]
    simp [begBase]
  · rw [hcut, sources_deleted hns hl]
    simp only [Vstr.sources, begBase, e, eu, named_cons, List.drop_zero]
    rw [List.drop_append_of_le_length (by rw [Payload.length_stretch]; omega),
      List.append_left_inj, shiftPayload_eq_cut]
    exact stretch_drop_iff hlt
  · intro _ hc
    rw [content_deleted hns hl]
    simp only [Vstr.content, begBase, e, eu, flat_cons, lk.flat, List.drop_zero]
    rw [nodeBytes_shift _ m hbuf (hcut.mp hc),
      List.drop_append_of_le_length (by rw [length_nodeBytes]; omega)]

theorem delBegNode_eq {b : Base} {m : Node} {l : Nat} (h0 : l ≠ 0) (hu : b.used = 0)
    (hb : m.data = .buf → l < 2 ^ 16) :
    delBegNode b m l = (begNode m l, { b with used := begUsed m l }) := by
  unfold delBegNode begNode begUsed
  cases hm : m.data with
  | buf => simp only [Nat.mod_eq_of_lt (hb hm)]
  | non => simp only [h0, if_false]; rw [← hu]
  | ptr a => simp only [h0, if_false]; rw [← hu]
  | ref r off => simp only [h0, if_false]; rw [← hu]

theorem begNode_zero (m : Node) : begNode m 0 = m := by
  unfold begNode
  cases m.data <;> simp

theorem begUsed_zero (m : Node) : begUsed m 0 = 0 := by
  unfold begUsed
  cases m.data <;> rfl

/-- Only whole nodes went. -/
theorem begBase_zero {b : Base} (hu : b.used = 0) (k : Nat) (m : Node) (ms : List Node) :
    begBase b 0 k m 0 ms = { b with nodes := m :: ms, num := b.num - k } := by
  rw [begBase, begNode_zero, begUsed_zero, Nat.sub_zero, ← hu]

/-- `vstr__del_beg_cleanup` in one piece. -/
theorem delBegCleanup_eq (s : St) (run rest : List Node) :
    delBegCleanup s run rest = ⟨relinkNodes s.heap s.base.conf run,
      cacheIovecDelBeg { s.base with nodes := rest, num := s.base.num - run.length }
        run.length⟩ := by
  cases run with
  | nil =>
    unfold delBegCleanup cacheIovecDelBeg Base.mapVec
    dsimp only
    split
    · cases s with
      | mk h b => cases b with
        | mk _ _ _ _ _ _ _ _ _ _ _ vec _ _ => cases vec <;> rfl
    · rfl
  | cons n ns => rfl

/-- Trimming the vectors twice. -/
theorem begBase_cacheIovecDelBeg (b : Base) (rest : List Node) (i k : Nat) (m : Node) (l : Nat)
    (ms : List Node) :
    cacheIovecDelBeg (begBase (cacheIovecDelBeg { b with nodes := rest, num := b.num - i } i)
      0 k m l ms) k = cacheIovecDelBeg (begBase b 0 (i + k) m l ms) (i + k) := by
  unfold cacheIovecDelBeg
  by_cases hu : b.iovecUptoDate = true
  · simp only [hu, if_true, begBase, Base.mapVec, Nat.sub_sub, Nat.sub_zero]
    cases b.vec with
    | none => rfl
    | some vec => simp only [Option.map_some, Nat.add_assoc]
  · simp only [hu, begBase, Nat.sub_sub, Nat.sub_zero, Bool.false_eq_true, if_false]

/-- The state the loop of `vstr__del_beg` leaves when the nodes `run` wait: whole nodes of
`ns` went too, and the beginning of the next. -/
def BegLeft (E : Env) (P : Own) (run ns : List Node) (len : Nat) (s : St) (r : Nat × St) : Prop :=
  ∃ P' gone m ms l, ns = gone ++ m :: ms ∧ lens gone + l = len ∧ l < m.len ∧ r.1 = l ∧
    r.2.base = cacheIovecDelBeg (begBase s.base 0 (run.length + gone.length) m l ms)
      (run.length + gone.length) ∧
    Owned E P' r.2.heap (m :: ms) ∧ Like s.heap r.2.heap ∧ Frame E P s.heap P' r.2.heap

/-- The run that waits is relinked first. -/
theorem BegLeft.cleanup {run ns rest : List Node} {r : Nat × St}
    (fr : Frame E P s.heap P' (relinkNodes s.heap s.base.conf run))
    (l : BegLeft E P' [] ns len (delBegCleanup s run rest) r) : BegLeft E P run ns len s r := by
  obtain ⟨P₂, gone, m, ms, k, hns, hlen, hlt, hk, hb, ow, lk, fr'⟩ := l
  rw [delBegCleanup_eq] at hb lk fr'
  refine ⟨P₂, gone, m, ms, k, hns, hlen, hlt, hk, ?_, ow,
    (like_relinkNodes s.heap s.base.conf run).trans lk, fr.trans fr'⟩
  rw [hb, List.length_nil, Nat.zero_add, begBase_cacheIovecDelBeg]

/-- The loop of `vstr__del_beg`. -/
theorem delBegLoop_spec (run ns : List Node) (len : Nat) (s : St) {P : Own}
    (d : Dropping E P s.heap [] run ns) (hlen : len < lens ns) (hu : s.base.used = 0)
    (hp : ∀ m ∈ ns, 0 < m.len) (hb : ∀ m ∈ ns, m.data = .buf → m.len < 2 ^ 16) :
    BegLeft E P run ns len s (delBegLoop run ns len s) := by
  induction ns generalizing run len s P with
  | nil =>
    rw [lens_nil] at hlen
    omega
  | cons n ns ih =>
    rw [lens_cons] at hlen
    have relink : ∀ (run : List Node) (s : St) {P : Own}, Dropping E P s.heap [] run (n :: ns) →
        ∃ P', Dropping E P' (relinkNodes s.heap s.base.conf run) [] [] (n :: ns) ∧
          Frame E P s.heap P' (relinkNodes s.heap s.base.conf run) := by
      intro run s P d
      apply Dropping.relink
      rwa [List.append_nil]
    have step : ∀ (run : List Node) (s : St) {P : Own}, Dropping E P s.heap [] run (n :: ns) →
        s.base.used = 0 → len ≠ 0 → BegLeft E P run (n :: ns) len s
          (if len < n.len then
            (len, delBegCleanup { s with base := (delBegNode s.base n len).2 } run
              ((delBegNode s.base n len).1 :: ns))
          else delBegLoop (run ++ [n]) ns (len - n.len) { s with heap := delNode s.heap n }) := by
      intro run s P d hu h0
      split
      · rename_i hlt
        obtain ⟨P₁, d₁, fr₁⟩ := relink run s d
        rw [delBegNode_eq h0 hu fun hd => Nat.lt_trans hlt (hb n List.mem_cons_self hd),
          delBegCleanup_eq]
        exact ⟨P₁, [], n, ns, len, rfl, by rw [lens_nil, Nat.zero_add], hlt, rfl, rfl, d₁.owned,
          like_relinkNodes _ _ _, fr₁⟩
      · rename_i hge
        obtain ⟨P₁, d₁, fr₁⟩ := d.take
        obtain ⟨P₂, gone, m, ms, k, hns, hl, hlt, hk, hbase, ow, lk, fr₂⟩ :=
          ih (run ++ [n]) (len - n.len) { s with heap := delNode s.heap n } d₁ (by omega) hu
            (fun m hm => hp m (List.mem_cons_of_mem _ hm))
            fun m hm => hb m (List.mem_cons_of_mem _ hm)
        refine ⟨P₂, n :: gone, m, ms, k, by rw [hns]; rfl, by rw [lens_cons]; omega, hlt, hk, ?_,
          ow, (like_delNode s.heap n).trans lk, fr₁.trans fr₂⟩
        rw [hbase]
        have hc : (run ++ [n]).length + gone.length = run.length + (n :: gone).length := by
          simp only [List.length_append, List.length_cons, List.length_nil]
          omega
        rw [hc]
    unfold delBegLoop
    by_cases h0 : len = 0
    · obtain ⟨P₁, d₁, fr₁⟩ := relink run s d
      rw [if_pos h0, delBegCleanup_eq]
      refine ⟨P₁, [], n, ns, 0, rfl, by rw [lens_nil]; omega, hp n List.mem_cons_self, rfl, ?_,
        d₁.owned, like_relinkNodes _ _ _, fr₁⟩
      rw [begBase_zero hu]
      rfl
    · rw [if_neg h0]
      dsimp only
      by_cases he : endsRun run n = true
      · rw [if_pos he]
        obtain ⟨P₁, d₁, fr₁⟩ := relink run s d
        have hc := delBegCleanup_eq s run (n :: ns)
        refine BegLeft.cleanup fr₁ (step [] (delBegCleanup s run (n :: ns)) ?_ ?_ h0)
        · rw [hc]
          exact d₁
        · rw [hc]
          unfold cacheIovecDelBeg
          dsimp only
          split <;> exact hu
      · rw [if_neg he]
        exact step run s d hu h0

theorem cacheIovecDelBeg_zero (b : Base) : cacheIovecDelBeg b 0 = b := by
  unfold cacheIovecDelBeg Base.mapVec
  split
  · cases b with
    | mk _ _ _ _ _ _ _ _ _ _ _ vec _ _ => cases vec <;> rfl
  · rfl

/-- The patch of the vector of the first node that stays, of which `k` bytes more went. -/
def begVec (b : Base) (m : Node) (k : Nat) : Base :=
  if k ≠ 0 then cacheIovecDelNodeBeg b m 1 k else b

/-- The bytes of the first node that stays which were not consumed before. -/
def begLive (b : Base) (gone : List Node) (l : Nat) : Nat :=
  if gone = [] then l - b.used else l

/-- The first node that stays is the first node. -/
theorem begBase_node (b : Base) (len gone k : Nat) (m : Node) (l : Nat) (ms : List Node) :
    (cacheIovecDelBeg (begBase b len gone m l ms) k).node 0 = begNode m l := by
  unfold cacheIovecDelBeg
  split <;> rfl

/-- A `BUF` node is no longer than 16 bits count. -/
theorem Sound.buf_lt (sd : Sound E P s) {m : Node} (hm : m ∈ s.base.nodes) (hd : m.data = .buf) :
    m.len < 2 ^ 16 := by
  have hsz := sd.valid.buf m hm (by rw [Node.type, hd])
  have hmax := sd.bufSz_le
  have hsmall : maxNodeBuf < 2 ^ 16 := by decide
  omega

/-- The loop of `vstr__del_beg`, from where the nodes `run` are gone. -/
theorem delBegLoop_cases (run ns : List Node) (len' : Nat) (sd : Sound E P s)
    (hns : s.base.nodes = run ++ ns) (d : Dropping E P s.heap [] run ns)
    (hlen : len < s.base.len) (hlr : lens run + len' = len + s.base.used)
    (hrun : run = [] → s.base.used = 0) :
    ∃ P' h' gone m ms l, s.base.nodes = gone ++ m :: ms ∧
      lens gone + l = len + s.base.used ∧ l < m.len ∧ Owned E P' h' (m :: ms) ∧
      Like s.heap h' ∧ Frame E P s.heap P' h' ∧ begLive s.base gone l = l ∧
      delBegLoop run ns len' ⟨s.heap, { s.base with len := s.base.len - len, used := 0 }⟩ =
        (l, ⟨h', cacheIovecDelBeg (begBase s.base len gone.length m l ms) gone.length⟩) := by
  have hl := sd.valid.len
  rw [hns, lens_append] at hl
  obtain ⟨P₁, gone, m, ms, l, hns', hl₁, hlt, e1, e2, ow, lk, fr⟩ :=
    delBegLoop_spec run ns len' ⟨s.heap, { s.base with len := s.base.len - len, used := 0 }⟩ d
      (by omega) rfl (fun m hm => sd.valid.pos m (by rw [hns]; exact List.mem_append_right _ hm))
      fun m hm => sd.buf_lt (by rw [hns]; exact List.mem_append_right _ hm)
  refine ⟨P₁, _, run ++ gone, m, ms, l, by rw [hns, hns', List.append_assoc], ?_, hlt, ow, lk,
    fr, ?_, ?_⟩
  · rw [lens_append]
    omega
  · unfold begLive
    split
    · rename_i hnil
      rw [hrun (List.append_eq_nil_iff.mp hnil).1, Nat.sub_zero]
    · rfl
  · rw [← e1, List.length_append]
    refine Prod.ext rfl ?_
    rw [e1]
    have hst : ∀ (t : St) (b : Base), t.base = b → t = ⟨t.heap, b⟩ := by
      rintro ⟨t, _⟩ b rfl
      rfl
    exact hst _ _ e2

/-- A `BUF` node holds no reference, so it can go without one. -/
theorem Owned.dropping_buf {n : Node} {ns : List Node} {h : Heap} (how : Owned E P h (n :: ns))
    (hd : n.data = .buf) : Dropping E P h [] [n] ns := by
  refine ⟨how.heap, how.nodes, fun r => ?_⟩
  have := how.refs r
  rw [heldBy_cons] at this
  have hr : n.ref = none := by rw [Node.ref, hd]
  rw [hr] at this
  simpa using this

/-- `vstr__del_beg` on any list that has more bytes. -/
theorem delBeg_cases (sd : Sound E P s) (h0 : 0 < len) (hlen : len < s.base.len) :
    ∃ P' h' gone m ms l, s.base.nodes = gone ++ m :: ms ∧
      lens gone + l = len + s.base.used ∧ l < m.len ∧ Owned E P' h' (m :: ms) ∧
      Like s.heap h' ∧ Frame E P s.heap P' h' ∧
      delBeg s len = ⟨h', cacheDel (begVec
        (cacheIovecDelBeg (begBase s.base len gone.length m l ms) gone.length)
        (begNode m l) (begLive s.base gone l)) 1 len⟩ := by
  have hv := sd.valid
  have hl := hv.len
  unfold delBeg
  dsimp only
  split
  · rename_i hns
    rw [hns, lens_nil] at hl
    omega
  · rename_i n ns hns
    have how := sd.owned
    rw [hns] at how hl
    rw [lens_cons] at hl
    split
    · rename_i hc
      obtain ⟨m, ms, hms, hd, -⟩ := hv.used hc.1
      rw [hns, List.cons.injEq] at hms
      rw [← hms.1] at hd
      have e1 : begNode n (len + s.base.used) = n := by unfold begNode; rw [hd]
      have hsz := sd.buf_lt (by rw [hns]; exact List.mem_cons_self) hd
      have e2 : begUsed n (len + s.base.used) = (s.base.used + len) % 2 ^ 16 := by
        rw [Nat.mod_eq_of_lt (by omega), Nat.add_comm]
        unfold begUsed
        rw [hd]
      refine ⟨P, s.heap, [], n, ns, len + s.base.used, hns, by rw [lens_nil]; omega, by omega,
        how, Like.refl s.heap, Frame.refl E P s.heap, ?_⟩
      rw [List.length_nil, cacheIovecDelBeg_zero, begVec, begLive, if_pos rfl,
        Nat.add_sub_cancel, if_pos (by omega), begBase, e1, e2, ← hns]
      rfl
    · rename_i hc
      by_cases hu : s.base.used = 0
      · obtain ⟨P', h', gone, m, ms, l, e1, e2, hlt, ow, lk, fr, hlive, e⟩ :=
          delBegLoop_cases [] (n :: ns) len sd hns (how.dropping (a := [])) hlen
            (by rw [lens_nil]; omega) fun _ => hu
        refine ⟨P', h', gone, m, ms, l, e1, e2, hlt, ow, lk, fr, ?_⟩
        have hs : (⟨s.heap, { s.base with len := s.base.len - len }⟩ : St) =
            ⟨s.heap, { s.base with len := s.base.len - len, used := 0 }⟩ := by rw [← hu]
        rw [if_neg (by simp [hu]), hs, e, hlive]
        dsimp only
        rw [begBase_node]
        rfl
      · obtain ⟨m₀, ms₀, hms, hd, hlt₀⟩ := hv.used hu
        rw [hns, List.cons.injEq] at hms
        rw [← hms.1] at hd hlt₀
        obtain ⟨P', h', gone, m, ms, l, e1, e2, hlt, ow, lk, fr, hlive, e⟩ :=
          delBegLoop_cases [n] ns (len - (n.len - s.base.used)) sd hns (how.dropping_buf hd) hlen
            (by rw [lens_cons, lens_nil]; omega) fun h => by cases h
        refine ⟨P', h', gone, m, ms, l, e1, e2, hlt, ow, lk, fr, ?_⟩
        rw [if_pos (by simp [hu]), e, hlive]
        dsimp only
        rw [begBase_node]
        rfl

/-! ## Deletions behind a position -/

/-- A node without its first `l` bytes, those of a `BUF` node moved down. -/
def cutNode (m : Node) (l : Nat) : Node :=
  { m with data := shiftPayload m.data l, len := m.len - l }

/-- Memory once the bytes of a `BUF` node are moved down by `l`. -/
def cutHeap (h : Heap) (m : Node) (l : Nat) : Heap :=
  match m.data with
  | .buf => h.setMem (copy h.mem ⟨.node m.id, 0⟩ ⟨.node m.id, l⟩ (m.len - l))
  | _ => h

theorem cutHeap_cases (h : Heap) (m : Node) (l : Nat) :
    (m.data = .buf ∧ cutHeap h m l = h.setMem (write h.mem ⟨.node m.id, 0⟩
        (read h.mem ⟨.node m.id, l⟩ (m.len - l)))) ∨ (m.data ≠ .buf ∧ cutHeap h m l = h) := by
  unfold cutHeap
  cases hd : m.data with
  | buf => exact .inl ⟨rfl, rfl⟩
  | non => exact .inr ⟨by simp, rfl⟩
  | ptr a => exact .inr ⟨by simp, rfl⟩
  | ref r off => exact .inr ⟨by simp, rfl⟩

theorem owned_cut {a ms : List Node} {m : Node} (ow : Owned E P h (a ++ m :: ms)) (l : Nat) :
    Owned E P (cutHeap h m l) (a ++ cutNode m l :: ms) ∧ Frame E P h P (cutHeap h m l) := by
  have ow' : Owned E P h (a ++ cutNode m l :: ms) := by
    refine ow.of_same ?_ ?_
    · rw [List.map_append, List.map_append, List.map_cons, List.map_cons]
      rfl
    · rw [List.map_append, List.map_append, List.map_cons, List.map_cons, cutNode,
        shiftPayload_ref]
  rcases cutHeap_cases h m l with ⟨-, e⟩ | ⟨-, e⟩
  · rw [e]
    exact ⟨ow'.setMem _, frame_setMem _ (not_foreign_of_base (ow.nodes.own m (by simp)))⟩
  · rw [e]
    exact ⟨ow', Frame.refl E P h⟩

/-- The bytes after a node lost its beginning. -/
theorem flat_cut {a ms : List Node} {m : Node} {l : Nat} (ow : Owned E P h (a ++ m :: ms))
    (hl : l < m.len) (ps : PtrSafe E P (a ++ m :: ms))
    (hf : ∀ r off, m.data = .ref r off → off + l < 2 ^ 32) :
    flat (cutHeap h m l) a = flat h a ∧
      flat (cutHeap h m l) (cutNode m l :: ms) = (flat h (m :: ms)).drop l := by
  have hdrop : (flat h (m :: ms)).drop l = (nodeBytes h m).drop l ++ flat h ms := by
    rw [flat_cons, List.drop_append_of_le_length (by rw [length_nodeBytes]; omega)]
  rw [hdrop, flat_cons]
  rcases cutHeap_cases h m l with ⟨hd, e⟩ | ⟨hd, e⟩
  · rw [e]
    obtain ⟨h1, h2⟩ := ow.flat_write_around ps 0 (read h.mem ⟨.node m.id, l⟩ (m.len - l))
    refine ⟨h1, ?_⟩
    rw [h2, nodeBytes_eq, nodeBytes_eq, cutNode, hd]
    dsimp only [shiftPayload]
    have hr := read_copy_self h.mem ⟨.node m.id, 0⟩ ⟨.node m.id, l⟩ (m.len - l)
    rw [copy] at hr
    rw [Heap.setMem, hr, ← List.map_drop, drop_read]
    simp [Ptr.add]
  · rw [e]
    exact ⟨rfl, by rw [cutNode, nodeBytes_shift h m hd hf]⟩

/-- The nodes `rest` without their first `l` bytes, which are in the first of them. -/
def cutFront (rest : List Node) (l : Nat) : List Node :=
  match rest with
  | [] => []
  | m :: ms => if l = 0 then m :: ms else cutNode m l :: ms

/-- Memory afterwards. -/
def cutFrontHeap (h : Heap) (rest : List Node) (l : Nat) : Heap :=
  match rest with
  | [] => h
  | m :: _ => if l = 0 then h else cutHeap h m l

theorem cutFront_cases (h : Heap) (rest : List Node) {l : Nat}
    (hl : l ≠ 0 → ∃ m ms, rest = m :: ms ∧ l < m.len) :
    (l = 0 ∧ cutFront rest l = rest ∧ cutFrontHeap h rest l = h) ∨
      ∃ m ms, rest = m :: ms ∧ l ≠ 0 ∧ l < m.len ∧ cutFront rest l = cutNode m l :: ms ∧
        cutFrontHeap h rest l = cutHeap h m l := by
  by_cases h0 : l = 0
  · refine .inl ⟨h0, ?_, ?_⟩
    · unfold cutFront
      cases rest <;> simp [h0]
    · unfold cutFrontHeap
      cases rest <;> simp [h0]
  · obtain ⟨m, ms, rfl, hlt⟩ := hl h0
    exact .inr ⟨m, ms, rfl, h0, hlt, by simp [cutFront, h0], by simp [cutFrontHeap, h0]⟩

/-- What is left of `rest` behind the nodes `a`. -/
structure CutFront (E : Env) (P : Own) (h : Heap) (a rest : List Node) (l : Nat) (h' : Heap)
    (rest' : List Node) : Prop where
  /-- Places. -/
  owned : Owned E P h' (a ++ rest')
  /-- Foreign blocks are left alone. -/
  frame : Frame E P h P h'
  /-- The bytes left. -/
  lens : lens rest' + l = lens rest
  /-- The same nodes. -/
  ids : rest'.map Node.id = rest.map Node.id
  /-- Or parts of them. -/
  sub : (∀ m ∈ rest, 0 < m.len) →
    ∀ m ∈ rest', ∃ m₀ ∈ rest, m.type = m₀.type ∧ 0 < m.len ∧ m.len ≤ m₀.len
  /-- `PTR` nodes point where they did. -/
  ptrs : ∀ {Q : Blk → Prop}, PtrsIn Q (a ++ rest) → PtrsIn Q (a ++ rest')
  /-- Offsets do not wrap. -/
  fits : Fits (a ++ rest) → Fits (a ++ rest')
  /-- The bytes they name. -/
  named : named rest' = (named rest).drop l ↔ CutOk (a ++ rest) (Vstr.lens a + l)
  /-- Their bytes. -/
  flat : PtrSafe E P (a ++ rest) → CutOk (a ++ rest) (Vstr.lens a + l) →
    flat h' a = flat h a ∧ flat h' rest' = (flat h rest).drop l

theorem cutFront_spec {a rest : List Node} {l : Nat} (ow : Owned E P h (a ++ rest))
    (hl : l ≠ 0 → ∃ m ms, rest = m :: ms ∧ l < m.len) :
    CutFront E P h a rest l (cutFrontHeap h rest l) (cutFront rest l) := by
  rcases cutFront_cases h rest hl with ⟨rfl, e, e'⟩ | ⟨m, ms, rfl, h0, hlt, e, e'⟩
  · rw [e, e']
    refine ⟨ow, Frame.refl E P h, rfl, rfl, fun hp m hm => ⟨m, hm, rfl, hp m hm, Nat.le_refl _⟩,
      id, id, iff_of_true rfl (cutOk_between rfl rfl), fun _ _ => ⟨rfl, rfl⟩⟩
  · rw [e, e']
    obtain ⟨ow', fr⟩ := owned_cut ow l
    have hcut : CutOk (a ++ m :: ms) (lens a + l) ↔
        ∀ r off, m.data = .ref r off → off + l < 2 ^ 32 :=
      cutOk_at rfl rfl (Nat.pos_of_ne_zero h0) hlt
    refine ⟨ow', fr, ?_, rfl, fun hp x hx => ?_, fun ps => ?_, fun hf => ?_, ?_,
      fun ps hc => flat_cut ow hlt ps (hcut.mp hc)⟩
    · simp only [lens_cons, cutNode]
      omega
    · rcases List.mem_cons.mp hx with rfl | hx
      · exact ⟨m, List.mem_cons_self, shiftPayload_type m l _,
          by simp only [cutNode]; omega, Nat.sub_le _ _⟩
      · exact ⟨x, List.mem_cons_of_mem _ hx, rfl, hp x (List.mem_cons_of_mem _ hx), Nat.le_refl _⟩
    · rw [ptrsIn_append, ptrsIn_cons] at ps ⊢
      exact ⟨ps.1, shiftPayload_ptr ps.2.1, ps.2.2⟩
    · rw [fits_append, fits_cons] at hf ⊢
      exact ⟨hf.1, shiftPayload_fits hlt hf.2.1, hf.2.2⟩
    · rw [hcut, named_cons, named_cons, cutNode,
        List.drop_append_of_le_length (by rw [Payload.length_stretch]; omega),
        List.append_left_inj, shiftPayload_eq_cut]
      exact stretch_drop_iff hlt

/-- The base after the end of the node `n` and everything up to `rest` went. -/
def afterBase (b : Base) (len gone : Nat) (pre : List Node) (n : Node) (p : Nat)
    (rest : List Node) : Base :=
  { b with
    len := b.len - len
    num := b.num - gone
    nodes := pre ++ { n with len := p } :: rest
    endNode := if rest = [] then some n.id else b.endNode }

/-- The nodes that the rest of a deletion takes. -/
structure Cutting (E : Env) (P : Own) (s : St) (len : Nat) (pre : List Node) (n : Node)
    (post : List Node) (p : Nat) (P' : Own) (h' : Heap) (gone rest : List Node) (l : Nat) :
    Prop where
  /-- The nodes that go, and the ones that stay. -/
  nodes : post = gone ++ rest
  /-- What goes of the first one that stays. -/
  part : l ≠ 0 → ∃ m ms, rest = m :: ms ∧ l < m.len
  /-- The number of bytes. -/
  sum : len = n.len - p + lens gone + l
  /-- The nodes that stay have their places. -/
  owned : Owned E P' h' (pre ++ n :: rest)
  /-- Bytes are left alone. -/
  like : Like s.heap h'
  /-- Foreign blocks are left alone. -/
  frame : Frame E P s.heap P' h'

section Cutting

variable {gone rest : List Node} {p l keep : Nat}

theorem nodes_afterBase (b : Base) (len gone : Nat) (pre : List Node) (n : Node) (p : Nat)
    (rest : List Node) :
    (afterBase b len gone pre n p rest).nodes = (pre ++ [{ n with len := p }]) ++ rest := by
  simp [afterBase]

/-- Nothing behind the node goes. -/
theorem Cutting.whole (sd : Sound E P s) (hns : s.base.nodes = pre ++ n :: post)
    (hlen : len = n.len - p) : Cutting E P s len pre n post p P s.heap [] post 0 where
  nodes := rfl
  part h := absurd rfl h
  sum := by simp [hlen]
  owned := hns ▸ sd.owned
  like := Like.refl s.heap
  frame := Frame.refl E P s.heap

/-- The nodes that stay are nodes of the list, but for the one that is cut. -/
theorem Cutting.mem (c : Cutting E P s len pre n post p P' h' gone rest l)
    (hns : s.base.nodes = pre ++ n :: post) {m : Node}
    (hm : m ∈ (pre ++ [{ n with len := p }]) ++ rest) :
    m ∈ s.base.nodes ∨ m = { n with len := p } := by
  rw [List.append_assoc, List.singleton_append] at hm
  rw [hns, c.nodes]
  rcases List.mem_append.mp hm with hm | hm
  · exact .inl (List.mem_append_left _ hm)
  · rcases List.mem_cons.mp hm with rfl | hm
    · exact .inr rfl
    · have hg : m ∈ gone ++ rest := List.mem_append_right gone hm
      exact .inl (List.mem_append_right pre (List.mem_cons_of_mem n hg))

theorem Cutting.ptrs (c : Cutting E P s len pre n post p P' h' gone rest l)
    (hns : s.base.nodes = pre ++ n :: post) {Q : Blk → Prop} (ps : PtrsIn Q s.base.nodes) :
    PtrsIn Q ((pre ++ [{ n with len := p }]) ++ rest) := by
  intro m hm a ha
  rcases c.mem hns hm with hm | rfl
  · exact ps m hm a ha
  · exact ps n (by rw [hns]; simp) a ha

theorem Cutting.fits (c : Cutting E P s len pre n post p P' h' gone rest l)
    (hns : s.base.nodes = pre ++ n :: post) (hp : p ≤ n.len) (hf : Fits s.base.nodes) :
    Fits ((pre ++ [{ n with len := p }]) ++ rest) := by
  intro m hm r off hr
  rcases c.mem hns hm with hm | rfl
  · exact hf m hm r off hr
  · have := hf n (by rw [hns]; simp) r off hr
    dsimp only
    omega

/-- The first node that stays is cut. -/
theorem Cutting.front (c : Cutting E P s len pre n post p P' h' gone rest l) :
    CutFront E P' h' (pre ++ [{ n with len := p }]) rest l (cutFrontHeap h' rest l)
      (cutFront rest l) := by
  have ow : Owned E P' h' ((pre ++ [{ n with len := p }]) ++ rest) :=
    c.owned.of_same (by simp) (by
      simp only [List.map_append, List.map_cons, List.map_nil, List.append_assoc]
      rfl)
  exact cutFront_spec ow c.part

/-- The end of the stretch is inside the same node as before. -/
theorem Cutting.cutOk (c : Cutting E P s len pre n post p P' h' gone rest l)
    (hns : s.base.nodes = pre ++ n :: post) (hp : p ≤ n.len)
    (hk : lens pre + p = keep + s.base.used) :
    CutOk s.base.nodes (s.base.used + (keep + 1 - 1) + len) ↔
      CutOk ((pre ++ [{ n with len := p }]) ++ rest)
        (lens (pre ++ [{ n with len := p }]) + l) := by
  have hsum := c.sum
  have hq : s.base.used + (keep + 1 - 1) + len = lens (pre ++ n :: gone) + l := by
    rw [lens_append, lens_cons]
    omega
  rw [hq, hns, c.nodes, ← List.cons_append, ← List.append_assoc, cutOk_append, cutOk_append]

/-- The structure is what it was. -/
theorem Cutting.valid (c : Cutting E P s len pre n post p P' h' gone rest l)
    {rest' : List Node} {h'' : Heap}
    (cf : CutFront E P' h' (pre ++ [{ n with len := p }]) rest l h'' rest') {bufSz : Nat}
    (hv : Valid bufSz s.base) (hns : s.base.nodes = pre ++ n :: post) (h0 : 0 < p)
    (hp : p ≤ n.len) (hk : lens pre + p = keep + s.base.used) (hkeep : 0 < keep) :
    Valid bufSz (afterBase s.base len gone.length pre n p rest') := by
  have hlen := hv.len
  have hnum := hv.num
  have hend := hv.endNode
  have hsum := c.sum
  have hlens := cf.lens
  have hn : n ∈ s.base.nodes := by rw [hns]; simp
  have hrl := congrArg List.length cf.ids
  rw [List.length_map, List.length_map] at hrl
  rw [hns, c.nodes] at hlen hnum hend
  simp only [lens_append, lens_cons] at hlen
  simp only [List.length_append, List.length_cons] at hnum
  have hnodes := nodes_afterBase s.base len gone.length pre n p rest'
  refine hv.shrink ?_ rfl ?_ ?_ ?_ ?_
  · intro m hm
    rw [hnodes, List.mem_append] at hm
    have hall : ∀ x ∈ (pre ++ [{ n with len := p }]) ++ rest,
        ∃ m₀ ∈ s.base.nodes, x.type = m₀.type ∧ 0 < x.len ∧ x.len ≤ m₀.len := by
      intro x hx
      rcases c.mem hns hx with hx | rfl
      · exact ⟨x, hx, rfl, hv.pos x hx, Nat.le_refl _⟩
      · exact ⟨n, hn, rfl, h0, hp⟩
    rcases hm with hm | hm
    · exact hall m (List.mem_append_left rest hm)
    · have hpos : ∀ x ∈ rest, 0 < x.len := fun x hx => by
        obtain ⟨-, -, -, h, -⟩ := hall x (List.mem_append_right _ hx)
        exact h
      obtain ⟨m₀, hm₀, hty, h1, h2⟩ := cf.sub hpos m hm
      obtain ⟨m₁, hm₁, hty', -, h3⟩ := hall m₀ (List.mem_append_right _ hm₀)
      exact ⟨m₁, hm₁, hty.trans hty', h1, Nat.le_trans h2 h3⟩
  · rw [hnodes]
    simp only [afterBase, lens_append, lens_cons, lens_nil]
    omega
  · rw [hnodes]
    simp only [afterBase, List.length_append, List.length_cons, List.length_nil]
    omega
  · rw [hnodes]
    simp only [afterBase]
    by_cases hr : rest' = []
    · rw [if_pos hr, hr]
      simp
    · have hr' : rest ≠ [] := fun e => hr (by rw [e] at hrl; exact List.length_eq_zero_iff.mp hrl)
      have hm : rest.map Node.id ≠ [] := by simpa using hr'
      have hl₁ : ((pre ++ n :: (gone ++ rest)).map Node.id).getLast? =
          (rest.map Node.id).getLast? := by
        rw [List.map_append, List.map_cons, List.map_append, ← List.cons_append,
          ← List.append_assoc, List.getLast?_append_of_ne_nil _ hm]
      have hl₂ : ((pre ++ [({ n with len := p } : Node)] ++ rest').map Node.id).getLast? =
          (rest.map Node.id).getLast? := by
        rw [List.map_append, cf.ids, List.getLast?_append_of_ne_nil _ hm]
      rw [if_neg hr, hend, ← List.getLast?_map, ← List.getLast?_map, hl₁, hl₂]
  · intro hu
    obtain ⟨k, ks, hkk, hd, hlt⟩ := hv.used hu
    rw [hns] at hkk
    simp only [afterBase]
    cases pre with
    | nil =>
      rw [List.nil_append, List.cons.injEq] at hkk
      rw [lens_nil] at hk
      exact ⟨_, _, rfl, by rw [← hd, ← hkk.1], by dsimp only; omega⟩
    | cons m ms =>
      rw [List.cons_append, List.cons.injEq] at hkk
      exact ⟨m, _, rfl, by rw [hkk.1]; exact hd, by rw [hkk.1]; exact hlt⟩

/-- The bytes that are named. -/
theorem Cutting.sources (c : Cutting E P s len pre n post p P' h' gone rest l)
    {rest' : List Node} {h'' : Heap}
    (cf : CutFront E P' h' (pre ++ [{ n with len := p }]) rest l h'' rest')
    (hns : s.base.nodes = pre ++ n :: post) (hp : p ≤ n.len)
    (hk : lens pre + p = keep + s.base.used) :
    Vstr.sources (afterBase s.base len gone.length pre n p rest') =
        deleteRange (Vstr.sources s.base) (keep + 1) len ↔
      CutOk s.base.nodes (s.base.used + (keep + 1 - 1) + len) := by
  have hcut := c.cutOk hns hp hk
  have hlens := cf.lens
  have hdel : deleteRange (Vstr.sources s.base) (keep + 1) len =
      ((named pre ++ (n.data.stretch n.len).take p) ++ (named rest).drop l).drop s.base.used := by
    unfold Vstr.sources
    rw [hns, c.nodes]
    exact deleteRange_behind (fun m => m.data.length_stretch m.len) hp hk (by omega) c.sum
  have hleft : Vstr.sources (afterBase s.base len gone.length pre n p rest') =
      ((named pre ++ (n.data.stretch n.len).take p) ++ named rest').drop s.base.used := by
    unfold Vstr.sources
    rw [nodes_afterBase, named_append, named_append, named_cons, named_nil, List.append_nil,
      n.data.stretch_take hp]
    rfl
  have hu : s.base.used ≤ (named pre ++ (n.data.stretch n.len).take p).length := by
    rw [List.length_append, length_named, List.length_take, Payload.length_stretch,
      Nat.min_eq_left hp]
    omega
  have hinj := drop_append_inj (z := []) (x := named rest') (y := (named rest).drop l) hu
  rw [List.append_nil, List.append_nil] at hinj
  rw [hcut, ← cf.named, ← hinj, ← hdel, ← hleft]

/-- The content. -/
theorem Cutting.content (c : Cutting E P s len pre n post p P' h' gone rest l)
    {rest' : List Node} {h'' : Heap}
    (cf : CutFront E P' h' (pre ++ [{ n with len := p }]) rest l h'' rest')
    (hns : s.base.nodes = pre ++ n :: post) (hp : p ≤ n.len)
    (hk : lens pre + p = keep + s.base.used) (ps : PtrSafe E P s.base.nodes)
    (hc : CutOk s.base.nodes (s.base.used + (keep + 1 - 1) + len)) :
    Vstr.content ⟨h'', afterBase s.base len gone.length pre n p rest'⟩ =
      deleteRange (Vstr.content s) (keep + 1) len := by
  have hlens := cf.lens
  obtain ⟨e1, e2⟩ := cf.flat (PtrsIn.frame (c.ptrs hns ps) c.frame) ((c.cutOk hns hp hk).mp hc)
  have hn' : nodeBytes h' { n with len := p } = (nodeBytes s.heap n).take p := by
    rw [nodeBytes_take h' n hp, c.like.nodeBytes]
  have hdel : deleteRange (Vstr.content s) (keep + 1) len =
      ((flat s.heap pre ++ (nodeBytes s.heap n).take p) ++
        (flat s.heap rest).drop l).drop s.base.used := by
    unfold Vstr.content
    rw [hns, c.nodes]
    exact deleteRange_behind (length_nodeBytes s.heap) hp hk (by omega) c.sum
  rw [hdel]
  unfold Vstr.content
  dsimp only
  rw [nodes_afterBase, flat_append, e1, e2, flat_append, flat_cons, flat_nil, hn', c.like.flat,
    c.like.flat, List.append_nil]
  rfl

/-- The end of a node goes, and what is behind it. -/
theorem gone_after (c : Cutting E P s len pre n post p P' h' gone rest l) (sd : Sound E P s)
    (hns : s.base.nodes = pre ++ n :: post) (h0 : 0 < p) (hp : p ≤ n.len)
    (hk : lens pre + p = keep + s.base.used) (hkeep : 0 < keep) :
    Gone E P s (keep + 1) len P' ⟨cutFrontHeap h' rest l,
      afterBase s.base len gone.length pre n p (cutFront rest l)⟩ := by
  have hv := sd.valid
  have hbl := hv.len
  have hsum := c.sum
  have cf := c.front
  have hlens := cf.lens
  generalize cutFront rest l = rest' at cf hlens ⊢
  generalize cutFrontHeap h' rest l = h'' at cf ⊢
  have hnodes := nodes_afterBase s.base len gone.length pre n p rest'
  rw [hns, c.nodes] at hbl
  simp only [lens_append, lens_cons] at hbl
  refine ⟨sd.of_frame (c.frame.trans cf.frame) rfl ?_ (c.valid cf hv hns h0 hp hk hkeep),
    c.frame.trans cf.frame, ⟨?_, rfl, rfl, rfl, rfl⟩, fun ps => ?_, fun hf => ?_,
    fun h1 => by omega, c.sources cf hns hp hk, c.content cf hns hp hk⟩
  · rw [hnodes]
    exact cf.owned
  · simp only [afterBase]
    omega
  · rw [hnodes]
    exact cf.ptrs (c.ptrs hns ps)
  · rw [hnodes]
    exact cf.fits (c.fits hns hp hf)

end Cutting

/-- The base after `gone` nodes behind `n`, the node `num`, and the first `l` bytes of `rest`
went, its vectors included. -/
def endVec (h : Heap) (b : Base) (num gone : Nat) (pre : List Node) (n : Node) (rest : List Node)
    (l : Nat) : Base :=
  let b' := { cacheIovecDelNodes b num gone with
    num := b.num - gone
    nodes := pre ++ n :: cutFront rest l
    endNode := if rest = [] then some n.id else b.endNode }
  match rest with
  | [] => b'
  | m :: _ => if l = 0 then b' else cacheIovecResetNode h b' (cutNode m l) (num + 1)

/-- The vectors after the last `tmp` bytes of node `num` went. -/
def tailVec (b : Base) (num tmp : Nat) : Base :=
  if tmp ≠ 0 then cacheIovecDelNodeEnd b num tmp else b

theorem cutFront_eq_nil {rest : List Node} {l : Nat} : cutFront rest l = [] ↔ rest = [] := by
  unfold cutFront
  cases rest with
  | nil => simp
  | cons m ms => by_cases h0 : l = 0 <;> simp [h0]

theorem noVec_endVec (h : Heap) (b : Base) (num gone : Nat) (pre : List Node) (n : Node)
    (rest : List Node) (l : Nat) :
    (endVec h b num gone pre n rest l).noVec = ({ b with
      num := b.num - gone
      nodes := pre ++ n :: cutFront rest l
      endNode := if rest = [] then some n.id else b.endNode } : Base).noVec := by
  have hb := congrArg (fun x : Base => ({ x with
      num := b.num - gone
      nodes := pre ++ n :: cutFront rest l
      endNode := if rest = [] then some n.id else b.endNode } : Base))
    (noVec_cacheIovecDelNodes b num gone)
  unfold endVec
  dsimp only
  split
  · exact hb
  · split
    · exact hb
    · rw [noVec_cacheIovecResetNode]
      exact hb

theorem noVec_tailVec (b : Base) (num tmp : Nat) : (tailVec b num tmp).noVec = b.noVec := by
  unfold tailVec
  split
  · exact noVec_cacheIovecDelNodeEnd _ _ _
  · rfl

/-- Nothing is trimmed when no node went. -/
theorem cacheIovecDelNodes_zero (b : Base) (num : Nat) : cacheIovecDelNodes b num 0 = b := by
  unfold cacheIovecDelNodes Base.mapVec
  split
  · cases b with
    | mk _ _ _ _ _ _ _ _ _ _ _ vec _ _ => cases vec <;> simp
  · rfl

theorem endVec_nodes (h : Heap) (b : Base) (ns : List Node) (num gone : Nat) (pre : List Node)
    (n : Node) (rest : List Node) (l : Nat) :
    endVec h { b with nodes := ns } num gone pre n rest l = endVec h b num gone pre n rest l := by
  have hd : cacheIovecDelNodes { b with nodes := ns } num gone =
      { cacheIovecDelNodes b num gone with nodes := ns } := by
    unfold cacheIovecDelNodes
    dsimp only
    split <;> rfl
  unfold endVec
  rw [hd]

/-- Nothing went behind the node. -/
theorem endVec_whole (h : Heap) (b : Base) (num : Nat) (pre : List Node) (n : Node)
    (rest : List Node) :
    endVec h b num ([] : List Node).length pre n rest 0 = { b with
      nodes := pre ++ n :: rest
      endNode := if rest = [] then some n.id else b.endNode } := by
  unfold endVec
  rw [List.length_nil, cacheIovecDelNodes_zero]
  cases rest with
  | nil => rfl
  | cons m ms => rfl

/-- The last node of the stretch loses its front. -/
theorem delFixLast_eq {st : St} {l : Nat} (m : Node) (ms : List Node) (num : Nat) (hl : l ≠ 0)
    (hst : st.base.nodes = pre ++ n :: m :: ms) :
    delFixLast st (pre.length + 1) num l = ⟨cutFrontHeap st.heap (m :: ms) l,
      cacheIovecResetNode (cutFrontHeap st.heap (m :: ms) l)
        { st.base with nodes := pre ++ n :: cutFront (m :: ms) l } (cutNode m l) num⟩ := by
  have hnode : st.base.node (pre.length + 1) = m := by
    have : st.base.nodes = (pre ++ [n]) ++ m :: ms := by rw [hst]; simp
    have := node_of_eq this
    simpa using this
  have hset : st.base.nodes.set (pre.length + 1) (cutNode m l) =
      pre ++ n :: cutFront (m :: ms) l := by
    rw [hst]
    simp [cutFront, hl]
  unfold delFixLast
  dsimp only
  rw [hnode]
  have hh : cutFrontHeap st.heap (m :: ms) l = cutHeap st.heap m l := by
    simp [cutFrontHeap, hl]
  rw [hh, ← hset]
  rfl

/-- `vstr_extern_inline_del` behind the node `n`. -/
theorem delNodes_cases {f : Found} (ow : Owned E P s.heap s.base.nodes)
    (hns : s.base.nodes = pre ++ n :: post) (hidx : f.idx = pre.length) (h0 : 0 < len)
    (hlen : len ≤ lens post) :
    ∃ P' h' gone rest l, post = gone ++ rest ∧ (l ≠ 0 → ∃ m ms, rest = m :: ms ∧ l < m.len) ∧
      len = lens gone + l ∧ Owned E P' h' (pre ++ n :: rest) ∧ Like s.heap h' ∧
      Frame E P s.heap P' h' ∧
      delNodes s f len = ⟨cutFrontHeap h' rest l,
        endVec (cutFrontHeap h' rest l) s.base f.num gone.length pre n rest l⟩ := by
  have hdrop : s.base.nodes.drop (pre.length + 1) = post := by
    rw [hns, List.drop_append, List.drop_eq_nil_of_le (by omega), Nat.add_sub_cancel_left]
    rfl
  have htake : s.base.nodes.take (pre.length + 1) = pre ++ [n] := by
    rw [hns, List.take_append, List.take_of_length_le (by omega), Nat.add_sub_cancel_left]
    rfl
  obtain ⟨m, ms, hpost⟩ : ∃ m ms, post = m :: ms := by
    cases post with
    | nil => rw [lens_nil] at hlen; omega
    | cons m ms => exact ⟨m, ms, rfl⟩
  have hnode : s.base.node (pre.length + 1) = m := by
    have : s.base.nodes = (pre ++ [n]) ++ m :: ms := by rw [hns, hpost]; simp
    have := node_of_eq this
    simpa using this
  unfold delNodes
  rw [hidx, hnode]
  by_cases hlt : len < m.len
  · rw [if_pos hlt, delFixLast_eq m ms _ (by omega) (by rw [hns, hpost])]
    refine ⟨P, s.heap, [], m :: ms, len, hpost, fun _ => ⟨m, ms, rfl, hlt⟩,
      by rw [lens_nil]; omega, ?_, Like.refl _, Frame.refl _ _ _, ?_⟩
    · rw [← hpost, ← hns]
      exact ow
    · simp only [endVec, List.length_nil, cacheIovecDelNodes_zero, Nat.sub_zero]
      rw [if_neg (by omega)]
      rfl
  · rw [if_neg hlt, hdrop]
    have d : Dropping E P s.heap (pre ++ [n]) [] post := by
      apply Owned.dropping
      rw [List.append_assoc]
      rw [hns] at ow
      exact ow
    obtain ⟨P', gone, rest, hpr, hr, hle, hrest, d', fr, lk⟩ :=
      delEndLoop_spec s.base.conf (pre ++ [n]) [] post len s.heap d
    have ow' := d'.owned
    rw [List.append_assoc] at ow'
    generalize hR : delEndLoop s.base.conf [] post len s.heap = R at hr d' fr lk ow'
    obtain ⟨R₁, h'⟩ := R
    dsimp only at hr d' fr lk ow' ⊢
    rw [hr]
    dsimp only
    rw [List.length_nil, Nat.zero_add]
    have hb := noVec_cacheIovecDelNodes s.base f.num gone.length
    have hbn : (cacheIovecDelNodes s.base f.num gone.length).nodes = s.base.nodes :=
      (congrArg Base.nodes hb :)
    have hbe : (cacheIovecDelNodes s.base f.num gone.length).endNode = s.base.endNode :=
      (congrArg Base.endNode hb :)
    have hbm : (cacheIovecDelNodes s.base f.num gone.length).num = s.base.num :=
      (congrArg Base.num hb :)
    have hbi : (cacheIovecDelNodes s.base f.num gone.length).node pre.length = n :=
      node_of_eq (hbn.trans hns)
    rw [hbn, hbe, hbm, hbi, htake]
    have hlr : lens gone + lens rest = lens post := by rw [hpr, lens_append]
    have hl : len - lens gone ≠ 0 → ∃ m ms, rest = m :: ms ∧ len - lens gone < m.len := by
      intro hne
      cases rest with
      | nil => rw [lens_nil] at hlr; omega
      | cons m ms => exact ⟨m, ms, rfl, hrest m ms rfl⟩
    refine ⟨P', h', gone, rest, len - lens gone, hpr, hl, by omega, ow', lk, fr, ?_⟩
    cases rest with
    | nil =>
      rw [if_neg (by simp)]
      simp [endVec, cutFrontHeap, cutFront]
    | cons m ms =>
      by_cases hz : len - lens gone = 0
      · rw [if_neg (by simp [hz])]
        simp [endVec, cutFrontHeap, cutFront, hz]
      · rw [if_pos ⟨by simp, hz⟩, delFixLast_eq (n := n) m ms _ hz (by simp)]
        simp [endVec, hz]

/-! ## Deletions inside a node -/

/-- A split only looks at the list and the configuration. -/
theorem baseSplitNode_len (s : St) (L idx p : Nat) :
    baseSplitNode { s with base := { s.base with len := L } } idx p =
      ((baseSplitNode s idx p).1, { (baseSplitNode s idx p).2 with
        base := { (baseSplitNode s idx p).2.base with len := L } }) := by
  unfold baseSplitNode
  dsimp only
  have hnode : ({ s.base with len := L } : Base).node idx = s.base.node idx := rfl
  rw [hnode]
  split <;> rfl

/-- The base after `len` bytes of the node `n` went. -/
def midBase (b : Base) (len : Nat) (pre : List Node) (n : Node) (post : List Node) : Base :=
  { b with
    len := b.len - len
    nodes := pre ++ { n with len := n.len - len } :: post }

/-- Does a deletion inside the node split it? -/
def delSplits (conf : Conf) (n : Node) : Bool :=
  match n.type with
  | .non => false
  | .buf => conf.splitBufDel
  | _ => true

/-- Memory after a deletion inside a node that is not split. -/
def midHeap (h : Heap) (n : Node) (p len : Nat) : Heap :=
  match n.type with
  | .buf => h.setMem (copy h.mem ⟨.node n.id, p⟩ ⟨.node n.id, p + len⟩ (n.len - (p + len)))
  | _ => h

theorem delMiddle_move {f : Found} (hns : s.base.nodes = pre ++ n :: post)
    (hidx : f.idx = pre.length) (hc : delSplits s.conf n = false) :
    delMiddle { s with base := { s.base with len := s.base.len - len } } f len =
      (true, ⟨midHeap s.heap n f.pos len,
        cacheIovecDelNodeEnd (midBase s.base len pre n post) f.num len⟩) := by
  have hnode : ({ s.base with len := s.base.len - len } : Base).node pre.length = n :=
    node_of_eq hns
  have hset : s.base.nodes.set pre.length { n with len := n.len - len } =
      pre ++ { n with len := n.len - len } :: post := by
    rw [hns]
    simp
  unfold delMiddle
  dsimp only
  rw [hidx, hnode, hset]
  unfold delSplits at hc
  unfold midHeap
  cases ht : n.type with
  | buf =>
    rw [ht] at hc
    have hsp : (St.conf { s with base := { s.base with len := s.base.len - len } }).splitBufDel =
        false := hc
    simp only [hsp, Bool.false_eq_true, not_false_eq_true, if_true]
    rfl
  | non => rfl
  | ptr =>
    rw [ht] at hc
    cases hc
  | ref =>
    rw [ht] at hc
    cases hc

theorem delMiddle_split {f : Found} (hns : s.base.nodes = pre ++ n :: post)
    (hidx : f.idx = pre.length) (hc : delSplits s.conf n = true) :
    delMiddle { s with base := { s.base with len := s.base.len - len } } f len =
      match baseSplitNode s pre.length (f.pos + len) with
      | (false, s') =>
        (false, { s' with base := { s'.base with len := s.base.len - len } })
      | (true, s') =>
        let scan := s'.base.node pre.length
        let b := { s'.base with
          len := s.base.len - len
          nodes := s'.base.nodes.set pre.length { scan with len := scan.len - len } }
        (true, { s' with base := cacheIovecDelNodeEnd b f.num len }) := by
  have hnode : ({ s.base with len := s.base.len - len } : Base).node pre.length = n :=
    node_of_eq hns
  unfold delMiddle
  dsimp only
  rw [hidx, hnode, baseSplitNode_len]
  unfold delSplits at hc
  cases ht : n.type with
  | buf =>
    rw [ht] at hc
    have hsp : (St.conf { s with base := { s.base with len := s.base.len - len } }).splitBufDel =
        true := hc
    simp only [hsp, not_true_eq_false, if_false]
    rcases baseSplitNode s pre.length (f.pos + len) with ⟨_ | _, s'⟩ <;> rfl
  | non =>
    rw [ht] at hc
    cases hc
  | ptr => rcases baseSplitNode s pre.length (f.pos + len) with ⟨_ | _, s'⟩ <;> rfl
  | ref => rcases baseSplitNode s pre.length (f.pos + len) with ⟨_ | _, s'⟩ <;> rfl

/-- Cutting the end of a node. -/
theorem gone_cut {p keep : Nat} (sd : Sound E P s) (hns : s.base.nodes = pre ++ n :: post)
    (h0 : 0 < p) (hp : p ≤ n.len) (hk : lens pre + p = keep + s.base.used) (hkeep : 0 < keep) :
    Gone E P s (keep + 1) (n.len - p) P ⟨s.heap, { s.base with
      len := s.base.len - (n.len - p)
      nodes := pre ++ { n with len := p } :: post }⟩ := by
  have g := gone_after (Cutting.whole sd hns rfl) sd hns h0 hp hk hkeep
  rcases cutFront_cases s.heap post (l := 0) (fun h => absurd rfl h) with
    ⟨-, e, e'⟩ | ⟨-, -, -, h1, -⟩
  · have hend : (if post = [] then some n.id else s.base.endNode) = s.base.endNode := by
      split
      · rename_i hpost
        rw [sd.valid.endNode, hns, hpost]
        simp
      · rfl
    rw [e, e'] at g
    simp only [afterBase, List.length_nil, Nat.sub_zero, hend] at g
    exact g
  · exact absurd rfl h1

/-- The bytes of a `BUF` node whose end is moved down. -/
theorem nodeBytes_move (h : Heap) {p : Nat} (hd : n.data = .buf) (hlt : p + len < n.len) :
    nodeBytes (h.setMem (copy h.mem ⟨.node n.id, p⟩ ⟨.node n.id, p + len⟩ (n.len - (p + len))))
      { n with len := n.len - len } =
        (nodeBytes h n).take p ++ (nodeBytes h n).drop (p + len) := by
  have hl : n.len - len = p + (n.len - (p + len)) := by omega
  have hp : (⟨.node n.id, 0⟩ : Addr).add p = ⟨.node n.id, p⟩ := by simp [Ptr.add]
  have hq : (⟨.node n.id, 0⟩ : Addr).add (p + len) = ⟨.node n.id, p + len⟩ := by simp [Ptr.add]
  have hfst : read (copy h.mem ⟨.node n.id, p⟩ ⟨.node n.id, p + len⟩ (n.len - (p + len)))
      ⟨.node n.id, 0⟩ p = read h.mem ⟨.node n.id, 0⟩ p := by
    apply read_write_of_disjoint
    exact .inl (by simp)
  rw [nodeBytes_eq, nodeBytes_eq]
  simp only [hd, Heap.setMem]
  rw [hl, read_add, hfst, hp, read_copy_self, List.map_append, ← List.map_take, take_read _ _
    (by omega), ← List.map_drop, drop_read, hq]

/-- A node that is not split has no memory of others. -/
theorem data_of_moved {conf : Conf} (hc : delSplits conf n = false) :
    n.data = .buf ∨ n.data = .non := by
  unfold delSplits Node.type at hc
  cases hd : n.data with
  | buf => exact .inl rfl
  | non => exact .inr rfl
  | ptr a =>
    rw [hd] at hc
    cases hc
  | ref r off =>
    rw [hd] at hc
    cases hc

/-- The bytes after a move. -/
theorem flat_midHeap {p : Nat} (how : Owned E P h (pre ++ n :: post))
    (ps : PtrSafe E P (pre ++ n :: post)) (hlt : p + len < n.len)
    (hd : n.data = .buf ∨ n.data = .non) :
    flat (midHeap h n p len) pre = flat h pre ∧ flat (midHeap h n p len) post = flat h post ∧
      nodeBytes (midHeap h n p len) { n with len := n.len - len } =
        (nodeBytes h n).take p ++ (nodeBytes h n).drop (p + len) := by
  unfold midHeap
  rcases hd with hd | hd
  · have ht : n.type = .buf := by rw [Node.type, hd]
    simp only [ht]
    obtain ⟨h1, h2⟩ := how.flat_write_around ps p
      (read h.mem ⟨.node n.id, p + len⟩ (n.len - (p + len)))
    exact ⟨h1, h2, nodeBytes_move h hd hlt⟩
  · have ht : n.type = .non := by rw [Node.type, hd]
    simp only [ht, true_and]
    rw [nodeBytes_eq, nodeBytes_eq]
    simp only [hd]
    rw [List.take_replicate, List.drop_replicate, ← List.replicate_add]
    congr 1
    omega

/-- What the bytes of the node are named by after a move. -/
theorem stretch_moved {p : Nat} (hlt : p + len < n.len) (hd : n.data = .buf ∨ n.data = .non) :
    n.data.stretch (n.len - len) =
      (n.data.stretch n.len).take p ++ (n.data.stretch n.len).drop (p + len) := by
  have hown : ∀ m, n.data.stretch m = List.replicate m .own := by
    intro m
    rcases hd with hd | hd
    · rw [hd]
      rfl
    · rw [hd]
      rfl
  rw [hown, hown, List.take_replicate, List.drop_replicate, ← List.replicate_add]
  congr 1
  omega

/-- Moving the end of the node down. -/
theorem gone_move {p keep : Nat} (sd : Sound E P s) (hns : s.base.nodes = pre ++ n :: post)
    (h0 : 0 < p) (hlt : p + len < n.len) (hk : lens pre + p = keep + s.base.used)
    (hkeep : 0 < keep) (hc : delSplits s.conf n = false) :
    Gone E P s (keep + 1) len P ⟨midHeap s.heap n p len, midBase s.base len pre n post⟩ := by
  have hn : n ∈ s.base.nodes := by rw [hns]; simp
  have fr : Frame E P s.heap P (midHeap s.heap n p len) := by
    unfold midHeap
    split
    · exact frame_setMem _ (not_foreign_of_base (sd.owned.nodes.own n hn))
    · exact Frame.refl E P s.heap
  have ow : Owned E P (midHeap s.heap n p len) s.base.nodes := by
    unfold midHeap
    split
    · exact sd.owned.setMem _
    · exact sd.owned
  have sd₁ : Sound E P ⟨midHeap s.heap n p len, s.base⟩ := sd.of_frame fr rfl ow sd.valid
  obtain ⟨keep', hk'⟩ : ∃ keep', lens pre + (n.len - len) = keep' + s.base.used :=
    ⟨lens pre + (n.len - len) - s.base.used, by omega⟩
  have g := gone_cut sd₁ hns (p := n.len - len) (by omega) (Nat.sub_le _ _) hk' (by omega)
  have hsub : n.len - (n.len - len) = len := by omega
  rw [hsub] at g
  have hdata := data_of_moved hc
  have hq : s.base.used + (keep + 1 - 1) + len = lens pre + (p + len) := by omega
  have hcut : CutOk s.base.nodes (s.base.used + (keep + 1 - 1) + len) :=
    (cutOk_at hns hq (by omega) hlt).mpr fun r off hd => by
      rcases hdata with h | h
      · rw [h] at hd
        cases hd
      · rw [h] at hd
        cases hd
  refine ⟨g.sound, fr.trans g.frame, g.shrunk, g.ptrs, g.fits, fun h1 => by omega,
    iff_of_true ?_ hcut, fun ps _ => ?_⟩
  · have hdel : deleteRange (Vstr.sources s.base) (keep + 1) len =
        ((named pre ++ (n.data.stretch n.len).take p) ++
          ((n.data.stretch n.len).drop (p + len) ++ named post)).drop s.base.used := by
      unfold Vstr.sources
      rw [hns]
      exact deleteRange_inside (g := fun m => m.data.stretch m.len)
        (fun m => m.data.length_stretch m.len) (by omega) hk
    rw [hdel]
    unfold Vstr.sources
    simp only [midBase, named_append, named_cons]
    rw [stretch_moved hlt hdata]
    simp only [List.append_assoc]
  rw [hns] at ps
  have how := sd.owned
  rw [hns] at how
  obtain ⟨e1, e2, e3⟩ := flat_midHeap how ps hlt hdata
  have hdel : deleteRange (Vstr.content s) (keep + 1) len =
      ((flat s.heap pre ++ (nodeBytes s.heap n).take p) ++
        ((nodeBytes s.heap n).drop (p + len) ++ flat s.heap post)).drop s.base.used := by
    unfold Vstr.content
    rw [hns]
    exact deleteRange_inside (length_nodeBytes s.heap) (by omega) hk
  rw [hdel]
  unfold Vstr.content
  simp only [midBase]
  rw [flat_append, e1, flat_cons, e3, e2]
  simp only [List.append_assoc]

/-- Splitting the node behind the stretch and cutting it. -/
theorem gone_split {p keep : Nat} (sd : Sound E P s) (hns : s.base.nodes = pre ++ n :: post)
    (h0 : 0 < p) (hlen : 0 < len) (hlt : p + len < n.len)
    (hk : lens pre + p = keep + s.base.used) (hkeep : 0 < keep) :
    ∃ P' h', Frame E P s.heap P' h' ∧ ((baseSplitNode s pre.length (p + len) =
        (false, ⟨h', s.base⟩) ∧ Sound E P' ⟨h', s.base⟩ ∧ Quiet P s.heap h') ∨
      ∃ beg, baseSplitNode s pre.length (p + len) =
          (true, ⟨h', splitBase s.base pre n beg post (p + len)⟩) ∧
        Gone E P s (keep + 1) len P' ⟨h', { splitBase s.base pre n beg post (p + len) with
          len := s.base.len - len
          nodes := pre ++ { n with len := p } :: beg :: post }⟩) := by
  have hu : pre = [] → s.base.used < p + len := by
    rintro rfl
    rw [lens_nil] at hk
    omega
  obtain ⟨P', ⟨h', b'⟩, sd', fr, -, qt, -,
    ⟨e, hb⟩ | ⟨beg, e, hb, -, hbd, hbl, hps, hft, hfm⟩⟩ :=
    baseSplitNode_spec sd hns (p := p + len) (by omega) hlt hu
  · dsimp only at hb
    rw [hb] at e sd'
    exact ⟨P', h', fr, .inl ⟨e, sd', qt⟩⟩
  · dsimp only at hb
    rw [hb] at e sd' hps hft hfm
    refine ⟨P', h', fr, .inr ⟨beg, e, ?_⟩⟩
    have hns' : (splitBase s.base pre n beg post (p + len)).nodes =
        pre ++ { n with len := p + len } :: beg :: post := rfl
    have g := gone_cut sd' hns' h0 (Nat.le_add_right p len) hk hkeep
    have hsub : p + len - p = len := by omega
    dsimp only at g
    rw [hsub] at g
    have hq : s.base.used + (keep + 1 - 1) + len = lens pre + (p + len) := by omega
    have hcut := cutOk_at hns hq (by omega) hlt
    have hq' : s.base.used + (keep + 1 - 1) + len =
        lens (pre ++ [({ n with len := p + len } : Node)]) := by
      rw [lens_append, lens_cons, lens_nil]
      dsimp only
      omega
    have hbetween : CutOk (splitBase s.base pre n beg post (p + len)).nodes
        (s.base.used + (keep + 1 - 1) + len) :=
      cutOk_between (b := beg :: post) (by rw [hns']; simp) hq'
    refine ⟨g.sound, fr.trans g.frame, ⟨g.shrunk.len, rfl, rfl, rfl, rfl⟩,
      fun ps => g.ptrs (hps ps), fun hf => g.fits (hft hf), fun h1 => by omega, ?_,
      fun ps hc => ?_⟩
    · have hs : Vstr.sources { splitBase s.base pre n beg post (p + len) with
          len := s.base.len - len
          nodes := pre ++ { n with len := p } :: beg :: post } =
            deleteRange (Vstr.sources (splitBase s.base pre n beg post (p + len))) (keep + 1) len :=
        g.sources.mpr hbetween
      rw [hcut, ← stretch_drop_iff hlt, hs]
      have hleft : Vstr.sources (splitBase s.base pre n beg post (p + len)) =
          ((named pre ++ (n.data.stretch n.len).take (p + len)) ++
            ((n.data.cut (p + len)).stretch (n.len - (p + len)) ++ named post)).drop
              s.base.used := by
        unfold Vstr.sources
        rw [hns', named_append, named_cons, named_cons, hbd, hbl,
          n.data.stretch_take (show p + len ≤ n.len by omega), List.append_assoc]
        rfl
      have hall : Vstr.sources s.base =
          ((named pre ++ (n.data.stretch n.len).take (p + len)) ++
            ((n.data.stretch n.len).drop (p + len) ++ named post)).drop s.base.used := by
        unfold Vstr.sources
        rw [hns, named_append, named_cons, List.append_assoc,
          ← List.append_assoc (List.take _ _), List.take_append_drop]
      have hlen : (named pre ++ (n.data.stretch n.len).take (p + len)).length =
          s.base.used + (keep + 1 - 1) + len := by
        rw [List.length_append, length_named, List.length_take, Payload.length_stretch]
        omega
      rw [hleft, hall]
      exact deleteRange_drop_inj hlen
    refine (g.content (PtrsIn.frame (hps ps) fr) hbetween).trans ?_
    have fm := sd.owned.firm ps
    obtain ⟨-, e1, e2⟩ := hfm fm (hcut.mp hc)
    rw [hns, firm_append, firm_cons] at fm
    have hcontent : Vstr.content ⟨h', splitBase s.base pre n beg post (p + len)⟩ =
        Vstr.content s := by
      unfold Vstr.content
      simp only [splitBase]
      rw [hns, flat_append, flat_cons, flat_cons, qt.flat fm.1, qt.flat fm.2.2, e1, e2,
        ← List.append_assoc (List.take _ _), List.take_append_drop, flat_append, flat_cons]
    rw [hcontent]

/-! ## The delete functions -/

/-- What becomes of the C string cache when `len` bytes from `pos` on go. -/
inductive CstrDel (b : Base) (pos len : Nat) : (CstrData → CstrData) → Prop
  /-- The callback. -/
  | callback : CstrDel b pos len (cacheCstrCb pos len .del)
  /-- The inline code for the beginning. -/
  | front (h : pos = 1) : CstrDel b pos len (delFastBegCstr len)
  /-- The inline code for the end. -/
  | back (h : pos + len = b.len + 1) : CstrDel b pos len (delFastEndCstr pos)

/-- The state after a deletion. -/
structure Deleted (q : Prop) (E : Env) (P : Own) (s : St) (pos len : Nat) (P' : Own) (s' : St) :
    Prop where
  /-- The state is sound. -/
  sound : Sound E P' s'
  /-- Foreign blocks are left alone. -/
  frame : Frame E P s.heap P' s'.heap
  /-- The position cache is right. -/
  posOk : PosOk q s'.base
  /-- The length. -/
  length : s'.base.len + len = s.base.len
  /-- The configuration. -/
  conf : s'.base.conf = s.base.conf
  /-- The cache is there or not. -/
  cacheAvailable : s'.base.cacheAvailable = s.base.cacheAvailable
  /-- The C string cache was told. -/
  cstr : ∃ f, CstrDel s.base pos len f ∧
    s'.base.cstr = if s.base.cacheAvailable then s.base.cstr.map f else s.base.cstr
  /-- `PTR` nodes point where they did. -/
  ptrs : ∀ {Q : Blk → Prop}, PtrsIn Q s.base.nodes → PtrsIn Q s'.base.nodes
  /-- Offsets do not wrap. -/
  fits : Fits s.base.nodes → Fits s'.base.nodes
  /-- At the front no node is split. -/
  fewer : pos = 1 → s'.base.nodes.length ≤ s.base.nodes.length
  /-- The bytes left are named as they were, unless the offset of the node that is cut behind
  the stretch wraps. -/
  sources : sources s'.base = deleteRange (sources s.base) pos len ↔
    CutOk s.base.nodes (s.base.used + (pos - 1) + len)
  /-- The content without the stretch. -/
  content : PtrSafe E P s.base.nodes → CutOk s.base.nodes (s.base.used + (pos - 1) + len) →
    content s' = deleteRange (content s) pos len

/-- The callbacks are told of a deletion. -/
theorem Gone.deleted {s' : St} (g : Gone E P s pos len P' s')
    (pk : PosOk q (cacheDel s'.base pos len)) :
    Deleted q E P s pos len P' ⟨s'.heap, cacheDel s'.base pos len⟩ := by
  have hc := core_cacheDel s'.base pos len
  obtain ⟨h1, h2, h3, -, h5⟩ := g.shrunk
  refine ⟨g.sound.congr hc, g.frame, pk, ?_, ?_, ?_, ⟨_, .callback, ?_⟩, ?_, ?_, ?_, ?_, ?_⟩
  · rw [len_of_core hc]; exact h1
  · rw [conf_of_core hc]; exact h2
  · rw [cacheAvailable_of_core hc]; exact h3
  · unfold cacheDel
    rw [h3]
    split
    · simp only [cacheCbs]
      rw [h5]
    · exact h5
  · dsimp only
    rw [nodes_of_core hc]
    exact g.ptrs
  · dsimp only
    rw [nodes_of_core hc]
    exact g.fits
  · dsimp only
    rw [nodes_of_core hc]
    exact g.fewer
  · dsimp only
    rw [sources_congr hc]
    exact g.sources
  · intro ps hf
    rw [content_congr hc]
    exact g.content ps hf

/-- The state after a deletion that failed: the stretch is inside a node, which was to be
split. -/
structure DelKept (E : Env) (P : Own) (s : St) (pos len : Nat) (P' : Own) (s' : St) : Prop where
  /-- A failed edit. -/
  stayed : Stayed E P s P' s'
  /-- The base is left alone. -/
  base : s'.base = s.base
  /-- So are its bytes. -/
  content : PtrSafe E P s.base.nodes → Vstr.content s' = Vstr.content s
  /-- The stretch is inside a node. -/
  inside : ∃ pre n post, s.base.nodes = pre ++ n :: post ∧
    lens pre < s.base.used + (pos - 1) ∧ s.base.used + (pos - 1) + len < lens pre + n.len

/-- A delete function fails and leaves the base alone, or deletes. -/
def DelSpec (q : Prop) (E : Env) (P : Own) (s : St) (pos len : Nat) (r : Bool × St) : Prop :=
  ∃ P' s', (r = (false, s') ∧ DelKept E P s pos len P' s') ∨
    (r = (true, s') ∧ ((len = 0 ∧ P' = P ∧ s' = s) ∨ Deleted q E P s pos len P' s'))

/-- The position cache when the list only changes behind `keep`. -/
theorem PosOk.gone_after {keep : Nat} {b b₀ : Base} {n' : Node} (post' : List Node)
    (pk : PosOk q s.base) (hns : s.base.nodes = pre ++ n :: post)
    (hk : keep + s.base.used ≤ lens pre + n.len) (hb : b.noVec = b₀.noVec)
    (hb₀ : b₀.nodes = pre ++ n' :: post') (hid : n'.id = n.id) (hu : b₀.used = s.base.used)
    (hpd : b₀.posData = s.base.posData) (hav : b₀.cacheAvailable = s.base.cacheAvailable)
    (len : Nat) : PosOk q (cacheDel b (keep + 1) len) := by
  apply PosUpTo.cacheDel
  rw [used_of_core (core_of_noVec hb), hu]
  refine PosUpTo.of_noVec ?_ hb
  refine (pk.upTo (keep + s.base.used)).edit hpd hu hav ?_
  rw [hns, hb₀]
  exact keepsTo_edit pre post post' hid hk

/-- A stretch inside a node goes. -/
theorem delMiddle_spec {keep : Nat} {f : Found} (sd : Sound E P s) (pk : PosOk q s.base)
    (hat : At s.base keep f pre n post) (hkeep : 0 < keep) (h0 : 0 < len)
    (hle : len ≤ s.base.len) (hin : f.pos + len < n.len) :
    DelSpec q E P s (keep + 1) len
      (match delMiddle { s with base := { s.base with len := s.base.len - len } } f len with
      | (false, s) => (false, { s with base := { s.base with len := s.base.len + len } })
      | (true, s) => (true, { s with base := cacheDel s.base (keep + 1) len })) := by
  have hns := hat.nodes
  have hidx := hat.idx
  have hpos := hat.pos
  have hone := hat.one_le
  have hkk : keep + s.base.used ≤ lens pre + n.len := by omega
  by_cases hc : delSplits s.conf n = true
  · rw [delMiddle_split hns hidx hc]
    obtain ⟨P', h', fr, ⟨e, sd', qt⟩ | ⟨beg, e, g⟩⟩ := gone_split sd hns hone h0 hin hpos hkeep
    · rw [e]
      have hcont : PtrSafe E P s.base.nodes → Vstr.content ⟨h', s.base⟩ = Vstr.content s := by
        intro ps
        unfold Vstr.content
        rw [qt.flat (sd.owned.firm ps)]
      refine ⟨P', ⟨h', s.base⟩, .inl ⟨?_, ⟨sd', fr, pk.weaken, Grown.refl _,
        id, id, fun ps _ => hcont ps⟩, rfl, hcont, pre, n, post, hns, by omega, by omega⟩⟩
      have hl : s.base.len - len + len = s.base.len := by omega
      dsimp only
      rw [hl]
    · rw [e]
      have hnode' : (splitBase s.base pre n beg post (f.pos + len)).node pre.length =
          { n with len := f.pos + len } := node_of_eq rfl
      have hset : (splitBase s.base pre n beg post (f.pos + len)).nodes.set pre.length
          { n with len := f.pos + len - len } =
            pre ++ { n with len := f.pos } :: beg :: post := by
        simp [splitBase]
      dsimp only
      rw [hnode']
      dsimp only
      rw [hset]
      have hvec := noVec_cacheIovecDelNodeEnd { splitBase s.base pre n beg post (f.pos + len) with
        len := s.base.len - len
        nodes := pre ++ { n with len := f.pos } :: beg :: post } f.num len
      have hid : ({ n with len := f.pos } : Node).id = n.id := rfl
      exact ⟨P', _, .inr ⟨rfl, .inr ((g.congr hvec).deleted
        (pk.gone_after (beg :: post) hns hkk hvec rfl hid rfl rfl rfl len))⟩⟩
  · have hc' : delSplits s.conf n = false := by simpa using hc
    have hvec := noVec_cacheIovecDelNodeEnd (midBase s.base len pre n post) f.num len
    have g := (gone_move sd hns hone hin hpos hkeep hc').congr hvec
    have hid : ({ n with len := n.len - len } : Node).id = n.id := rfl
    rw [delMiddle_move hns hidx hc']
    exact ⟨P, _, .inr ⟨rfl, .inr (g.deleted
      (pk.gone_after post hns hkk hvec rfl hid rfl rfl rfl len))⟩⟩

/-- The node at the position keeps its first `f.pos` bytes. -/
theorem delTail_state {f : Found} (hns : s.base.nodes = pre ++ n :: post)
    (hidx : f.idx = pre.length) (hlen : f.pos ≤ n.len) (len : Nat) :
    (if f.pos ≠ n.len then
      { s with base := { cacheIovecDelNodeEnd { s.base with len := s.base.len - len } f.num
          (n.len - f.pos) with nodes := s.base.nodes.set f.idx { n with len := f.pos } } }
      else { s with base := { s.base with len := s.base.len - len } }) =
      (⟨s.heap, { tailVec { s.base with len := s.base.len - len } f.num (n.len - f.pos) with
        nodes := pre ++ { n with len := f.pos } :: post }⟩ : St) := by
  have hset : s.base.nodes.set f.idx { n with len := f.pos } =
      pre ++ { n with len := f.pos } :: post := by
    rw [hns, hidx, set_of_eq]
  unfold tailVec
  by_cases hne : f.pos = n.len
  · rw [if_neg (by simp [hne]), if_neg (by omega), hne, ← hns]
  · rw [if_pos hne, if_pos (by omega), hset]

/-- What is behind the node at the position goes. -/
theorem delTail_nodes {f : Found} {b : Base} (sd : Sound E P s)
    (hns : s.base.nodes = pre ++ n :: post) (hidx : f.idx = pre.length)
    (hvec : b.noVec = ({ s.base with len := s.base.len - len } : Base).noVec)
    (hge : n.len - f.pos ≤ len) (hle : len ≤ n.len - f.pos + lens post) :
    ∃ P' h' gone rest l, Cutting E P s len pre n post f.pos P' h' gone rest l ∧
      (if len - (n.len - f.pos) = 0 then
        (⟨s.heap, { b with nodes := pre ++ { n with len := f.pos } :: post }⟩ : St)
      else delNodes ⟨s.heap, { b with nodes := pre ++ { n with len := f.pos } :: post }⟩ f
        (len - (n.len - f.pos))) =
      ⟨cutFrontHeap h' rest l, endVec (cutFrontHeap h' rest l) b f.num gone.length pre
        { n with len := f.pos } rest l⟩ := by
  have how := sd.owned
  rw [hns] at how
  by_cases hz : len - (n.len - f.pos) = 0
  · rw [if_pos hz]
    refine ⟨P, s.heap, [], post, 0, Cutting.whole sd hns (by omega), ?_⟩
    have hend : (if post = [] then some n.id else b.endNode) = b.endNode := by
      split
      · rename_i hp
        have he : b.endNode = s.base.endNode := (congrArg Base.endNode hvec :)
        rw [he, sd.valid.endNode, hns, hp]
        simp
      · rfl
    rw [endVec_whole, hend]
    rcases cutFront_cases s.heap post (l := 0) (fun h => absurd rfl h) with
      ⟨-, -, e⟩ | ⟨-, -, -, hne, -⟩
    · rw [e]
    · exact absurd rfl hne
  · rw [if_neg hz]
    have how' : Owned E P s.heap (pre ++ { n with len := f.pos } :: post) :=
      how.of_same (by simp) (by simp [Node.ref])
    obtain ⟨P', h', gone, rest, l, hpost, hl, hsum, ow, lk, fr, e⟩ :=
      delNodes_cases (s := ⟨s.heap, { b with
        nodes := pre ++ { n with len := f.pos } :: post }⟩) (f := f) how' rfl hidx
        (by omega : 0 < len - (n.len - f.pos)) (by omega)
    refine ⟨P', h', gone, rest, l, ⟨hpost, hl, by clear hl; omega,
      ow.of_same (by simp) (by simp [Node.ref]), lk, fr⟩, ?_⟩
    rw [e, endVec_nodes]

/-- The base is what it is without vectors. -/
theorem delTail_noVec {b : Base}
    (hvec : b.noVec = ({ s.base with len := s.base.len - len } : Base).noVec) (h : Heap)
    (num gone : Nat) (pre : List Node) (n : Node) (p : Nat) (rest : List Node) (l : Nat) :
    (endVec h b num gone pre { n with len := p } rest l).noVec =
      (afterBase s.base len gone pre n p (cutFront rest l)).noVec := by
  have hnum : b.num = s.base.num := (congrArg Base.num hvec :)
  have hend : b.endNode = s.base.endNode := (congrArg Base.endNode hvec :)
  rw [noVec_endVec, hnum, hend]
  simp only [afterBase, cutFront_eq_nil]
  exact (congrArg (fun x : Base => ({ x with
    num := s.base.num - gone
    nodes := pre ++ { n with len := p } :: cutFront rest l
    endNode := if rest = [] then some n.id else s.base.endNode } : Base)) hvec :)

/-- `vstr_extern_inline_del` when the first `keep` bytes stay. -/
theorem delAfter_spec {keep : Nat} (sd : Sound E P s) (pk : PosOk q s.base) (hkeep : 0 < keep)
    (h0 : 0 < len) (hle : keep + len ≤ s.base.len) :
    DelSpec q E P s (keep + 1) len (delAfter s keep len len) := by
  have hv := sd.valid
  obtain ⟨pre, n, post, hat, -, -⟩ :=
    basePos_at hv sd.owned.nodes.nodup pk hkeep (by omega) false
  unfold delAfter
  dsimp only
  generalize (basePos s.base keep false).1 = f at hat ⊢
  have hns := hat.nodes
  have hidx := hat.idx
  have hpos := hat.pos
  have hlen := hat.le_len
  have hnode : s.base.node f.idx = n := by rw [hidx]; exact node_of_eq hns
  rw [hnode, sizeSub_of_le (show len ≤ s.base.len by omega)]
  split
  · exact delMiddle_spec sd pk hat hkeep h0 (by omega) (by omega)
  · have hall := hv.len
    rw [hns, lens_append, lens_cons] at hall
    have hvec := noVec_tailVec { s.base with len := s.base.len - len } f.num (n.len - f.pos)
    rw [delTail_state hns hidx hlen len]
    obtain ⟨P', h', gone, rest, l, c, e⟩ := delTail_nodes sd hns hidx hvec (by omega)
      (by omega)
    rw [e]
    have hfin := delTail_noVec hvec (cutFrontHeap h' rest l) f.num gone.length pre n f.pos rest l
    have hkk : keep + s.base.used ≤ lens pre + n.len := by omega
    have g := (gone_after c sd hns hat.one_le hlen hpos hkeep).congr hfin
    exact ⟨P', _, .inr ⟨rfl, .inr (g.deleted
      (pk.gone_after (cutFront rest l) hns hkk hfin rfl rfl rfl rfl rfl len))⟩⟩

/-- `vstr_extern_inline_del`. -/
theorem externDel_spec (sd : Sound E P s) (pk : PosOk q s.base) (h1 : 1 ≤ pos) (h0 : 0 < len)
    (hle : pos + len ≤ s.base.len + 1) : DelSpec q E P s pos len (externDel s pos len) := by
  have hmod : scPoslast pos len % 2 ^ 64 ≤ s.base.len := by
    have := Nat.mod_le (scPoslast pos len) (2 ^ 64)
    unfold scPoslast at this ⊢
    omega
  unfold externDel
  rw [if_neg (by omega)]
  split
  · rename_i hpos
    obtain rfl : pos = 1 := by omega
    split
    · rename_i hall
      obtain rfl : len = s.base.len := by omega
      obtain ⟨P', g⟩ := gone_all sd
      have g' := g.congr (noVec_cacheIovecReset
        ((delAllLoop s.base.conf [] s.base.nodes s.heap).confs s.base.conf) _)
      refine ⟨P', _, .inr ⟨rfl, .inr (g'.deleted ?_)⟩⟩
      exact pk.cacheDel_front _ g'.shrunk.posData g'.shrunk.cacheAvailable
    · obtain ⟨P', h', gone, m, ms, l, hns, hl, hlt, ow, lk, fr, e⟩ :=
        delBeg_cases sd h0 (by omega)
      rw [e]
      have hb : (begVec (cacheIovecDelBeg (begBase s.base len gone.length m l ms) gone.length)
          (begNode m l) (begLive s.base gone l)).noVec =
            (begBase s.base len gone.length m l ms).noVec := by
        unfold begVec
        split
        · rw [noVec_cacheIovecDelNodeBeg, noVec_cacheIovecDelBeg]
        · rw [noVec_cacheIovecDelBeg]
      have g := (gone_beg sd hns hl hlt ow lk fr).congr hb
      refine ⟨P', _, .inr ⟨rfl, .inr (g.deleted ?_)⟩⟩
      exact pk.cacheDel_front _ g.shrunk.posData g.shrunk.cacheAvailable
  · have hlen : (if (pos - 1 + len) % 2 ^ 64 ≥ s.base.len then s.base.len - (pos - 1) else len) =
        len := by
      have := Nat.mod_le (pos - 1 + len) (2 ^ 64)
      split <;> omega
    dsimp only
    rw [hlen]
    have hkeep : 0 < pos - 1 := by omega
    have hspec := delAfter_spec sd pk hkeep h0 (by omega)
    have hp : pos - 1 + 1 = pos := by omega
    rwa [hp] at hspec

/-- The caches that are there, after an inline deletion. -/
theorem core_delFastCaches (b : Base) (f : CstrData → CstrData) :
    (delFastCaches b f).core = b.core := by
  unfold delFastCaches
  split <;> rfl

/-- The inline code for the caches stands for the callbacks. -/
theorem Gone.fast {s' : St} {f : CstrData → CstrData} {b : Base} (g : Gone E P s pos len P' s')
    (hf : CstrDel s.base pos len f) (hb : b.noVec = (delFastCaches s'.base f).noVec) :
    Deleted q E P s pos len P' ⟨s'.heap, b⟩ := by
  have hc : b.core = s'.base.core := (core_of_noVec hb).trans (core_delFastCaches s'.base f)
  obtain ⟨h1, h2, h3, h4, h5⟩ := g.shrunk
  refine ⟨g.sound.congr hc, g.frame, ?_, ?_, ?_, ?_, ⟨f, hf, ?_⟩, ?_, ?_, ?_, ?_, ?_⟩
  · intro id hid hav
    exfalso
    have hav' : s'.base.cacheAvailable = true := by
      rw [← cacheAvailable_of_core hc]
      exact hav
    have hpd : b.posData.node = none := by
      rw [posData_of_noVec hb]
      unfold delFastCaches
      rw [if_pos hav']
    dsimp only at hid
    rw [hpd] at hid
    cases hid
  · dsimp only
    rw [len_of_core hc]; exact h1
  · dsimp only
    rw [conf_of_core hc]; exact h2
  · dsimp only
    rw [cacheAvailable_of_core hc]; exact h3
  · dsimp only
    rw [cstr_of_noVec hb]
    unfold delFastCaches
    rw [h3]
    split
    · dsimp only
      rw [h5]
    · exact h5
  · dsimp only
    rw [nodes_of_core hc]
    exact g.ptrs
  · dsimp only
    rw [nodes_of_core hc]
    exact g.fits
  · dsimp only
    rw [nodes_of_core hc]
    exact g.fewer
  · dsimp only
    rw [sources_congr hc]
    exact g.sources
  · intro ps hf'
    rw [content_congr hc]
    exact g.content ps hf'

/-- A node that is not a `BUF` node has no used bytes. -/
theorem begBase_of_not_buf {bufSz : Nat} {b : Base} {ns : List Node} {data : Payload}
    (v : Valid bufSz b) (hns : b.nodes = n :: ns) (h0 : 0 < len) (hb : n.data ≠ .buf)
    (hd : n.data = data) :
    begBase b len ([] : List Node).length n (len + b.used) ns =
      { b with
        len := b.len - len
        nodes := { n with data := shiftPayload data len, len := n.len - len } :: ns } := by
  have hu : b.used = 0 := by
    by_contra hne
    obtain ⟨m, ms, hm, hbuf, -⟩ := v.used hne
    rw [hns, List.cons.injEq] at hm
    rw [← hm.1] at hbuf
    exact hb hbuf
  rcases begNode_cases n (len + b.used) with ⟨-, -, h1⟩ | ⟨-, -, eu, e⟩
  · exact absurd (h1 (by omega)) hb
  · rw [begBase, eu, e, hu, hd, List.length_nil, Nat.sub_zero, Nat.add_zero]

/-- The inline deletion inside the first node. -/
theorem delFastBeg_spec (sd : Sound E P s) (h0 : 0 < len) {ns : List Node}
    (hns : s.base.nodes = n :: ns) (hlt : len + s.base.used < n.len) :
    Deleted q E P s 1 len P (delFastBeg s len) := by
  have how := sd.owned
  rw [hns] at how
  have hns' : s.base.nodes = [] ++ n :: ns := hns
  have hl : lens [] + (len + s.base.used) = len + s.base.used := by rw [lens_nil, Nat.zero_add]
  have g := gone_beg sd hns' hl hlt how (Like.refl s.heap) (Frame.refl E P s.heap)
  have hlen : len ≤ s.base.len := by
    have := sd.valid.len
    rw [hns, lens_cons] at this
    omega
  unfold delFastBeg
  rw [hns, sizeSub_of_le hlen]
  dsimp only
  apply g.fast (.front rfl)
  rw [noVec_cacheIovecDelNodeBeg]
  have hbase : begBase s.base len ([] : List Node).length n (len + s.base.used) ns =
      match n.data with
      | .buf => { s.base with len := s.base.len - len, used := (s.base.used + len) % 2 ^ 16 }
      | data => { s.base with
        len := s.base.len - len
        nodes := { n with data := shiftPayload data len, len := n.len - len } :: ns } := by
    cases hd : n.data with
    | buf =>
      have hsz := sd.valid.buf n (by rw [hns]; simp) (by rw [Node.type, hd])
      have hmax := sd.bufSz_le
      have hsmall : maxNodeBuf < 2 ^ 16 := by decide
      simp only [begBase, begNode, begUsed, hd, List.length_nil, Nat.sub_zero]
      rw [Nat.add_comm, ← hns, Nat.mod_eq_of_lt (by omega)]
    | non => exact begBase_of_not_buf sd.valid hns h0 (by simp [hd]) hd
    | ptr a => exact begBase_of_not_buf sd.valid hns h0 (by simp [hd]) hd
    | ref r off => exact begBase_of_not_buf sd.valid hns h0 (by simp [hd]) hd
  rewrite [hbase]
  cases n.data <;> rfl

/-- The inline deletion inside the last node. -/
theorem delFastEnd_spec (sd : Sound E P s) {keep : Nat} (hns : s.base.nodes = pre ++ [n])
    (h0 : 0 < keep) (hk : lens pre < keep + s.base.used) (hlen : keep + len = s.base.len) :
    Deleted q E P s (keep + 1) len P (delFastEnd s (keep + 1) len) := by
  have hl := sd.valid.len
  rw [hns, lens_append, lens_cons, lens_nil] at hl
  have hk' : lens pre + (n.len - len) = keep + s.base.used := by omega
  have g := gone_cut sd hns (by omega) (Nat.sub_le _ _) hk' h0
  have hsub : n.len - (n.len - len) = len := by omega
  rw [hsub] at g
  have hi := (sd.valid.last sd.owned.nodes.nodup hns).2
  have hnode : s.base.node pre.length = n := node_of_eq hns
  have hset : s.base.nodes.set pre.length { n with len := n.len - len } =
      pre ++ [{ n with len := n.len - len }] := by
    rw [hns]
    simp
  unfold delFastEnd
  dsimp only
  rw [hi, hnode, hset]
  exact g.fast (.back (by omega)) (noVec_cacheIovecDelNodeEnd _ _ _)

/-- The guard of the inline deletion inside the last node: some of it stays. -/
theorem delFastEnd_guard {bufSz : Nat} (hv : Valid bufSz s.base)
    (hnd : (s.base.nodes.map Node.id).Nodup) (hns : s.base.nodes = pre ++ [n]) (h1 : 1 ≤ pos)
    (hpos : pos ≤ s.base.len)
    (hg : pos > sizeSub s.base.len (n.len + (if (s.base.nodes.head?.map Node.id) =
      s.base.endNode then s.base.used else 0) - 1)) :
    0 < pos - 1 ∧ lens pre < pos - 1 + s.base.used := by
  have hl := hv.len
  have hn := hv.pos n (by rw [hns]; simp)
  have hmax := hv.max n (by rw [hns]; simp)
  have hend := (hv.last hnd hns).1
  have hsmall : maxNodeAll < 2 ^ 28 := by decide
  rw [hns, lens_append, lens_cons, lens_nil] at hl
  unfold sizeSub at hg
  cases pre with
  | nil =>
    rw [hns, hend] at hg
    simp only [List.nil_append, List.head?_cons, Option.map_some, if_true] at hg
    rw [lens_nil] at hl ⊢
    by_cases hu : s.base.used = 0
    · rw [hu] at hg hl
      split at hg <;> omega
    · obtain ⟨m, ms, hm, -, hlt⟩ := hv.used hu
      rw [hns, List.nil_append, List.cons.injEq] at hm
      rw [← hm.1] at hlt
      split at hg <;> omega
  | cons m ms =>
    have hne : (s.base.nodes.head?.map Node.id) ≠ s.base.endNode := by
      rw [hns, List.cons_append, List.map_cons, List.nodup_cons] at hnd
      rw [hns, hend]
      simp only [List.cons_append, List.head?_cons, Option.map_some, ne_eq, Option.some.injEq]
      intro e
      exact hnd.1 (by rw [e]; exact List.mem_map_of_mem (by simp))
    have hm := hv.pos m (by rw [hns]; simp)
    have hum : s.base.used < m.len := by
      by_cases hu : s.base.used = 0
      · omega
      · obtain ⟨m', ms', hm', -, hlt⟩ := hv.used hu
        rw [hns, List.cons_append, List.cons.injEq] at hm'
        rw [hm'.1]
        exact hlt
    rw [if_neg hne, Nat.add_zero] at hg
    rw [lens_cons] at hl ⊢
    split at hg <;> omega

/-- `vstr_del`. -/
theorem del_spec (sd : Sound E P s) (pk : PosOk q s.base) (h1 : 1 ≤ pos)
    (hle : pos + len ≤ s.base.len + 1) : DelSpec q E P s pos len (del s pos len) := by
  unfold del delSum
  rw [if_neg (by omega)]
  split
  · rename_i h0
    exact ⟨P, s, .inr ⟨rfl, .inl ⟨h0, rfl, rfl⟩⟩⟩
  · rename_i h0
    have hext := externDel_spec sd pk h1 (by omega) hle
    split
    · have hne : s.base.nodes ≠ [] := sd.valid.nodes_ne_nil (by omega)
      split
      · rename_i hg
        obtain ⟨n, ns, hns⟩ := List.exists_cons_of_ne_nil hne
        rw [node_zero_of_eq hns] at hg
        obtain rfl := hg.1
        exact ⟨P, _, .inr ⟨rfl, .inr (delFastBeg_spec sd (by omega) hns hg.2)⟩⟩
      · obtain ⟨pre, n, hns⟩ := exists_last hne
        have hi := (sd.valid.last sd.owned.nodes.nodup hns).2
        have hnode : s.base.node pre.length = n := node_of_eq hns
        dsimp only
        rw [hi, hnode]
        by_cases hg : pos > sizeSub s.base.len (n.len + (if (s.base.nodes.head?.map Node.id) =
            s.base.endNode then s.base.used else 0) - 1) ∧ len = scPosdiff pos s.base.len
        · rw [if_pos hg]
          obtain ⟨hg, hlen⟩ := hg
          unfold scPosdiff at hlen
          obtain ⟨hk, hk'⟩ := delFastEnd_guard sd.valid sd.owned.nodes.nodup hns h1
            (by omega) hg
          have hsum : pos - 1 + len = s.base.len := by omega
          have hsp := delFastEnd_spec (q := q) sd hns hk hk' hsum
          have hp : pos - 1 + 1 = pos := by omega
          rw [hp] at hsp
          exact ⟨P, _, .inr ⟨rfl, .inr hsp⟩⟩
        · rw [if_neg hg]
          exact hext
    · exact hext

end Vstr
