import Vstr.Export.Convert

/-!
# Exporting a reference

`vstr_export_ref` finds its bytes in the C string cache, in the node under the slice, or
copies them. The cache is asked the wrong way round: it answers for slices that are longer
than the cached one, and forgets that the cached one may start inside its memory.
-/

namespace Vstr

open Memory Splice

variable {E : Env} {P P' : Own} {s s' : St} {q : Prop} {b : Base} {pos len : Nat}

/-- The bytes of every node are inside their block. -/
def Bounded (h : Heap) (ns : List Node) : Prop :=
  ∀ m ∈ ns, ∀ p, exportNodePtr h m = some p → p.off + m.len ≤ h.size p.blk

/-- The memory at `p` holds these bytes. -/
def HoldsAt (h : Heap) (p : Addr) (xs : List (Option UInt8)) : Prop :=
  Matches xs (read h.mem p xs.length)

/-- Part of what memory holds. -/
theorem HoldsAt.part {h : Heap} {p : Addr} {xs : List (Option UInt8)} (ha : HoldsAt h p xs)
    (a n : Nat) : HoldsAt h (p.add a) ((xs.drop a).take n) := by
  have hm := (ha.drop a).take n
  rw [drop_read] at hm
  unfold HoldsAt
  rw [List.length_take, List.length_drop]
  by_cases hn : n ≤ xs.length - a
  · rw [take_read _ _ hn] at hm
    rwa [Nat.min_eq_left hn]
  · have hr : (read h.mem (p.add a) (xs.length - a)).take n =
      read h.mem (p.add a) (xs.length - a) :=
      List.take_of_length_le (by rw [length_read]; omega)
    rw [hr] at hm
    rwa [Nat.min_eq_right (by omega)]

/-- A cached slice: the memory of the reference holds it, a zero byte behind it. -/
structure CstrData.Ok (s : St) (data : CstrData) (r : Nat) : Prop where
  /-- Positions count from one. -/
  one_le : 1 ≤ data.pos
  /-- The slice is inside the string. -/
  le_len : data.pos + data.len ≤ s.base.len + 1
  /-- The bytes. -/
  bytes : HoldsAt s.heap ((s.heap.refs r).ptr.add data.off)
    (slice (content s) data.pos data.len ++ [some 0])
  /-- The bytes are inside the block. -/
  bound : (s.heap.refs r).ptr.off + data.off + data.len + 1 ≤
    s.heap.size (s.heap.refs r).ptr.blk

/-- The C string cache is coherent. -/
def CstrOk (s : St) : Prop :=
  ∀ data r, s.base.cacheAvailable = true → s.base.cstr = some data → data.ref = some r →
    data.len ≠ 0 → data.Ok s r

/-- A reference to a slice: `off` is where the slice starts in its memory. -/
structure RefAt (s : St) (pos len : Nat) (s' : St) (r off : Nat) : Prop where
  /-- The bytes. -/
  bytes : HoldsAt s'.heap ((s'.heap.refs r).ptr.add off) (slice (content s) pos len)
  /-- The memory goes that far. -/
  bound : (s'.heap.refs r).ptr.off + off + len ≤ s'.heap.size (s'.heap.refs r).ptr.blk

/-- The state after a reference was exported, one use of which the caller has. -/
structure Exported (q : Prop) (E : Env) (P : Own) (s : St) (r : Nat) (P' : Own) (s' : St) :
    Prop where
  /-- The state is sound. -/
  sound : Sound (E.hold (oneUse r)) P' s'
  /-- Foreign blocks are left alone. -/
  frame : Frame E P s.heap P' s'.heap
  /-- The position cache is right. -/
  posOk : PosOk q s'.base
  /-- Length, configuration and caches are as they were. -/
  grown : Grown s.base s'.base 0
  /-- `PTR` nodes point where they did. -/
  ptrs : ∀ {Q : Blk → Prop}, PtrsIn Q s.base.nodes → PtrsIn Q s'.base.nodes
  /-- Offsets do not wrap. -/
  fits : Fits s.base.nodes → Fits s'.base.nodes
  /-- A cut that wraps no offset still wraps none. -/
  cutOk : ∀ p, CutOk s.base.nodes (p + s.base.used) → CutOk s'.base.nodes (p + s'.base.used)
  /-- The content is the same. -/
  content : content s' = content s

/-- `vstr__base_ptr_pos` finds the position. -/
theorem basePtrPos_at {bufSz : Nat} (v : Valid bufSz b) (h1 : 1 ≤ pos) (h2 : pos ≤ b.len) :
    ∃ pre n post, At b pos (basePtrPos b pos) pre n post ∧
      (basePtrPos b pos).num = pre.length + 1 := by
  have hlen := v.len
  have hne : b.nodes ≠ [] := v.nodes_ne_nil (by omega)
  obtain ⟨m, ms, hm⟩ := List.exists_cons_of_ne_nil hne
  have hpos : lens [] + (pos + b.used) = pos + b.used := by rw [lens_nil, Nat.zero_add]
  obtain ⟨pre, n, post, hat, hnum⟩ := scanFrom_spec (f := ⟨0, pos + b.used, 1⟩)
    (show b.nodes = [] ++ m :: ms from hm) rfl hpos (by dsimp only; omega) (by omega)
  exact ⟨pre, n, post, hat, hnum rfl⟩

/-- A slice inside one node that has an address. -/
theorem slice_node {f : Found} {pre post : List Node} {n : Node} (hat : At s.base pos f pre n post)
    (h1 : 1 ≤ pos) (hle : f.pos - 1 + len ≤ n.len) {p : Addr}
    (hp : exportNodePtr s.heap n = some p) :
    slice (content s) pos len = (read s.heap.mem (p.add (f.pos - 1)) len).map some := by
  have hpos := hat.pos
  have hone := hat.one_le
  rw [slice_content hat.nodes (show lens pre + (f.pos - 1) + 1 = pos + s.base.used by omega) h1,
    List.drop_append_of_le_length (by rw [length_nodeBytes]; omega),
    List.take_append_of_le_length (by rw [List.length_drop, length_nodeBytes]; omega)]
  unfold nodeBytes
  rw [hp]
  dsimp only
  rw [← List.map_drop, ← List.map_take, drop_read, take_read _ _ (by omega)]

/-- Memory holds what is read from it. -/
theorem holdsAt_read (h : Heap) (p : Addr) (n : Nat) : HoldsAt h p ((read h.mem p n).map some) := by
  unfold HoldsAt
  rw [List.length_map, length_read]
  exact matches_some _

/-- One more use of a reference that something holds. -/
theorem exported_refAdd (sd : Sound E P s) (pk : PosOk q s.base) {r : Nat}
    (hr : 0 < (s.heap.refs r).ref) : Exported q E P s r P ⟨refAdd s.heap r, s.base⟩ where
  sound := ⟨sd.owned.refAdd hr, sd.valid, sd.bufSz_pos, sd.bufSz_le⟩
  frame := (like_refAdd _ _).frame_same
  posOk := pk
  grown := Grown.refl _
  ptrs ps := ps
  fits hf := hf
  cutOk _ hc := hc
  content := by
    unfold Vstr.content
    dsimp only
    rw [(like_refAdd s.heap r).flat]

/-- First the string is kept, then the reference is exported. -/
theorem Kept.exported {P₁ : Own} {s₁ : St} {r : Nat} (k : Kept q E P s P₁ s₁)
    (e : Exported q E P₁ s₁ r P' s') : Exported q E P s r P' s' where
  sound := e.sound
  frame := k.frame.trans e.frame
  posOk := e.posOk
  grown := k.grown.trans e.grown
  ptrs ps := e.ptrs (k.ptrs ps)
  fits hf := e.fits (k.fits hf)
  cutOk p hc := e.cutOk p (k.cutOk p hc)
  content := e.content.trans k.content

theorem refAdd_ptr (h : Heap) (r r' : Nat) : ((refAdd h r).refs r').ptr = (h.refs r').ptr :=
  (like_refAdd h r).refPtr r'

/-- A reference that is new: only a node that was a `BUF` node before has it. -/
structure NewRef (s : St) (len : Nat) (s' : St) (r off : Nat) : Prop where
  /-- It was not handed out before. -/
  fresh : s.heap.next ≤ r
  /-- The offset is zero, or inside a buffer. -/
  off_le : off ≤ maxNodeBuf
  /-- The node that has it. -/
  node : ∀ m ∈ s'.base.nodes, ∀ off', m.data = .ref r off' → off' + m.len ≤ maxNodeBuf ∧
    len ≤ maxNodeBuf

/-- Nodes only hold references that were handed out. -/
theorem Owned.ref_lt {h : Heap} {ns : List Node} (ow : Owned E P h ns) {m : Node} (hm : m ∈ ns)
    {r off : Nat} (hd : m.data = .ref r off) : r < h.next :=
  ow.heap.ref_lt (ow.ref_pos hm (by simp only [Node.ref, hd]))

/-- A new reference that no node has. -/
theorem Sound.newRef {r off : Nat} {s' : St} (sd : Sound E P s) (hr : s.heap.next ≤ r)
    (ho : off ≤ maxNodeBuf) (hn : s'.base.nodes = s.base.nodes) : NewRef s len s' r off := by
  refine ⟨hr, ho, fun m hm off' hd => ?_⟩
  rw [hn] at hm
  have := sd.owned.ref_lt hm hd
  omega

/-- A `BUF` node is exported by turning it into a `REF` node. -/
theorem exportRef_buf (sd : Sound E P s) (pk : PosOk q s.base) {f : Found} {pre post : List Node}
    {n : Node} (hat : At s.base pos f pre n post) (h1 : 1 ≤ pos) (hle : f.pos - 1 + len ≤ n.len)
    (hbuf : n.data = .buf) (bd : Bounded s.heap s.base.nodes) :
    ∃ P' s', (chgNodeBufRef s f.idx f.num = (false, s') ∧ Kept q E P s P' s') ∨
      ∃ s₁ r roff, chgNodeBufRef s f.idx f.num = (true, s₁) ∧
        (s₁.base.node f.idx).data = .ref r roff ∧ s' = ⟨refAdd s₁.heap r, s₁.base⟩ ∧
        Exported q E P s r P' s' ∧ RefAt s pos len s' r (f.pos - 1) ∧
        NewRef s len s' r (f.pos - 1) := by
  obtain ⟨P₁, s₁, k, hm, ⟨e, -⟩ | ⟨id, r, e, hb, hp, hfresh⟩⟩ :=
    chgNodeBufRef_spec sd pk hat.nodes hbuf f.num
  · exact ⟨P₁, s₁, .inl ⟨hat.idx ▸ e, k⟩⟩
  · have hn : n ∈ s.base.nodes := by rw [hat.nodes]; simp
    have hdata : (s₁.base.node f.idx).data = .ref r (if pre = [] then s.base.used else 0) := by
      rw [hat.idx, node_of_eq (show s₁.base.nodes = pre ++
        convNode n id r _ :: post by rw [hb]; rfl)]
      rfl
    have hmem : convNode n id r (if pre = [] then s.base.used else 0) ∈ s₁.base.nodes := by
      rw [hb]
      exact List.mem_append_right _ List.mem_cons_self
    have hlive : 0 < (s₁.heap.refs r).ref := k.sound.owned.ref_pos hmem rfl
    have hx : exportNodePtr s.heap n = some ⟨.node n.id, 0⟩ := by
      unfold exportNodePtr
      rw [hbuf]
    have hsz : n.len ≤ s.heap.size (.node n.id) := by simpa using bd n hn _ hx
    have hnb : n.len ≤ maxNodeBuf :=
      Nat.le_trans (sd.valid.buf n hn (by simp only [Node.type, hbuf])) sd.bufSz_le
    refine ⟨P₁, ⟨refAdd s₁.heap r, s₁.base⟩, .inr ⟨s₁, r, _, hat.idx ▸ e, hdata, rfl,
      k.exported (exported_refAdd k.sound k.posOk hlive), ⟨?_, ?_⟩, ⟨hfresh, ?_, ?_⟩⟩⟩
    · rw [slice_node hat h1 hle hx]
      dsimp only
      rw [refAdd_ptr, hp, ← hm]
      exact holdsAt_read (refAdd s₁.heap r) _ len
    · dsimp only
      rw [refAdd_ptr, hp]
      have hs := k.frame.size (.node n.id) (by rw [sd.owned.nodes.own n hn]; simp)
      change 0 + (f.pos - 1) + len ≤ s₁.heap.size (.node n.id)
      rw [hs]
      omega
    · omega
    · intro m hm off' hd
      change m ∈ s₁.base.nodes at hm
      rw [hb] at hm
      rcases List.mem_append.mp hm with hm | hm
      · exact absurd (sd.owned.ref_lt (by rw [hat.nodes]; exact List.mem_append_left _ hm) hd)
          (by omega)
      · rcases List.mem_cons.mp hm with rfl | hm
        · cases hd
          simp only [convNode]
          have hu : (if pre = [] then s.base.used else 0) ≤ n.len := by
            split
            · rename_i e'
              have hns := hat.nodes
              rw [e'] at hns
              exact Nat.le_of_lt (sd.valid.used_le hns)
            · exact Nat.zero_le _
          omega
        · exact absurd (sd.owned.ref_lt
            (by rw [hat.nodes]; exact List.mem_append_right _ (List.mem_cons_of_mem _ hm)) hd)
            (by omega)

theorem grown_basePos (b : Base) (pos : Nat) (cache : Bool) :
    Grown b (basePos b pos cache).2 0 := by
  unfold basePos
  dsimp only
  split
  · exact Grown.refl b
  · split
    · exact Grown.refl b
    · dsimp only
      split
      · unfold cachePos
        split
        · exact ⟨rfl, rfl, rfl, rfl, rfl, rfl⟩
        · exact Grown.refl b
      · exact Grown.refl b

theorem Looked.grown {b' : Base} (l : Looked b pos b') : Grown b b' 0 := by
  rcases l with rfl | rfl
  · exact Grown.refl _
  · exact grown_basePos b pos true

/-- The heap with memory for a new reference has the same bytes. -/
theorem Owned.flat_lendNext {h : Heap} {ns : List Node} (ow : Owned E P h ns) (n : Nat) :
    flat (h.lendNext n) ns = flat h ns :=
  ow.flat_refPtr (fun _ hm => hm) rfl (ow.heap.frame_lendNext (E := E) n).refPtr

theorem Sound.lendNext (sd : Sound E P s) (n : Nat) :
    Sound (E.hold (oneUse s.heap.next)) (P.lendNext s.heap.next) ⟨s.heap.lendNext n, s.base⟩ :=
  ⟨sd.owned.lendNext n, sd.valid, sd.bufSz_pos, sd.bufSz_le⟩

/-- No node has its bytes in memory that is not handed out yet. -/
theorem Sound.apart_lendNext (sd : Sound E P s) (ps : PtrSafe E P s.base.nodes) (n : Nat) :
    Apart (s.heap.lendNext n) s.base.nodes (.ext s.heap.next) := by
  intro m hm p hp
  rw [sd.owned.exportNodePtr hm (sd.owned.heap.frame_lendNext (E := E) n).refPtr] at hp
  exact (sd.owned.firm ps).apart (sd.owned.heap.fresh _ (Nat.le_refl _)).2 m hm p hp

theorem content_lendNext (sd : Sound E P s) (n : Nat) :
    content ⟨s.heap.lendNext n, s.base⟩ = content s := by
  unfold content
  dsimp only
  rw [sd.owned.flat_lendNext]

/-- A slice is copied to memory that comes with a new reference. -/
theorem exported_fresh (sd : Sound E P s) (ps : PtrSafe E P s.base.nodes) {b' : Base}
    (l : Looked s.base pos b') (pk : PosOk q b') (n : Nat) (bs : List UInt8) :
    Exported q E P s s.heap.next (P.lendNext s.heap.next)
      ⟨(s.heap.lendNext n).setMem (write s.heap.mem ⟨.ext s.heap.next, 0⟩ bs), b'⟩ := by
  have hns := nodes_of_core l.core
  have hn : P (.ext s.heap.next) = .none := (sd.owned.heap.fresh _ (Nat.le_refl _)).2
  have hconf : b'.conf = s.base.conf := conf_of_core l.core
  have hext := (sd.owned.unheld (Nat.le_refl s.heap.next)).1
  have hfirm := sd.owned.firm ps
  refine ⟨⟨?_, ?_, ?_, ?_⟩, ?_, pk, l.grown,
    fun ps => ?_, fun hf => ?_, fun p hc => ?_, ?_⟩
  · rw [hns]
    exact (sd.owned.lendNext n).setMem _
  · rw [St.conf, hconf]
    exact sd.valid.congr l.core
  · rw [St.conf, hconf]
    exact sd.bufSz_pos
  · rw [St.conf, hconf]
    exact sd.bufSz_le
  · refine (sd.owned.heap.frame_lendNext n).trans ?_
    apply frame_setMem
    rintro (hx | ⟨j, -, hx⟩ | ⟨r, hx, hr⟩) <;> dsimp only at hx <;> rw [P.lendNext_self] at hx <;>
      cases hx
    omega
  · rw [hns]
    exact ps
  · rw [hns]
    exact hf
  · rw [hns, used_of_core l.core]
    exact hc
  · unfold Vstr.content
    dsimp only
    rw [hns, used_of_core l.core]
    congr 1
    apply flat_congr
    intro m hm
    have hp : exportNodePtr ((s.heap.lendNext n).setMem
      (write s.heap.mem ⟨.ext s.heap.next, 0⟩ bs)) m
        = exportNodePtr s.heap m :=
      sd.owned.exportNodePtr hm (sd.owned.heap.frame_lendNext (E := E) n).refPtr
    apply nodeBytes_congr hp
    intro p hp
    exact read_write_of_ne _ _ _ (hfirm.apart hn m hm p hp)

/-- The slice is copied. -/
theorem exportRef_copy (sd : Sound E P s) (pk : PosOk q s.base) (ps : PtrSafe E P s.base.nodes)
    (h1 : 1 ≤ pos) (h2 : pos + len ≤ s.base.len + 1) (hlen : 0 < len) :
    ∃ s', (exportBuf ⟨s.heap.lendNext len, s.base⟩ pos len ⟨.ext s.heap.next, 0⟩ len).2 = s' ∧
      Exported q E P s s.heap.next (P.lendNext s.heap.next) s' ∧
      RefAt s pos len s' s.heap.next 0 ∧ s'.base.nodes = s.base.nodes := by
  obtain ⟨bs, e, hm⟩ := exportBuf_spec (s := ⟨s.heap.lendNext len, s.base⟩)
    (sd.lendNext len) pk h1 h2 ⟨.ext s.heap.next, 0⟩ hlen hlen (sd.apart_lendNext ps len)
  rw [Nat.min_self, content_lendNext sd] at hm
  have hl : bs.length = len := by
    rw [hm.length, slice, List.length_take, List.length_drop, length_content sd.valid]
    omega
  have hr : (s.heap.lendNext len).refs s.heap.next = ⟨⟨.ext s.heap.next, 0⟩, 1, .free⟩ :=
    s.heap.malloc.2.newRef_self _
  refine ⟨_, rfl, ?_, ⟨?_, ?_⟩, ?_⟩
  · rw [e]
    exact exported_fresh sd ps (.inr rfl)
      (posOk_basePos sd.valid sd.owned.nodes.nodup pk h1 (by omega) true) len bs
  · rw [e]
    unfold HoldsAt
    rw [← hm.length]
    change Matches _ (read (write s.heap.mem ⟨.ext s.heap.next, 0⟩ bs)
      (((s.heap.lendNext len).refs s.heap.next).ptr.add 0) bs.length)
    rw [hr, Ptr.add_zero, read_write_self]
    exact hm
  · rw [e]
    change ((s.heap.lendNext len).refs s.heap.next).ptr.off + 0 + len ≤
      (s.heap.lendNext len).size ((s.heap.lendNext len).refs s.heap.next).ptr.blk
    rw [hr]
    change 0 + 0 + len ≤ Function.update s.heap.size (.ext s.heap.next) len (.ext s.heap.next)
    rw [Function.update_self]
    omega
  · rw [e]
    exact nodes_of_core (core_basePos s.base pos true)

/-- A `PTR` node is exported through a new reference to the memory of the caller. -/
theorem exported_ptr (sd : Sound E P s) (pk : PosOk q s.base) {p : Addr} (hp : P p.blk = .user) :
    Exported q E P s s.heap.next P ⟨s.heap.malloc.2.newRef ⟨p, 1, .free⟩, s.base⟩ where
  sound := ⟨⟨sd.owned.heap.malloc.newRef fun _ => .inl hp, sd.owned.nodes,
      sd.owned.refs_newRef ⟨p, 1, .free⟩⟩, sd.valid, sd.bufSz_pos, sd.bufSz_le⟩
  frame := (like_malloc s.heap).frame_same.trans (frame_newRef _ _)
  posOk := pk
  grown := Grown.refl _
  ptrs ps := ps
  fits hf := hf
  cutOk _ hc := hc
  content := by
    unfold Vstr.content
    dsimp only
    have hr := (frame_newRef (E := E) (P := P) s.heap.malloc.2 ⟨p, 1, .free⟩).refPtr
    have e : flat (s.heap.malloc.2.newRef ⟨p, 1, .free⟩) s.base.nodes = flat s.heap s.base.nodes :=
      sd.owned.flat_refPtr (fun _ hm => hm) rfl hr
    rw [e]

/-- The `REF` node that has the whole slice. -/
def exportRefInNode (b : Base) (pos len : Nat) : Option (Nat × Nat) :=
  let f := basePtrPos b pos
  let scan := b.node f.idx
  if scan.len - (f.pos - 1) ≥ len then
    match scan.data with
    | .ref r roff => some (r, f.pos - 1 + roff)
    | _ => none
  else none

/-- The reference to the slice that is there already: in the cache, or in a node. -/
def exportRefThere (b : Base) (pos len : Nat) : Option (Nat × Nat) :=
  (exportRefCached b pos len).or (exportRefInNode b pos len)

/-- A reference to new memory with a copy of the slice. -/
theorem Sound.exportRefCopied (sd : Sound E P s) (pk : PosOk q s.base)
    (hsafe : PtrSafe E P s.base.nodes) (h1 : 1 ≤ pos) (h2 : pos + len ≤ s.base.len + 1)
    (hlen : 0 < len) :
    ∃ P' s', ((match refMakeMalloc s.heap len with
        | (none, h) => ((none : Option (Nat × Nat)), { s with heap := h.mallocBad s.base.conf })
        | (some r, h) =>
          (some (r, 0), (exportBuf { s with heap := h } pos len (h.refs r).ptr len).2)) =
            (none, s') ∧ Kept q E P s P' s') ∨
      ∃ r off, (match refMakeMalloc s.heap len with
        | (none, h) => ((none : Option (Nat × Nat)), { s with heap := h.mallocBad s.base.conf })
        | (some r, h) =>
          (some (r, 0), (exportBuf { s with heap := h } pos len (h.refs r).ptr len).2)) =
            (some (r, off), s') ∧ Exported q E P s r P' s' ∧ RefAt s pos len s' r off ∧
            ((exportRefInNode s.base pos len = some (r, off) ∧ s' = ⟨refAdd s.heap r, s.base⟩) ∨
              NewRef s len s' r off) := by
  have mk := (makes_malloc (E := E) sd.owned.heap).trans
    (makes_mallocBad (makes_malloc (E := E) sd.owned.heap).ok s.base.conf)
  rcases refMakeMalloc_cases s.heap len with e | e
  · rw [e]
    exact ⟨P, _, .inl ⟨rfl, Kept.of_heap sd pk (sd.owned.makes mk) mk.frame mk.mem⟩⟩
  · obtain ⟨s', e', ex, ra, hns⟩ := exportRef_copy sd pk hsafe h1 h2 hlen
    have hr : (s.heap.lendNext len).refs s.heap.next = ⟨⟨.ext s.heap.next, 0⟩, 1, .free⟩ :=
      s.heap.malloc.2.newRef_self _
    rw [e]
    dsimp only
    rw [hr, e']
    exact ⟨_, s', .inr ⟨_, _, rfl, ex, ra,
      .inr (sd.newRef (Nat.le_refl _) (Nat.zero_le _) hns)⟩⟩

/-- `vstr_export_ref` when it looks at the nodes. -/
theorem exportRefNodes_spec (sd : Sound E P s) (pk : PosOk q s.base)
    (ps : PtrsIn (fun x => P x = .user) s.base.nodes) (bd : Bounded s.heap s.base.nodes)
    (h1 : 1 ≤ pos) (h2 : pos + len ≤ s.base.len + 1) (hlen : 0 < len) :
    ∃ P' s', (exportRefNodes s pos len = (none, s') ∧ Kept q E P s P' s') ∨
      ∃ r off, exportRefNodes s pos len = (some (r, off), s') ∧ Exported q E P s r P' s' ∧
        RefAt s pos len s' r off ∧
        ((exportRefInNode s.base pos len = some (r, off) ∧ s' = ⟨refAdd s.heap r, s.base⟩) ∨
          NewRef s len s' r off) := by
  obtain ⟨pre, n, post, hat, -⟩ := basePtrPos_at sd.valid h1 (show pos ≤ s.base.len by omega)
  have hn : n ∈ s.base.nodes := by rw [hat.nodes]; simp
  have hnode : s.base.node (basePtrPos s.base pos).idx = n := by
    rw [hat.idx]
    exact node_of_eq hat.nodes
  have hsafe : PtrSafe E P s.base.nodes := fun m hm a ha => .inl (ps m hm a ha)
  have bad : ∀ {h₁}, Makes E P s.heap P h₁ →
      Kept q E P s P ⟨h₁.mallocBad s.base.conf, s.base⟩ := by
    intro h₁ mk
    have mk' := mk.trans (makes_mallocBad mk.ok s.base.conf)
    exact Kept.of_heap sd pk (sd.owned.makes mk') mk'.frame mk'.mem
  have mk := makes_malloc (E := E) sd.owned.heap
  have copied := sd.exportRefCopied pk hsafe h1 h2 hlen
  unfold exportRefNodes
  dsimp only
  rw [hnode]
  generalize hf : basePtrPos s.base pos = f at *
  have hone := hat.one_le
  have hle := hat.le_len
  by_cases hin : n.len - (f.pos - 1) ≥ len
  · rw [if_pos hin]
    have hin' : f.pos - 1 + len ≤ n.len := by omega
    cases hd : n.data with
    | buf =>
      dsimp only
      obtain ⟨P', s', ⟨e, k⟩ | ⟨s₁, r, roff, e, hdata, rfl, ex, ra, nr⟩⟩ :=
        exportRef_buf sd pk hat h1 hin' hd bd
      · rw [e]
        exact ⟨P', s', .inl ⟨rfl, k⟩⟩
      · rw [e]
        dsimp only
        rw [hdata]
        exact ⟨P', _, .inr ⟨r, _, rfl, ex, ra, .inr nr⟩⟩
    | non => exact copied
    | ptr a =>
      have hx : exportNodePtr s.heap n = some a := by
        unfold exportNodePtr
        rw [hd]
      have hb := bd n hn a hx
      dsimp only
      rcases refGrpAdd_cases s.heap (a.add (f.pos - 1)) .free with e | e
      · rw [e]
        exact ⟨P, _, .inl ⟨rfl, bad mk⟩⟩
      · rw [e]
        have hr : (s.heap.malloc.2.newRef ⟨a.add (f.pos - 1), 1, .free⟩).refs s.heap.next =
          ⟨a.add (f.pos - 1), 1, .free⟩ := s.heap.malloc.2.newRef_self _
        refine ⟨P, _, .inr ⟨_, _, rfl, exported_ptr sd pk (ps n hn a hd), ⟨?_, ?_⟩,
          .inr (sd.newRef (Nat.le_refl _) (Nat.zero_le _) rfl)⟩⟩
        · rw [slice_node hat h1 hin' hx]
          dsimp only
          rw [hr]
          exact holdsAt_read (s.heap.malloc.2.newRef ⟨a.add (f.pos - 1), 1, .free⟩) _ len
        · dsimp only
          rw [hr]
          change a.off + (f.pos - 1) + 0 + len ≤ s.heap.size a.blk
          omega
    | ref r roff =>
      have hx : exportNodePtr s.heap n = some ((s.heap.refs r).ptr.add roff) := by
        unfold exportNodePtr
        rw [hd]
      have hb := bd n hn _ hx
      have href : n.ref = some r := by simp only [Node.ref, hd]
      refine ⟨P, _, .inr ⟨r, _, rfl,
        exported_refAdd sd pk (sd.owned.ref_pos hn href), ⟨?_, ?_⟩, .inl ⟨?_, rfl⟩⟩⟩
      · rw [slice_node hat h1 hin' hx]
        dsimp only
        rw [refAdd_ptr, Nat.add_comm (f.pos - 1), ← Ptr.add_add]
        exact holdsAt_read (refAdd s.heap r) _ len
      · dsimp only
        rw [refAdd_ptr]
        rw [Ptr.add_off, Ptr.add_blk] at hb
        change (s.heap.refs r).ptr.off + (f.pos - 1 + roff) + len ≤
          s.heap.size (s.heap.refs r).ptr.blk
        omega
      · unfold exportRefInNode
        dsimp only
        rw [hf, hnode, if_pos hin, hd]
  · rw [if_neg hin]
    exact copied

/-- If the cache answers, it has the slice, at the beginning of its memory. -/
def CacheAgrees (b : Base) (pos len : Nat) : Prop :=
  ∀ data, b.cstr = some data → (exportRefCached b pos len).isSome = true →
    data.off = 0 ∧ pos - data.pos + len ≤ data.len

/-- When the cache answers. -/
theorem exportRefCached_eq_some {r off : Nat} (h : exportRefCached b pos len = some (r, off)) :
    ∃ data, b.cacheAvailable = true ∧ b.cstr = some data ∧ data.ref = some r ∧ data.len ≠ 0 ∧
      data.pos ≤ pos ∧ off = pos - data.pos := by
  unfold exportRefCached at h
  split at h
  · cases h
  · rename_i hav
    cases hc : b.cstr with
    | none =>
      rw [hc] at h
      cases h
    | some data =>
      rw [hc] at h
      cases hr : data.ref with
      | none =>
        simp only [Option.bind_eq_bind, Option.bind_some, hr, Option.bind_none] at h
        cases h
      | some r' =>
        simp only [Option.bind_eq_bind, Option.bind_some, hr] at h
        split at h
        · rename_i hif
          cases h
          exact ⟨data, by simpa using hav, rfl, hr, hif.1, hif.2.1, rfl⟩
        · cases h

/-- A slice of a slice. -/
theorem slice_slice {α : Type} (l : List α) {a m p n : Nat} (ha : 1 ≤ a) (hp : a ≤ p)
    (hn : p - a + n ≤ m) : slice l p n = ((slice l a m).drop (p - a)).take n := by
  rw [slice, slice, List.drop_take, List.drop_drop, List.take_take, Nat.min_eq_left (by omega)]
  congr 2
  omega

/-- The cached slice has every slice inside it. -/
theorem CstrData.Ok.refAt {data : CstrData} {r : Nat} (ok : data.Ok s r) (h0 : data.off = 0)
    (h1 : data.pos ≤ pos) (h2 : pos - data.pos + len ≤ data.len) :
    RefAt s pos len ⟨refAdd s.heap r, s.base⟩ r (pos - data.pos) where
  bytes := by
    have hs := slice_slice (content s) ok.one_le h1 h2
    have hb := ok.bytes.part 0 (slice (content s) data.pos data.len).length
    rw [List.drop_zero, List.take_left' rfl, Ptr.add_zero, h0, Ptr.add_zero] at hb
    dsimp only
    rw [refAdd_ptr, hs]
    exact hb.part (pos - data.pos) len
  bound := by
    have := ok.bound
    dsimp only
    rw [refAdd_ptr]
    change (s.heap.refs r).ptr.off + (pos - data.pos) + len ≤ s.heap.size _
    omega

/-- If the cache answers, the memory it names has the slice where the answer says, and goes that
far. -/
def CacheHolds (s : St) (pos len : Nat) : Prop :=
  ∀ r off, exportRefCached s.base pos len = some (r, off) →
    HoldsAt s.heap ((s.heap.refs r).ptr.add off) (slice (content s) pos len) ∧
      (s.heap.refs r).ptr.off + off + len ≤ s.heap.size (s.heap.refs r).ptr.blk

/-- One more use of a reference does not move what it names. -/
theorem refAt_refAdd {r off : Nat} : RefAt s pos len ⟨refAdd s.heap r, s.base⟩ r off ↔
    HoldsAt s.heap ((s.heap.refs r).ptr.add off) (slice (content s) pos len) ∧
      (s.heap.refs r).ptr.off + off + len ≤ s.heap.size (s.heap.refs r).ptr.blk := by
  constructor
  · intro ra
    have hb := ra.bytes
    have ho := ra.bound
    dsimp only at hb ho
    rw [refAdd_ptr] at hb ho
    exact ⟨hb, ho⟩
  · rintro ⟨hb, ho⟩
    refine ⟨?_, ?_⟩
    · dsimp only
      rw [refAdd_ptr]
      exact hb
    · dsimp only
      rw [refAdd_ptr]
      exact ho

/-- A cached slice that has the slice at the beginning of its memory holds it. -/
theorem CacheAgrees.holds (agrees : CacheAgrees s.base pos len) (ck : CstrOk s) :
    CacheHolds s pos len := by
  intro r off hc
  obtain ⟨data, hav, hcs, hr, hne, hle, rfl⟩ := exportRefCached_eq_some hc
  obtain ⟨h0, hin⟩ := agrees data hcs (by rw [hc]; rfl)
  exact refAt_refAdd.mp ((ck data r hav hcs hr hne).refAt h0 hle hin)

/-- `vstr_export_ref`. -/
theorem exportRef_spec (sd : Sound E P s) (hh : ∀ r, cstrHeld s.base r ≤ E.ext r)
    (pk : PosOk q s.base) (ps : PtrsIn (fun x => P x = .user) s.base.nodes)
    (bd : Bounded s.heap s.base.nodes) (h1 : 1 ≤ pos) (h2 : pos + len ≤ s.base.len + 1)
    (hlen : 0 < len) :
    ∃ P' s', (exportRef s pos len = (none, s') ∧ exportRefCached s.base pos len = none ∧
        Kept q E P s P' s') ∨
      ∃ r off, exportRef s pos len = (some (r, off), s') ∧ Exported q E P s r P' s' ∧
        (RefAt s pos len s' r off ↔ CacheHolds s pos len) ∧
        ((exportRefThere s.base pos len = some (r, off) ∧ s' = ⟨refAdd s.heap r, s.base⟩) ∨
          NewRef s len s' r off) := by
  unfold exportRef exportRefThere CacheHolds
  cases hc : exportRefCached s.base pos len with
  | none =>
    obtain ⟨P', s', ⟨e, k⟩ | ⟨r, off, e, ex, ra, src⟩⟩ := exportRefNodes_spec sd pk ps bd h1 h2 hlen
    · exact ⟨P', s', .inl ⟨e, rfl, k⟩⟩
    · exact ⟨P', s', .inr ⟨r, off, e, ex, iff_of_true ra (fun _ _ h => by cases h), src⟩⟩
  | some ro =>
    obtain ⟨r, off⟩ := ro
    obtain ⟨data, hav, hcs, hr, hne, hle, rfl⟩ := exportRefCached_eq_some hc
    have hlive : 0 < (s.heap.refs r).ref := by
      have hu := hh r
      have hc := sd.owned.refs r
      unfold cstrHeld at hu
      rw [hcs] at hu
      dsimp only at hu
      rw [if_pos hr] at hu
      omega
    refine ⟨P, _, .inr ⟨r, _, rfl, exported_refAdd sd pk hlive, refAt_refAdd.trans ?_,
      .inl ⟨rfl, rfl⟩⟩⟩
    constructor
    · rintro h r' off' e
      cases e
      exact h
    · exact fun h => h r _ rfl

end Vstr
