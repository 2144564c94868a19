import Vstr.Own.Heap

/-!
# Nodes, their places and their bytes

How the list of a base and the places change together, and which bytes a write can
reach: the bytes of a node are in its own buffer, or in a block that no operation on
the base writes to.
-/

namespace Vstr

open Memory

variable {E : Env} {P P' : Own} {h h' : Heap} {me : Nat} {ns ns' : List Node}

/-! ## Lists and places -/

theorem NodesOk.of_ids (ok : NodesOk P me ns) (hi : ns'.map Node.id = ns.map Node.id) :
    NodesOk P me ns' where
  nodup := by rw [hi]; exact ok.nodup
  own m hm := by
    have : m.id ∈ ns.map Node.id := hi ▸ List.mem_map_of_mem hm
    obtain ⟨m', hm', e⟩ := List.mem_map.mp this
    rw [← e]
    exact ok.own m' hm'

theorem NodesOk.of_place (ok : NodesOk P me ns) (hp : ∀ x i, P x = .base i → P' x = .base i) :
    NodesOk P' me ns where
  nodup := ok.nodup
  own m hm := hp _ _ (ok.own m hm)

/-- Nodes from a spare list are linked in. -/
theorem NodesOk.insert {a b new : List Node} {c : Nat} {ty : NodeType}
    (ok : NodesOk P me (a ++ b)) (hd : (new.map Node.id).Nodup)
    (hs : ∀ i ∈ new.map Node.id, P (.node i) = .spare c ty) :
    NodesOk (P.give (new.map Node.id) (.base me)) me (a ++ new ++ b) := by
  have hne : ∀ m ∈ a ++ b, m.id ∉ new.map Node.id := by
    intro m hm hi
    have h1 := hs m.id hi
    rw [ok.own m hm] at h1
    cases h1
  have hnd := ok.nodup
  rw [List.map_append, List.nodup_append] at hnd
  refine ⟨?_, ?_⟩
  · rw [List.map_append, List.map_append, List.nodup_append, List.nodup_append]
    refine ⟨⟨hnd.1, hd, ?_⟩, hnd.2.1, ?_⟩
    · rintro x hx y hy rfl
      obtain ⟨m, hm, rfl⟩ := List.mem_map.mp hx
      exact hne m (List.mem_append_left _ hm) hy
    · rintro x hx y hy rfl
      rcases List.mem_append.mp hx with hx | hx
      · exact hnd.2.2 x hx x hy rfl
      · obtain ⟨m, hm, rfl⟩ := List.mem_map.mp hy
        exact hne m (List.mem_append_right _ hm) hx
  · intro m hm
    by_cases hi : m.id ∈ new.map Node.id
    · exact P.give_mem _ hi
    · rw [P.give_not_mem _ hi]
      rcases List.mem_append.mp hm with hm | hm
      · rcases List.mem_append.mp hm with hm | hm
        · exact ok.own m (List.mem_append_left _ hm)
        · exact absurd (List.mem_map_of_mem hm) hi
      · exact ok.own m (List.mem_append_right _ hm)

/-- Nodes are unlinked. -/
theorem NodesOk.remove {a b run : List Node} (ok : NodesOk P me (a ++ run ++ b)) (o : Place) :
    NodesOk (P.give (run.map Node.id) o) me (a ++ b) := by
  have hnd := ok.nodup
  rw [List.map_append, List.map_append, List.nodup_append, List.nodup_append] at hnd
  obtain ⟨⟨ha, -, har⟩, hb, hab⟩ := hnd
  refine ⟨?_, ?_⟩
  · rw [List.map_append, List.nodup_append]
    refine ⟨ha, hb, ?_⟩
    rintro x hx y hy rfl
    exact hab x (List.mem_append_left _ hx) x hy rfl
  · intro m hm
    have hi : m.id ∉ run.map Node.id := by
      intro hi
      rcases List.mem_append.mp hm with hm | hm
      · exact har m.id (List.mem_map_of_mem hm) m.id hi rfl
      · exact hab m.id (List.mem_append_right _ hi) m.id (List.mem_map_of_mem hm) rfl
    rw [P.give_not_mem _ hi]
    apply ok.own
    rcases List.mem_append.mp hm with hm | hm
    · exact List.mem_append_left _ (List.mem_append_left _ hm)
    · exact List.mem_append_right _ hm

/-- Making spare nodes does not concern the list. -/
theorem Owned.makes (ow : Owned E P h ns) (m : Makes E P h P' h') : Owned E P' h' ns where
  heap := m.ok
  nodes := ow.nodes.of_place fun x i hx => by rw [m.place x (by rw [hx]; simp), hx]
  refs r := by rw [m.refs]; exact ow.refs r

/-- Nodes may change their length and payload as long as they hold the same references. -/
theorem Owned.of_same (ow : Owned E P h ns) (hi : ns'.map Node.id = ns.map Node.id)
    (hr : ns'.map Node.ref = ns.map Node.ref) : Owned E P h ns' where
  heap := ow.heap
  nodes := ow.nodes.of_ids hi
  refs r := by
    have key : ∀ l : List Node, heldBy l r = (l.map Node.ref).countP fun x => x = some r := by
      intro l
      rw [heldBy, List.countP_map]
      rfl
    rw [key, hr, ← key]
    exact ow.refs r

theorem Owned.setMem (ow : Owned E P h ns) (m : Mem Blk UInt8) : Owned E P (h.setMem m) ns :=
  ⟨ow.heap.setMem m, ow.nodes, ow.refs⟩

/-- A reference held by a node is live. -/
theorem Owned.ref_pos (ow : Owned E P h ns) {m : Node} (hm : m ∈ ns) {r : Nat}
    (hr : m.ref = some r) : 0 < (h.refs r).ref := by
  have hc := ow.refs r
  have hpos : 0 < heldBy ns r := List.countP_pos_iff.mpr ⟨m, hm, by simp [hr]⟩
  omega

/-! ## Frames of writes -/

/-- Writing a block that is not foreign. -/
theorem frame_setMem {p : Addr} (bs : List UInt8) (hp : ¬ Foreign E P p.blk) :
    Frame E P h P (h.setMem (write h.mem p bs)) where
  next_le := Nat.le_refl _
  bufSz _ := rfl
  splitBufDel _ := rfl
  iovMinAlloc _ := rfl
  iovMinOffset _ := rfl
  refPtr _ _ := rfl
  place _ _ := rfl
  mem x hx := by
    change write h.mem p bs x = h.mem x
    apply write_of_ne
    rintro rfl
    exact hp hx
  size _ _ := rfl
  known _ hx := hx

/-! ## Bytes -/

theorem nodeBytes_congr {m : Node} (hp : exportNodePtr h' m = exportNodePtr h m)
    (hm : ∀ p, exportNodePtr h m = some p → read h'.mem p m.len = read h.mem p m.len) :
    nodeBytes h' m = nodeBytes h m := by
  unfold nodeBytes
  rw [hp]
  split
  · rfl
  · rename_i p e
    rw [hm p e]

theorem Like.exportNodePtr (f : Like h h') (m : Node) :
    exportNodePtr h' m = exportNodePtr h m := by
  unfold Vstr.exportNodePtr
  split
  · rfl
  · rfl
  · rfl
  · rw [f.refPtr]

theorem Like.nodeBytes (f : Like h h') (m : Node) : nodeBytes h' m = nodeBytes h m :=
  nodeBytes_congr (f.exportNodePtr m) fun p _ => by rw [f.mem]

theorem flat_congr (hb : ∀ m ∈ ns, nodeBytes h' m = nodeBytes h m) : flat h' ns = flat h ns := by
  induction ns with
  | nil => rfl
  | cons n ns ih =>
    rw [flat_cons, flat_cons, hb n List.mem_cons_self,
      ih fun m hm => hb m (List.mem_cons_of_mem _ hm)]

theorem Like.flat (f : Like h h') (ns : List Node) : flat h' ns = flat h ns :=
  flat_congr fun m _ => f.nodeBytes m

/-- Making spare nodes leaves the bytes of every node. -/
theorem Makes.flat (m : Makes E P h P' h') (ns : List Node) : flat h' ns = flat h ns := by
  apply flat_congr
  intro n _
  apply nodeBytes_congr
  · unfold exportNodePtr
    rw [m.refs]
  · intro p _
    rw [m.mem]

/-- Memory that only changes in spare and fresh blocks. -/
structure Quiet (P : Own) (h h' : Heap) : Prop where
  /-- Other blocks keep their bytes. -/
  mem : ∀ x, Solid P x → h'.mem x = h.mem x
  /-- References point where they did. -/
  refPtr : ∀ r, (h'.refs r).ptr = (h.refs r).ptr

theorem Quiet.refl (P : Own) (h : Heap) : Quiet P h h := ⟨fun _ _ => rfl, fun _ => rfl⟩

theorem Quiet.trans {h'' : Heap} (f : Quiet P h h') (g : Grows P P') (f' : Quiet P' h' h'') :
    Quiet P h h'' where
  mem x hx := (f'.mem x (g.solid hx)).trans (f.mem x hx)
  refPtr r := (f'.refPtr r).trans (f.refPtr r)

theorem Makes.quiet (m : Makes E P h P' h') : Quiet P h h' where
  mem x _ := by rw [m.mem]
  refPtr r := by rw [m.refs]

/-- The bytes of the nodes are in blocks that are neither spare nor fresh. -/
def Firm (P : Own) (h : Heap) (ns : List Node) : Prop :=
  ∀ m ∈ ns, ∀ p, exportNodePtr h m = some p → Solid P p.blk

theorem Firm.subset (fm : Firm P h ns) (hs : ∀ m ∈ ns', m ∈ ns) : Firm P h ns' :=
  fun m hm => fm m (hs m hm)

theorem firm_append {a b : List Node} : Firm P h (a ++ b) ↔ Firm P h a ∧ Firm P h b := by
  constructor
  · intro fm
    exact ⟨fm.subset fun m hm => List.mem_append_left _ hm,
      fm.subset fun m hm => List.mem_append_right _ hm⟩
  · rintro ⟨ha, hb⟩ m hm
    rcases List.mem_append.mp hm with hm | hm
    · exact ha m hm
    · exact hb m hm

theorem firm_cons {n : Node} :
    Firm P h (n :: ns) ↔ (∀ p, exportNodePtr h n = some p → Solid P p.blk) ∧ Firm P h ns := by
  constructor
  · intro fm
    exact ⟨fm n List.mem_cons_self, fm.subset fun m hm => List.mem_cons_of_mem _ hm⟩
  · rintro ⟨hn, hs⟩ m hm
    rcases List.mem_cons.mp hm with rfl | hm
    · exact hn
    · exact hs m hm

theorem Quiet.exportNodePtr (f : Quiet P h h') (m : Node) :
    exportNodePtr h' m = exportNodePtr h m := by
  unfold Vstr.exportNodePtr
  split
  · rfl
  · rfl
  · rfl
  · rw [f.refPtr]

theorem Firm.quiet (fm : Firm P h ns) (f : Quiet P h h') (g : Grows P P') : Firm P' h' ns := by
  intro m hm p hp
  rw [f.exportNodePtr] at hp
  exact g.solid (fm m hm p hp)

theorem Quiet.nodeBytes (f : Quiet P h h') {m : Node}
    (hm : ∀ p, Vstr.exportNodePtr h m = some p → Solid P p.blk) :
    nodeBytes h' m = nodeBytes h m := by
  apply nodeBytes_congr (f.exportNodePtr m)
  intro p hp
  apply read_congr
  intro i _
  rw [f.mem p.blk (hm p hp)]

theorem Quiet.flat (f : Quiet P h h') (fm : Firm P h ns) : flat h' ns = flat h ns :=
  flat_congr fun m hm => f.nodeBytes (fm m hm)

/-- The `PTR` nodes of a list point into such blocks. -/
def PtrsIn (Q : Blk → Prop) (ns : List Node) : Prop :=
  ∀ m ∈ ns, ∀ p, m.data = .ptr p → Q p.blk

/-- The `PTR` nodes of a base point to memory that operations on the base leave alone. -/
def PtrSafe (E : Env) (P : Own) (ns : List Node) : Prop := PtrsIn (Foreign E P) ns

theorem PtrsIn.subset {Q : Blk → Prop} (ps : PtrsIn Q ns) (hs : ∀ m ∈ ns', m ∈ ns) :
    PtrsIn Q ns' :=
  fun m hm => ps m (hs m hm)

theorem PtrsIn.frame (ps : PtrsIn (Foreign E P) ns) (f : Frame E P h P' h') : PtrSafe E P' ns :=
  fun m hm p hp => f.foreign (ps m hm p hp)

theorem PtrSafe.frame (ps : PtrSafe E P ns) (f : Frame E P h P' h') : PtrSafe E P' ns :=
  PtrsIn.frame ps f

/-- A block that is not the base's own to write to: neither one of its nodes nor spare. -/
def Steady (E : Env) (P : Own) (x : Blk) : Prop :=
  Foreign E P x ∨ ∃ r, P x = .lent r

/-- The bytes of a node are in its own buffer, or in a steady block. -/
theorem Owned.bytes_at (ow : Owned E P h ns) (ps : PtrSafe E P ns) {m : Node} (hm : m ∈ ns)
    {p : Addr} (hp : exportNodePtr h m = some p) :
    (m.data = .buf ∧ p.blk = .node m.id) ∨ (m.data ≠ .buf ∧ Steady E P p.blk) := by
  unfold exportNodePtr at hp
  cases hd : m.data with
  | buf =>
    rw [hd] at hp
    cases hp
    exact .inl ⟨rfl, rfl⟩
  | non =>
    rw [hd] at hp
    cases hp
  | ptr q =>
    rw [hd] at hp
    obtain rfl : q = p := by simpa using hp
    exact .inr ⟨by simp, .inl (ps m hm q hd)⟩
  | ref r off =>
    rw [hd] at hp
    cases hp
    refine .inr ⟨by simp, ?_⟩
    have hplace := ow.heap.refOwn r (ow.ref_pos hm (by simp only [Node.ref, hd]))
    rw [Ptr.add_blk]
    unfold RefPlace at hplace
    split at hplace
    · rcases hplace with hu | hl
      · exact .inl (.inl hu)
      · exact .inr ⟨r, hl⟩
    · obtain ⟨-, x, hx, hl⟩ := hplace
      rw [hx]
      exact .inr ⟨r, hl⟩

/-- Bytes that operations on the base leave alone are in no spare block. -/
theorem Owned.firm (ow : Owned E P h ns) (ps : PtrSafe E P ns) : Firm P h ns := by
  intro m hm p hp
  rcases ow.bytes_at ps hm hp with ⟨-, hx⟩ | ⟨-, hx | ⟨r, hx⟩⟩
  · rw [hx]
    exact solid_of_base (ow.nodes.own m hm)
  · exact solid_of_foreign hx
  · unfold Solid
    rw [hx]
    simp

/-- A block the base may write to is not steady. -/
theorem not_steady_of_base {x : Blk} (hx : P x = .base E.me) : ¬ Steady E P x := by
  rintro (h | ⟨r, h⟩)
  · exact not_foreign_of_base hx h
  · rw [hx] at h; cases h

/-- A write to a block that is not steady only reaches the node whose buffer it is. -/
theorem Owned.nodeBytes_write (ow : Owned E P h ns) (ps : PtrSafe E P ns) {m : Node}
    (hm : m ∈ ns) {p : Addr} (bs : List UInt8) (hp : ¬ Steady E P p.blk)
    (hne : m.data = .buf → p.blk ≠ .node m.id) :
    nodeBytes (h.setMem (write h.mem p bs)) m = nodeBytes h m := by
  have he : exportNodePtr (h.setMem (write h.mem p bs)) m = exportNodePtr h m := rfl
  apply nodeBytes_congr he
  intro q hq
  apply read_write_of_ne
  intro e
  rcases ow.bytes_at ps hm hq with ⟨hb, hx⟩ | ⟨-, hx⟩
  · exact hne hb (e.symm.trans hx)
  · rw [e] at hx
    exact hp hx

end Vstr
