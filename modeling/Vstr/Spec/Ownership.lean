import Vstr.Spec.Content

/-!
# Who owns which block

Every block has one place: a spare list, the list of one base, a reference that
lends it out, or memory of the caller. The assignment is a ghost: the code keeps no
such table, but every operation hands blocks from one place to another, and memory is
only ever written in blocks of the base at hand, spare ones and fresh ones.
-/

namespace Vstr

open Memory

/-- Where a block belongs. -/
inductive Place where
  /-- Not handed out yet. -/
  | none
  /-- On a spare list. -/
  | spare (conf : Nat) (ty : NodeType)
  /-- The node is on the list of this base. -/
  | base (i : Nat)
  /-- Freed, or put on a spare list, with the last use of this reference. -/
  | lent (r : Nat)
  /-- Memory of the caller. -/
  | user
  deriving DecidableEq, Repr

/-- The place of every block. -/
abbrev Own := Blk → Place

/-- The nodes `ids` change their place to `o`. -/
def Own.give (P : Own) (ids : List Nat) (o : Place) : Own
  | .node i => if i ∈ ids then o else P (.node i)
  | .ext n => P (.ext n)

theorem Own.give_mem (P : Own) {ids : List Nat} (o : Place) {i : Nat} (h : i ∈ ids) :
    P.give ids o (.node i) = o := if_pos h

theorem Own.give_not_mem (P : Own) {ids : List Nat} (o : Place) {i : Nat} (h : i ∉ ids) :
    P.give ids o (.node i) = P (.node i) := if_neg h

/-- A block that changed its place was one of the nodes given. -/
theorem Own.give_eq_or (P : Own) (ids : List Nat) (o : Place) (x : Blk) :
    (∃ i ∈ ids, x = .node i ∧ P.give ids o x = o) ∨ P.give ids o x = P x := by
  cases x with
  | node i =>
    by_cases h : i ∈ ids
    · exact .inl ⟨i, h, rfl, P.give_mem o h⟩
    · exact .inr (P.give_not_mem o h)
  | ext n => exact .inr rfl

/-- A block that is none of the nodes given keeps its place. -/
theorem Own.give_of_ne (P : Own) {ids : List Nat} (o : Place) {x : Blk}
    (h : ∀ i ∈ ids, x ≠ .node i) : P.give ids o x = P x := by
  rcases P.give_eq_or ids o x with ⟨i, hi, hx, -⟩ | hx
  · exact absurd hx (h i hi)
  · exact hx

/-- The place of the memory a live reference points to. -/
def RefPlace (P : Own) (r : Nat) (ref : Ref) : Prop :=
  match ref.func with
  | .free => P ref.ptr.blk = .user ∨ P ref.ptr.blk = .lent r
  | .relink _ => ref.ptr.off = 0 ∧ ∃ x, ref.ptr.blk = .node x ∧ P (.node x) = .lent r

/-- Spare lists and references agree with the places. -/
structure HeapOk (P : Own) (h : Heap) : Prop where
  /-- The counters count. -/
  spareNum : ∀ c ty, (h.confs c).spareNum ty = ((h.confs c).spare ty).length
  /-- No node is twice on a spare list. -/
  spareNodup : ∀ c ty, ((h.confs c).spare ty).Nodup
  /-- Spare nodes belong to their list. -/
  spareOwn : ∀ c ty, ∀ x ∈ (h.confs c).spare ty, P (.node x) = .spare c ty
  /-- Nothing belongs anywhere before it is handed out. -/
  fresh : ∀ x, h.next ≤ x → P (.node x) = .none ∧ P (.ext x) = .none
  /-- No reference is live before it is handed out. -/
  refFresh : ∀ r, h.next ≤ r → (h.refs r).ref = 0
  /-- Live references lend what they point to, or point to memory of the caller. -/
  refOwn : ∀ r, 0 < (h.refs r).ref → RefPlace P r (h.refs r)

/-- The nodes of a base are its own. -/
structure NodesOk (P : Own) (me : Nat) (ns : List Node) : Prop where
  /-- No node is twice on the list. -/
  nodup : (ns.map Node.id).Nodup
  /-- Every node belongs to the base. -/
  own : ∀ m ∈ ns, P (.node m.id) = .base me

/-- The reference a node holds. -/
def Node.ref (n : Node) : Option Nat :=
  match n.data with
  | .ref r _ => some r
  | _ => none

/-- How many nodes hold the reference `r`. -/
def heldBy (ns : List Node) (r : Nat) : Nat := ns.countP fun n => n.ref = some r

/-- The point of view of one base: its place, and how often each reference is held by
anything but its nodes. -/
structure Env where
  /-- The place of the base. -/
  me : Nat
  /-- References held elsewhere. -/
  ext : Nat → Nat

/-- Reference counts count. -/
def RefsOk (ext : Nat → Nat) (h : Heap) (ns : List Node) : Prop :=
  ∀ r, (h.refs r).ref = ext r + heldBy ns r

/-- Memory and the nodes of a base agree with the places. -/
structure Owned (E : Env) (P : Own) (h : Heap) (ns : List Node) : Prop where
  /-- Spare lists and references. -/
  heap : HeapOk P h
  /-- The list of the base. -/
  nodes : NodesOk P E.me ns
  /-- Reference counts. -/
  refs : RefsOk E.ext h ns

/-- A block that an operation on this base must leave alone. -/
def Foreign (E : Env) (P : Own) (x : Blk) : Prop :=
  P x = .user ∨ (∃ j, j ≠ E.me ∧ P x = .base j) ∨ ∃ r, P x = .lent r ∧ 0 < E.ext r

/-- What an operation on one base leaves as it was. -/
structure Frame (E : Env) (P : Own) (h : Heap) (P' : Own) (h' : Heap) : Prop where
  /-- Nothing is handed out twice. -/
  next_le : h.next ≤ h'.next
  /-- The buffer size does not change. -/
  bufSz : ∀ c, (h'.confs c).bufSz = (h.confs c).bufSz
  /-- Nor does `split_buf_del`. -/
  splitBufDel : ∀ c, (h'.confs c).splitBufDel = (h.confs c).splitBufDel
  /-- Nor `iov_min_alloc`. -/
  iovMinAlloc : ∀ c, (h'.confs c).iovMinAlloc = (h.confs c).iovMinAlloc
  /-- Nor `iov_min_offset`. -/
  iovMinOffset : ∀ c, (h'.confs c).iovMinOffset = (h.confs c).iovMinOffset
  /-- References point where they did. -/
  refPtr : ∀ r, r < h.next → (h'.refs r).ptr = (h.refs r).ptr
  /-- Foreign blocks keep their place. -/
  place : ∀ x, Foreign E P x → P' x = P x
  /-- Foreign blocks keep their bytes. -/
  mem : ∀ x, Foreign E P x → h'.mem x = h.mem x
  /-- Blocks keep their size. -/
  size : ∀ x, P x ≠ .none → h'.size x = h.size x
  /-- A block that was handed out stays handed out. -/
  known : ∀ x, P x ≠ .none → P' x ≠ .none

theorem Frame.refl (E : Env) (P : Own) (h : Heap) : Frame E P h P h :=
  ⟨Nat.le_refl _, fun _ => rfl, fun _ => rfl, fun _ => rfl, fun _ => rfl, fun _ _ => rfl,
    fun _ _ => rfl, fun _ _ => rfl, fun _ _ => rfl, fun _ h => h⟩

/-- A foreign block stays foreign. -/
theorem Frame.foreign {E : Env} {P P' : Own} {h h' : Heap} (f : Frame E P h P' h') {x : Blk}
    (hx : Foreign E P x) : Foreign E P' x := by
  have hp := f.place x hx
  rcases hx with hx | ⟨j, hj, hx⟩ | ⟨r, hx, hr⟩
  · exact .inl (hp.trans hx)
  · exact .inr (.inl ⟨j, hj, hp.trans hx⟩)
  · exact .inr (.inr ⟨r, hp.trans hx, hr⟩)

theorem Frame.trans {E : Env} {P P' P'' : Own} {h h' h'' : Heap} (f : Frame E P h P' h')
    (g : Frame E P' h' P'' h'') : Frame E P h P'' h'' where
  next_le := Nat.le_trans f.next_le g.next_le
  bufSz c := (g.bufSz c).trans (f.bufSz c)
  splitBufDel c := (g.splitBufDel c).trans (f.splitBufDel c)
  iovMinAlloc c := (g.iovMinAlloc c).trans (f.iovMinAlloc c)
  iovMinOffset c := (g.iovMinOffset c).trans (f.iovMinOffset c)
  refPtr r hr := (g.refPtr r (Nat.lt_of_lt_of_le hr f.next_le)).trans (f.refPtr r hr)
  place x hx := (g.place x (f.foreign hx)).trans (f.place x hx)
  mem x hx := (g.mem x (f.foreign hx)).trans (f.mem x hx)
  size x hx := (g.size x (f.known x hx)).trans (f.size x hx)
  known x hx := g.known x (f.known x hx)

end Vstr
