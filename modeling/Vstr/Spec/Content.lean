import Vstr.Model.Pos
import Vstr.Lib.Splice
import Mathlib.Data.List.Forall2

/-!
# The content of a string

What a base is for: a sequence of bytes, where the bytes of a `NON` node are
unknown. The content is read off the list of nodes and memory, so it says nothing
about how the bytes are cut into nodes.
-/

namespace Vstr

open Memory

/-- The bytes of a node, its consumed ones included. -/
def nodeBytes (h : Heap) (n : Node) : List (Option UInt8) :=
  match exportNodePtr h n with
  | none => List.replicate n.len none
  | some p => (read h.mem p n.len).map some

/-- The bytes of a list of nodes. -/
def flat (h : Heap) (ns : List Node) : List (Option UInt8) := ns.flatMap (nodeBytes h)

/-- The content of a base. -/
def content (s : St) : List (Option UInt8) := (flat s.heap s.base.nodes).drop s.base.used

/-- The number of bytes in a list of nodes. -/
def lens (ns : List Node) : Nat := (ns.map Node.len).sum

@[simp] theorem lens_nil : lens [] = 0 := rfl

@[simp] theorem lens_cons (n : Node) (ns : List Node) : lens (n :: ns) = n.len + lens ns := rfl

@[simp] theorem lens_append (a b : List Node) : lens (a ++ b) = lens a + lens b := by
  simp only [lens, List.map_append, List.sum_append]

@[simp] theorem flat_nil (h : Heap) : flat h [] = [] := rfl

@[simp] theorem flat_cons (h : Heap) (n : Node) (ns : List Node) :
    flat h (n :: ns) = nodeBytes h n ++ flat h ns := by
  simp only [flat, List.flatMap_cons]

@[simp] theorem flat_append (h : Heap) (a b : List Node) :
    flat h (a ++ b) = flat h a ++ flat h b := by
  simp only [flat, List.flatMap_append]

@[simp] theorem length_nodeBytes (h : Heap) (n : Node) : (nodeBytes h n).length = n.len := by
  unfold nodeBytes
  split <;> simp

@[simp] theorem length_flat (h : Heap) (ns : List Node) : (flat h ns).length = lens ns := by
  induction ns with
  | nil => rfl
  | cons n ns ih => rw [flat_cons, List.length_append, length_nodeBytes, ih, lens_cons]

/-- Known bytes are there; an unknown byte may be anything. -/
def Matches (xs : List (Option UInt8)) (bs : List UInt8) : Prop :=
  List.Forall₂ (fun x b => x = none ∨ x = some b) xs bs

instance (xs : List (Option UInt8)) (bs : List UInt8) : Decidable (Matches xs bs) :=
  inferInstanceAs (Decidable (List.Forall₂ _ xs bs))

theorem Matches.length {xs : List (Option UInt8)} {bs : List UInt8} (m : Matches xs bs) :
    bs.length = xs.length := m.length_eq.symm

theorem matches_some (bs : List UInt8) : Matches (bs.map some) bs := by
  induction bs with
  | nil => exact .nil
  | cons b bs ih => exact .cons (.inr rfl) ih

/-- Known bytes have one reading. -/
theorem Matches.eq_of_some {bs cs : List UInt8} (m : Matches (bs.map some) cs) : cs = bs := by
  induction bs generalizing cs with
  | nil =>
    cases m
    rfl
  | cons b bs ih =>
    obtain ⟨c, cs, h, m', rfl⟩ := List.forall₂_cons_left_iff.mp m
    rw [ih m', Option.some_inj.mp (h.resolve_left (by simp))]

theorem matches_none (bs : List UInt8) : Matches (List.replicate bs.length none) bs := by
  induction bs with
  | nil => exact .nil
  | cons b bs ih => exact .cons (.inl rfl) ih

theorem Matches.append {xs ys : List (Option UInt8)} {as bs : List UInt8} (m : Matches xs as)
    (m' : Matches ys bs) : Matches (xs ++ ys) (as ++ bs) := List.rel_append m m'

theorem Matches.take {xs : List (Option UInt8)} {bs : List UInt8} (m : Matches xs bs) (n : Nat) :
    Matches (xs.take n) (bs.take n) := List.forall₂_take n m

theorem Matches.drop {xs : List (Option UInt8)} {bs : List UInt8} (m : Matches xs bs) (n : Nat) :
    Matches (xs.drop n) (bs.drop n) := List.forall₂_drop n m

/-- The bytes a node with this payload has. -/
theorem nodeBytes_eq (h : Heap) (n : Node) :
    nodeBytes h n = match n.data with
      | .buf => (read h.mem ⟨.node n.id, 0⟩ n.len).map some
      | .non => List.replicate n.len none
      | .ptr p => (read h.mem p n.len).map some
      | .ref r off => (read h.mem ((h.refs r).ptr.add off) n.len).map some := by
  unfold nodeBytes exportNodePtr
  cases n.data <;> rfl

end Vstr
