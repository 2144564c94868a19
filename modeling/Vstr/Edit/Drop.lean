import Vstr.Edit.Split

/-!
# Whole nodes go back to the spare lists

The loops of the delete functions. A node first gives up its reference and then waits,
with others of its type, to be relinked; while it waits it is on no list.
-/

namespace Vstr

open Memory

variable {E : Env} {P P' : Own} {h h' : Heap} {a b run : List Node} {n : Node}

/-- The state of a deletion: the nodes `run` between `a` and `b` are to be relinked. -/
structure Dropping (E : Env) (P : Own) (h : Heap) (a run b : List Node) : Prop where
  /-- Spare lists and references. -/
  heap : HeapOk P h
  /-- The nodes, those that wait included. -/
  nodes : NodesOk P E.me (a ++ run ++ b)
  /-- Those that wait hold no reference any more. -/
  refs : RefsOk E.ext h (a ++ b)

theorem Owned.dropping (ow : Owned E P h (a ++ b)) : Dropping E P h a [] b :=
  ⟨ow.heap, by rw [List.append_nil]; exact ow.nodes, ow.refs⟩

theorem Dropping.owned (d : Dropping E P h a [] b) : Owned E P h (a ++ b) :=
  ⟨d.heap, by have := d.nodes; rwa [List.append_nil] at this, d.refs⟩

/-- A node gives up its reference. -/
theorem Dropping.take (d : Dropping E P h a run (n :: b)) :
    ∃ P', Dropping E P' (delNode h n) a (run ++ [n]) b ∧ Frame E P h P' (delNode h n) := by
  have hr : RefsOk E.ext h (n :: (a ++ b)) := by
    intro r
    have := d.refs r
    rw [heldBy_append, heldBy_cons] at this
    rw [heldBy_cons, heldBy_append]
    omega
  obtain ⟨P', ok, hr', fr, hp⟩ := d.heap.delNode hr
  refine ⟨P', ⟨ok, ?_, hr'⟩, fr⟩
  have := d.nodes.of_place hp
  simpa using this

/-- Nodes that wait are relinked. -/
theorem Dropping.relink {rest : List Node} (d : Dropping E P h a (run ++ rest) b) (c : Nat) :
    ∃ P', Dropping E P' (relinkNodes h c run) a rest b ∧ Frame E P h P' (relinkNodes h c run) := by
  cases run with
  | nil => exact ⟨P, ⟨d.heap, d.nodes, d.refs⟩, Frame.refl E P h⟩
  | cons m ms =>
    have hmine : ∀ i ∈ (m :: ms).map Node.id, P (.node i) = .base E.me := by
      intro i hi
      obtain ⟨x, hx, rfl⟩ := List.mem_map.mp hi
      apply d.nodes.own
      rw [List.mem_append, List.mem_append, List.mem_append]
      exact .inl (.inr (.inl hx))
    have hnd := d.nodes.nodup
    have hids : ((m :: ms).map Node.id).Nodup := by
      have hsub : ((m :: ms).map Node.id).Sublist
          ((a ++ (m :: ms ++ rest) ++ b).map Node.id) := by
        apply List.Sublist.map
        exact ((List.sublist_append_left _ _).trans (List.sublist_append_right _ _)).trans
          (List.sublist_append_left _ _)
      exact hnd.sublist hsub
    refine ⟨P.give ((m :: ms).map Node.id) (.spare c m.type), ⟨?_, ?_, d.refs⟩, ?_⟩
    · exact d.heap.pushSpare hids fun i hi => d.heap.loose_base (hmine i hi)
    · have hn : NodesOk P E.me (a ++ (m :: ms) ++ (rest ++ b)) := by
        have := d.nodes
        simpa using this
      have := hn.remove (.spare c m.type)
      simpa using this
    · exact (like_pushSpare h c _ _).frame (fun i hi => not_foreign_of_base (hmine i hi)) (by simp)

/-- The loop of `vstr__del_all`. -/
theorem delAllLoop_spec (c : Nat) (run ns : List Node) (h : Heap) {P : Own}
    (d : Dropping E P h [] run ns) :
    ∃ P', Dropping E P' (delAllLoop c run ns h) [] [] [] ∧
      Frame E P h P' (delAllLoop c run ns h) ∧ Like h (delAllLoop c run ns h) := by
  induction ns generalizing run h P with
  | nil =>
    have d' : Dropping E P h [] (run ++ []) [] := by rwa [List.append_nil]
    obtain ⟨P', d₁, fr⟩ := d'.relink c
    exact ⟨P', d₁, fr, like_relinkNodes h c run⟩
  | cons n ns ih =>
    unfold delAllLoop
    split
    · have d' : Dropping E P h [] (run ++ []) (n :: ns) := by rwa [List.append_nil]
      obtain ⟨P₁, d₁, fr₁⟩ := d'.relink c
      obtain ⟨P₂, d₂, fr₂⟩ := d₁.take
      obtain ⟨P₃, d₃, fr₃, lk₃⟩ := ih [n] _ d₂
      exact ⟨P₃, d₃, (fr₁.trans fr₂).trans fr₃,
        ((like_relinkNodes h c run).trans (like_delNode _ n)).trans lk₃⟩
    · obtain ⟨P₁, d₁, fr₁⟩ := d.take
      obtain ⟨P₂, d₂, fr₂, lk₂⟩ := ih (run ++ [n]) _ d₁
      exact ⟨P₂, d₂, fr₁.trans fr₂, (like_delNode h n).trans lk₂⟩

/-- The loop of `vstr_extern_inline_del` over whole nodes: the nodes that go, and what is
left to delete in the next one. -/
theorem delEndLoop_spec (c : Nat) (a run ns : List Node) (len : Nat) (h : Heap) {P : Own}
    (d : Dropping E P h a run ns) :
    ∃ P' gone rest, ns = gone ++ rest ∧
      (delEndLoop c run ns len h).1 = (rest, len - lens gone, run.length + gone.length) ∧
      lens gone ≤ len ∧ (∀ m ms, rest = m :: ms → len - lens gone < m.len) ∧
      Dropping E P' (delEndLoop c run ns len h).2 a [] rest ∧
      Frame E P h P' (delEndLoop c run ns len h).2 ∧ Like h (delEndLoop c run ns len h).2 := by
  induction ns generalizing run len h P with
  | nil =>
    have d' : Dropping E P h a (run ++ []) [] := by rwa [List.append_nil]
    obtain ⟨P', d₁, fr⟩ := d'.relink c
    exact ⟨P', [], [], rfl, rfl, Nat.zero_le _, by simp, d₁, fr, like_relinkNodes h c run⟩
  | cons n ns ih =>
    unfold delEndLoop
    split
    · rename_i hlt
      have d' : Dropping E P h a (run ++ []) (n :: ns) := by rwa [List.append_nil]
      obtain ⟨P', d₁, fr⟩ := d'.relink c
      refine ⟨P', [], n :: ns, rfl, rfl, Nat.zero_le _, ?_, d₁, fr, like_relinkNodes h c run⟩
      intro m ms e
      cases e
      exact hlt
    · rename_i hge
      obtain ⟨P₁, d₁, fr₁⟩ := d.take
      dsimp only
      split
      · obtain ⟨P₂, d₂, fr₂⟩ := d₁.relink c
        obtain ⟨P₃, gone, rest, hns, hr, hle, hlt, d₃, fr₃, lk₃⟩ := ih [n] (len - n.len) _ d₂
        refine ⟨P₃, n :: gone, rest, by rw [hns]; rfl, ?_, ?_, ?_, d₃,
          (fr₁.trans fr₂).trans fr₃,
          ((like_delNode h n).trans (like_relinkNodes _ c run)).trans lk₃⟩
        · rw [hr, lens_cons, List.length_cons]
          simp only [List.length_cons, List.length_nil, Prod.mk.injEq, true_and]
          omega
        · rw [lens_cons]; omega
        · intro m ms e
          have := hlt m ms e
          rw [lens_cons]
          omega
      · obtain ⟨P₂, gone, rest, hns, hr, hle, hlt, d₂, fr₂, lk₂⟩ :=
          ih (run ++ [n]) (len - n.len) _ d₁
        refine ⟨P₂, n :: gone, rest, by rw [hns]; rfl, ?_, ?_, ?_, d₂, fr₁.trans fr₂,
          (like_delNode h n).trans lk₂⟩
        · rw [hr, lens_cons, List.length_cons, List.length_append]
          simp only [List.length_singleton, Prod.mk.injEq, true_and]
          omega
        · rw [lens_cons]; omega
        · intro m ms e
          have := hlt m ms e
          rw [lens_cons]
          omega

end Vstr
