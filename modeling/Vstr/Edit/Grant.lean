import Vstr.Model.Add
import Vstr.Model.Del

/-!
# Allocation that does not fail

When every allocation is granted, spare nodes can be had and what needs them succeeds.
-/

namespace Vstr

/-- Every allocation is granted. -/
def Granted (h : Heap) : Prop := ∀ i, h.grant i = true

variable {h : Heap} {s : St} {k : AddKind}

theorem makeSpareNode_granted (g : Granted h) (c : Nat) (ty : NodeType) :
    (makeSpareNode h c ty).1 = true ∧ Granted (makeSpareNode h c ty).2 := by
  unfold makeSpareNode Heap.malloc
  rw [g h.tick]
  exact ⟨rfl, g⟩

theorem makeSpareNodes_granted (g : Granted h) (c : Nat) (ty : NodeType) (num : Nat) :
    (makeSpareNodes h c ty num).1 = true ∧ Granted (makeSpareNodes h c ty num).2 := by
  induction num generalizing h with
  | zero => exact ⟨rfl, g⟩
  | succ num ih =>
    obtain ⟨h1, g'⟩ := makeSpareNode_granted g c ty
    rw [makeSpareNodes]
    generalize makeSpareNode h c ty = r at h1 g'
    obtain ⟨ok, h'⟩ := r
    obtain rfl : ok = true := h1
    exact ih g'

/-- Spare nodes can be had. -/
theorem rangeSpare_granted (g : Granted h) (c : Nat) (ty : NodeType) (min : Nat) :
    (rangeSpare h c ty min).1 = true ∧ Granted (rangeSpare h c ty min).2 := by
  unfold rangeSpare
  dsimp only
  split
  · exact makeSpareNodes_granted g c ty _
  · exact ⟨rfl, g⟩

/-- Adding at the beginning succeeds. -/
theorem addFront_granted (g : Granted s.heap) (len : Nat) : (addFront k s len).1 = true := by
  obtain ⟨h1, -⟩ := rangeSpare_granted g s.base.conf k.type (allocNum len (k.max s.conf))
  unfold addFront
  generalize rangeSpare s.heap s.base.conf k.type (allocNum len (k.max s.conf)) = r at h1
  obtain ⟨ok, h'⟩ := r
  obtain rfl : ok = true := h1
  dsimp only
  split <;> rfl

/-- A node can be split. -/
theorem baseSplitNode_granted (g : Granted s.heap) (idx pos : Nat) :
    (baseSplitNode s idx pos).1 = true ∧ Granted (baseSplitNode s idx pos).2.heap := by
  obtain ⟨h1, g'⟩ := rangeSpare_granted g s.base.conf (s.base.node idx).type 1
  unfold baseSplitNode
  dsimp only
  generalize rangeSpare s.heap s.base.conf (s.base.node idx).type 1 = r at h1 g'
  obtain ⟨ok, h'⟩ := r
  obtain rfl : ok = true := h1
  refine ⟨rfl, ?_⟩
  dsimp only
  unfold splitPayload
  split <;> exact g'

/-- The place of an insertion is found. -/
theorem addSetupPos_granted (g : Granted s.heap) (pos : Nat) :
    ∃ f s', addSetupPos s pos = (some f, s') ∧ Granted s'.heap := by
  unfold addSetupPos
  dsimp only
  split
  · obtain ⟨h1, g'⟩ := baseSplitNode_granted (s := (s.pos pos true).2) g (s.pos pos true).1.idx
      (s.pos pos true).1.pos
    generalize baseSplitNode (s.pos pos true).2 (s.pos pos true).1.idx (s.pos pos true).1.pos = r
      at h1 g'
    obtain ⟨ok, s'⟩ := r
    obtain rfl : ok = true := h1
    exact ⟨_, s', rfl, g'⟩
  · exact ⟨_, _, rfl, g⟩

/-- Adding behind a node succeeds. -/
theorem addAt_granted (g : Granted s.heap) (f : Found) (pos len : Nat) :
    (addAt k s f pos len).1 = true := by
  obtain ⟨h1, -⟩ := rangeSpare_granted g s.base.conf k.type (allocNum len (k.max s.conf))
  unfold addAt
  dsimp only
  generalize rangeSpare s.heap s.base.conf k.type (allocNum len (k.max s.conf)) = r at h1
  obtain ⟨ok, h'⟩ := r
  obtain rfl : ok = true := h1
  split
  · rename_i e
    split at e <;> cases e
  · split
    · split <;> rfl
    · rfl

/-- The add functions succeed. -/
theorem addData_granted (g : Granted s.heap) (pos len : Nat) :
    (addData k s pos len).1 = true := by
  unfold addData
  split
  · obtain ⟨f, s', e, g'⟩ := addSetupPos_granted g pos
    unfold addAfter
    rw [e]
    exact addAt_granted g' f pos len
  · exact addFront_granted g len

/-! ## Deleting -/

theorem granted_relinkNodes (g : Granted h) (c : Nat) (run : List Node) :
    Granted (relinkNodes h c run) := by
  cases run with
  | nil => exact g
  | cons n ns => exact g

theorem granted_delNode (g : Granted h) (n : Node) : Granted (delNode h n) := by
  unfold delNode
  split
  · unfold refDel
    dsimp only
    split
    · unfold refFunc
      split <;> exact g
    · exact g
  · exact g

theorem granted_delEndLoop (g : Granted h) (c : Nat) (run ns : List Node) (len : Nat) :
    Granted (delEndLoop c run ns len h).2 := by
  induction ns generalizing h run len with
  | nil => exact granted_relinkNodes g c run
  | cons n ns ih =>
    rw [delEndLoop]
    split
    · exact granted_relinkNodes g c run
    · dsimp only
      split
      · exact ih (granted_relinkNodes (granted_delNode g n) c run) [n] _
      · exact ih (granted_delNode g n) (run ++ [n]) _

theorem granted_delFixLast (g : Granted s.heap) (idx num len : Nat) :
    Granted (delFixLast s idx num len).heap := by
  unfold delFixLast
  dsimp only
  split <;> exact g

theorem granted_delNodes (g : Granted s.heap) (f : Found) (len : Nat) :
    Granted (delNodes s f len).heap := by
  unfold delNodes
  split
  · exact granted_delFixLast g _ _ _
  · have g' := granted_delEndLoop g s.base.conf [] (s.base.nodes.drop (f.idx + 1)) len
    dsimp only
    split
    · exact granted_delFixLast g' _ _ _
    · exact g'

/-- A deletion inside a node succeeds. -/
theorem delMiddle_granted (g : Granted s.heap) (f : Found) (len : Nat) :
    (delMiddle s f len).1 = true ∧ Granted (delMiddle s f len).2.heap := by
  obtain ⟨h1, g'⟩ := baseSplitNode_granted g f.idx (f.pos + len)
  unfold delMiddle
  dsimp only
  generalize baseSplitNode s f.idx (f.pos + len) = r at h1 g'
  obtain ⟨ok, s'⟩ := r
  obtain rfl : ok = true := h1
  split
  · exact ⟨rfl, g⟩
  · split
    · exact ⟨rfl, g⟩
    · exact ⟨rfl, g'⟩
  · exact ⟨rfl, g'⟩

/-- So does one that leaves the first byte. -/
theorem delAfter_granted (g : Granted s.heap) (pos len origLen : Nat) :
    (delAfter s pos len origLen).1 = true ∧ Granted (delAfter s pos len origLen).2.heap := by
  unfold delAfter
  dsimp only
  split
  · obtain ⟨h1, g'⟩ := delMiddle_granted
      (s := { s with base := { s.base with len := sizeSub s.base.len len } }) g
      (basePos s.base pos false).1 len
    generalize delMiddle { s with base := { s.base with len := sizeSub s.base.len len } }
      (basePos s.base pos false).1 len = r at h1 g'
    obtain ⟨ok, s'⟩ := r
    obtain rfl : ok = true := h1
    exact ⟨rfl, g'⟩
  · refine ⟨rfl, ?_⟩
    dsimp only
    split
    · split <;> exact g
    · apply granted_delNodes
      split <;> exact g

/-- `vstr_del` needs no memory at the beginning, and succeeds if there is some. -/
theorem del_granted {pos len : Nat} (hg : pos = 1 ∨ Granted s.heap) (h1 : 1 ≤ pos)
    (hle : pos + len ≤ s.base.len + 1) :
    (del s pos len).1 = true ∧ (pos = 1 ∨ Granted (del s pos len).2.heap) := by
  unfold del delSum
  rw [if_neg (by omega)]
  split
  · exact ⟨rfl, hg⟩
  · rename_i h0
    have hext : (externDel s pos len).1 = true ∧
        (pos = 1 ∨ Granted (externDel s pos len).2.heap) := by
      have hmod : scPoslast pos len % 2 ^ 64 ≤ s.base.len := by
        have := Nat.mod_le (scPoslast pos len) (2 ^ 64)
        unfold scPoslast at this ⊢
        omega
      unfold externDel
      rw [if_neg (by omega)]
      split
      · have hpos : pos = 1 := by omega
        split <;> exact ⟨rfl, .inl hpos⟩
      · rcases hg with hpos | g
        · omega
        · obtain ⟨hd, g'⟩ := delAfter_granted g (pos - 1)
            (if (pos - 1 + len) % 2 ^ 64 ≥ s.base.len then s.base.len - (pos - 1) else len) len
          exact ⟨hd, .inr g'⟩
    split
    · split
      · rename_i hpos
        exact ⟨rfl, .inl hpos.1⟩
      · generalize (s.base.node (s.base.indexOf (s.base.endNode.getD 0))).len +
          (if (s.base.nodes.head?.map Node.id) = s.base.endNode then s.base.used else 0) = endLen
        dsimp only
        split
        · exact ⟨rfl, hg⟩
        · exact hext
    · exact hext

end Vstr
