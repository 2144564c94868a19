import Vstr.Edit.Split

/-!
# Where runs start

A heap that nothing was asked of yet, but for memory of the caller and references to it,
and a string that was just made.
-/

namespace Vstr

open Memory

/-- A heap with memory of the caller, no nodes and one configuration for all. -/
def bareHeap (mem : Mem Blk UInt8) (refs : Nat → Ref) (next : Nat) (conf : Conf)
    (grant : Nat → Bool) : Heap :=
  { mem
    size := fun _ => 0
    refs
    confs := fun _ => conf
    next
    grant
    tick := 0 }

/-- A configuration without spare nodes. -/
def bareConf (bufSz : Nat) (splitBufDel : Bool) : Conf :=
  { bufSz
    splitBufDel
    iovMinAlloc := 0
    iovMinOffset := 0
    spare := fun _ => []
    spareNum := fun _ => 0
    mallocBad := false }

/-- Every block handed out so far belongs to the caller. -/
def bareOwn (next : Nat) : Own
  | .node _ => .none
  | .ext x => if x < next then .user else .none

/-- References into memory of the caller. -/
def UserRefs (next : Nat) (refs : Nat → Ref) : Prop :=
  ∀ r, 0 < (refs r).ref → r < next ∧ (refs r).func = .free ∧
    ∃ x, (refs r).ptr.blk = .ext x ∧ x < next

theorem heapOk_bare {mem : Mem Blk UInt8} {refs : Nat → Ref} {next bufSz : Nat}
    {splitBufDel : Bool} {grant : Nat → Bool} (hr : UserRefs next refs) :
    HeapOk (bareOwn next) (bareHeap mem refs next (bareConf bufSz splitBufDel) grant) where
  spareNum _ _ := rfl
  spareNodup _ _ := List.nodup_nil
  spareOwn _ _ x hx := by cases hx
  fresh x hx := ⟨rfl, if_neg (Nat.not_lt.mpr hx)⟩
  refFresh r hle := by
    by_contra hne
    have := (hr r (Nat.pos_of_ne_zero hne)).1
    change next ≤ r at hle
    omega
  refOwn r hpos := by
    obtain ⟨-, hfunc, x, hx, hlt⟩ := hr r hpos
    change RefPlace (bareOwn next) r (refs r)
    unfold RefPlace
    rw [hfunc, hx]
    exact .inl (if_pos hlt)

/-- A string that was just made. -/
theorem sound_initBase {E : Env} {P : Own} {h : Heap} (ok : HeapOk P h)
    (hr : ∀ r, (h.refs r).ref = E.ext r) {conf : Nat} (h0 : 0 < (h.confs conf).bufSz)
    (h1 : (h.confs conf).bufSz ≤ maxNodeBuf) (cacheAvailable : Bool) (vec : Option IovecData) :
    Sound E P ⟨h, initBase h conf cacheAvailable vec⟩ where
  owned := ⟨ok, ⟨List.nodup_nil, fun m hm => by cases hm⟩, fun r => by rw [hr r]; rfl⟩
  valid :=
    { len := rfl
      num := rfl
      endNode := rfl
      pos := fun m hm => by cases hm
      used := fun h => absurd rfl h
      flags := fun m hm => by cases hm
      buf := fun m hm => by cases hm
      max := fun m hm => by cases hm }
  bufSz_pos := h0
  bufSz_le := h1

/-- Memory of the caller: one block with this text, from an offset on. -/
def textMem (text : List UInt8) (off : Nat) : Mem Blk UInt8
  | .ext 0, o => if o < off then 0 else text.getD (o - off) 0
  | _, _ => 0

/-- One reference, to the text. -/
def textRef (count r : Nat) : Ref := ⟨⟨.ext 0, 0⟩, if r = 0 then count else 0, .free⟩

theorem userRefs_text (count : Nat) : UserRefs 1 (textRef count) := by
  intro r hr
  have h0 : r = 0 := by
    by_contra hne
    simp [textRef, hne] at hr
  exact ⟨by omega, rfl, 0, rfl, Nat.one_pos⟩

end Vstr
