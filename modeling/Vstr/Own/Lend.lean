import Vstr.Own.Nodes

/-!
# New references

A reference is made to memory that comes with it, to memory of the caller, or to the
buffer of a node that leaves its base. What holds a reference besides the nodes of a base
is part of the environment of the base, so making or dropping one changes it.
-/

namespace Vstr

open Memory

variable {E E' : Env} {P P' : Own} {h h' : Heap} {ns : List Node} {r : Nat}

/-- The uses `f` of references are held elsewhere, too. -/
def Env.hold (E : Env) (f : Nat → Nat) : Env := ⟨E.me, fun r => E.ext r + f r⟩

/-- One use of one reference. -/
def oneUse (r : Nat) : Nat → Nat := fun r' => if r = r' then 1 else 0

@[simp] theorem Env.hold_ext (E : Env) (f : Nat → Nat) (r : Nat) :
    (E.hold f).ext r = E.ext r + f r := rfl

@[simp] theorem oneUse_self (r : Nat) : oneUse r r = 1 := if_pos rfl

/-- How often the C string cache of a base holds the reference `r`. -/
def cstrHeld (b : Base) (r : Nat) : Nat :=
  match b.cstr with
  | none => 0
  | some data => if data.ref = some r then 1 else 0

/-- What is foreign stays foreign when more is held elsewhere. -/
theorem Foreign.mono {x : Blk} (hm : E'.me = E.me) (he : ∀ r, E.ext r ≤ E'.ext r)
    (hx : Foreign E P x) : Foreign E' P x := by
  rcases hx with hx | ⟨j, hj, hx⟩ | ⟨r, hx, hr⟩
  · exact .inl hx
  · exact .inr (.inl ⟨j, hm ▸ hj, hx⟩)
  · exact .inr (.inr ⟨r, hx, Nat.lt_of_lt_of_le hr (he r)⟩)

/-- A frame for more foreign blocks is one for fewer. -/
theorem Frame.mono (f : Frame E' P h P' h') (hm : E'.me = E.me) (he : ∀ r, E.ext r ≤ E'.ext r) :
    Frame E P h P' h' where
  next_le := f.next_le
  bufSz := f.bufSz
  splitBufDel := f.splitBufDel
  iovMinAlloc := f.iovMinAlloc
  iovMinOffset := f.iovMinOffset
  refPtr := f.refPtr
  place x hx := f.place x (hx.mono hm he)
  mem x hx := f.mem x (hx.mono hm he)
  size := f.size
  known := f.known

theorem Frame.unhold {f : Nat → Nat} (fr : Frame (E.hold f) P h P' h') : Frame E P h P' h' :=
  fr.mono rfl fun _ => Nat.le_add_right _ _

/-- The heap with a new reference. -/
def Heap.newRef (h : Heap) (ref : Ref) : Heap :=
  { h with next := h.next + 1, refs := Function.update h.refs h.next ref }

@[simp] theorem Heap.newRef_self (h : Heap) (ref : Ref) : (h.newRef ref).refs h.next = ref := by
  simp only [Heap.newRef, Function.update_self]

theorem Heap.newRef_of_ne (h : Heap) (ref : Ref) {r : Nat} (hr : r ≠ h.next) :
    (h.newRef ref).refs r = h.refs r := by
  simp only [Heap.newRef, Function.update_of_ne hr]

/-- A new reference that is in its place, or dead. -/
theorem HeapOk.newRef (ok : HeapOk P h) {ref : Ref} (hp : 0 < ref.ref → RefPlace P h.next ref) :
    HeapOk P (h.newRef ref) where
  spareNum := ok.spareNum
  spareNodup := ok.spareNodup
  spareOwn := ok.spareOwn
  fresh x hx := ok.fresh x (Nat.le_of_succ_le hx)
  refFresh r hr := by
    have hr' : h.next + 1 ≤ r := hr
    rw [h.newRef_of_ne ref (by omega)]
    exact ok.refFresh r (by omega)
  refOwn r hr := by
    by_cases e : r = h.next
    · subst e
      rw [h.newRef_self ref] at hr ⊢
      exact hp hr
    · rw [h.newRef_of_ne ref e] at hr ⊢
      exact ok.refOwn r hr

/-- Nobody holds a reference before it is made. -/
theorem Owned.unheld (ow : Owned E P h ns) (hr : h.next ≤ r) :
    E.ext r = 0 ∧ heldBy ns r = 0 := by
  have h1 := ow.refs r
  have h2 := ow.heap.refFresh r hr
  omega

/-- A live reference has been handed out. -/
theorem HeapOk.ref_lt (ok : HeapOk P h) (hr : 0 < (h.refs r).ref) : r < h.next := by
  by_contra hge
  have := ok.refFresh r (Nat.not_lt.mp hge)
  omega

/-- Live references point where they did, so nodes have their bytes where they had them. -/
theorem Owned.exportNodePtr (ow : Owned E P h ns) {m : Node} (hm : m ∈ ns)
    (hp : ∀ r, r < h.next → (h'.refs r).ptr = (h.refs r).ptr) :
    exportNodePtr h' m = exportNodePtr h m := by
  unfold Vstr.exportNodePtr
  cases hd : m.data with
  | ref r off =>
    have href : m.ref = some r := by simp only [Node.ref, hd]
    dsimp only
    rw [hp r (ow.heap.ref_lt (ow.ref_pos hm href))]
  | _ => rfl

/-- Bytes are the same as long as live references point where they did. -/
theorem Owned.flat_refPtr {ns' : List Node} (ow : Owned E P h ns) (hs : ∀ m ∈ ns', m ∈ ns)
    (hm : h'.mem = h.mem) (hp : ∀ r, r < h.next → (h'.refs r).ptr = (h.refs r).ptr) :
    flat h' ns' = flat h ns' := by
  apply flat_congr
  intro m hmem
  apply nodeBytes_congr (ow.exportNodePtr (hs m hmem) hp)
  intro p _
  rw [hm]

/-- The reference counts with a new reference that is held elsewhere. -/
theorem Owned.refs_newRef (ow : Owned E P h ns) (ref : Ref) :
    RefsOk (E.hold fun r => if h.next = r then ref.ref else 0).ext (h.newRef ref) ns := by
  intro r
  by_cases e : r = h.next
  · subst e
    obtain ⟨h1, h2⟩ := ow.unheld (Nat.le_refl h.next)
    rw [h.newRef_self ref, Env.hold_ext, if_pos rfl, h1, h2]
    omega
  · rw [h.newRef_of_ne ref e, Env.hold_ext, if_neg (Ne.symm e)]
    exact ow.refs r

/-- The frame of a new reference. -/
theorem frame_newRef (h : Heap) (ref : Ref) : Frame E P h P (h.newRef ref) where
  next_le := Nat.le_succ _
  bufSz _ := rfl
  splitBufDel _ := rfl
  iovMinAlloc _ := rfl
  iovMinOffset _ := rfl
  refPtr r hr := by rw [h.newRef_of_ne ref (Nat.ne_of_lt hr)]
  place _ _ := rfl
  mem _ _ := rfl
  size _ _ := rfl
  known _ hx := hx

/-! ## Memory that comes with its reference -/

/-- The block of the next reference is lent by it. -/
def Own.lendNext (P : Own) (n : Nat) : Own := Function.update P (.ext n) (.lent n)

theorem Own.lendNext_self (P : Own) (n : Nat) : P.lendNext n (.ext n) = .lent n :=
  Function.update_self _ _ _

theorem Own.lendNext_of_ne (P : Own) {n : Nat} {x : Blk} (hx : x ≠ .ext n) :
    P.lendNext n x = P x := Function.update_of_ne hx _ _

theorem Own.lendNext_of_known (P : Own) {n : Nat} {x : Blk} (hn : P (.ext n) = .none)
    (hx : P x ≠ .none) : P.lendNext n x = P x :=
  P.lendNext_of_ne fun e => hx (e ▸ hn)

theorem RefPlace.lendNext {n : Nat} {ref : Ref} (hn : P (.ext n) = .none) (hr : RefPlace P r ref) :
    RefPlace (P.lendNext n) r ref := by
  unfold RefPlace at hr ⊢
  split at hr
  · rcases hr with hr | hr
    · exact .inl ((P.lendNext_of_known hn (by rw [hr]; simp)).trans hr)
    · exact .inr ((P.lendNext_of_known hn (by rw [hr]; simp)).trans hr)
  · obtain ⟨ho, x, hx, hl⟩ := hr
    exact ⟨ho, x, hx, (P.lendNext_of_known hn (by rw [hl]; simp)).trans hl⟩

/-- What `vstr_ref_make_malloc` leaves when it succeeds. -/
def Heap.lendNext (h : Heap) (len : Nat) : Heap :=
  { h.malloc.2.newRef ⟨⟨.ext h.next, 0⟩, 1, .free⟩ with
    size := Function.update h.size (.ext h.next) len }

theorem Owned.lendNext (ow : Owned E P h ns) (len : Nat) :
    Owned (E.hold (oneUse h.next)) (P.lendNext h.next) (h.lendNext len) ns := by
  have hn : P (.ext h.next) = .none := (ow.heap.fresh h.next (Nat.le_refl _)).2
  refine ⟨⟨ow.heap.spareNum, ow.heap.spareNodup, fun c ty x hx => ?_, fun x hx => ?_,
    fun r hr => ?_, fun r hr => ?_⟩, ?_, ?_⟩
  · rw [P.lendNext_of_ne (by simp)]
    exact ow.heap.spareOwn c ty x hx
  · have hx' : h.next + 1 ≤ x := hx
    have hf := ow.heap.fresh x (by omega)
    refine ⟨by rw [P.lendNext_of_ne (by simp)]; exact hf.1, ?_⟩
    rw [P.lendNext_of_ne (by simp; omega)]
    exact hf.2
  · have hr' : h.next + 1 ≤ r := hr
    change ((h.malloc.2.newRef _).refs r).ref = 0
    rw [h.malloc.2.newRef_of_ne _ (show r ≠ h.next by omega)]
    exact ow.heap.refFresh r (by omega)
  · change RefPlace _ r ((h.malloc.2.newRef ⟨⟨.ext h.next, 0⟩, 1, .free⟩).refs r)
    change 0 < ((h.malloc.2.newRef ⟨⟨.ext h.next, 0⟩, 1, .free⟩).refs r).ref at hr
    by_cases e : r = h.next
    · rw [e]
      rw [show (h.malloc.2.newRef ⟨⟨.ext h.next, 0⟩, 1, .free⟩).refs h.next =
        ⟨⟨.ext h.next, 0⟩, 1, .free⟩ from h.malloc.2.newRef_self _]
      exact .inr (P.lendNext_self h.next)
    · rw [h.malloc.2.newRef_of_ne _ (show r ≠ h.malloc.2.next from e)] at hr ⊢
      exact (ow.heap.refOwn r hr).lendNext hn
  · exact ow.nodes.of_place fun x i hx => (P.lendNext_of_known hn (by rw [hx]; simp)).trans hx
  · exact ow.refs_newRef ⟨⟨.ext h.next, 0⟩, 1, .free⟩

theorem HeapOk.frame_lendNext (ok : HeapOk P h) (len : Nat) :
    Frame E P h (P.lendNext h.next) (h.lendNext len) := by
  have hn : P (.ext h.next) = .none := (ok.fresh h.next (Nat.le_refl _)).2
  refine ⟨Nat.le_succ _, fun _ => rfl, fun _ => rfl, fun _ => rfl, fun _ => rfl, fun r hr => ?_,
    fun x hx => ?_, fun _ _ => rfl, fun x hx => ?_, fun x hx => ?_⟩
  · exact congrArg Ref.ptr (h.malloc.2.newRef_of_ne _ (Nat.ne_of_lt hr))
  · apply P.lendNext_of_known hn
    intro e
    exact not_foreign_of_none e hx
  · change Function.update h.size (.ext h.next) len x = h.size x
    rw [Function.update_of_ne]
    rintro rfl
    exact hx hn
  · rw [P.lendNext_of_known hn hx]
    exact hx

/-- `vstr_ref_make_malloc`. -/
theorem refMakeMalloc_cases (h : Heap) (len : Nat) :
    refMakeMalloc h len = (none, h.malloc.2) ∨
      refMakeMalloc h len = (some h.next, h.lendNext len) := by
  unfold refMakeMalloc
  split
  · rename_i h1 hm
    exact .inl (by rw [hm])
  · rename_i h1 hm
    have e : h1 = h.malloc.2 := by rw [hm]
    subst e
    exact .inr rfl

/-- `vstr__ref_grp_add`. -/
theorem refGrpAdd_cases (h : Heap) (ptr : Addr) (func : RefFunc) :
    refGrpAdd h ptr func = (none, h.malloc.2) ∨
      refGrpAdd h ptr func = (some h.next, h.malloc.2.newRef ⟨ptr, 1, func⟩) := by
  unfold refGrpAdd
  split
  · rename_i h1 hm
    exact .inl (by rw [hm])
  · rename_i h1 hm
    have e : h1 = h.malloc.2 := by rw [hm]
    subst e
    exact .inr rfl

/-! ## The buffer of a node that leaves its base -/

/-- The buffer of a node is lent by a reference that is not made yet. -/
theorem HeapOk.lend (ok : HeapOk P h) {i j : Nat} (hi : P (.node i) = .base j) (r : Nat) :
    HeapOk (P.give [i] (.lent r)) h where
  spareNum := ok.spareNum
  spareNodup := ok.spareNodup
  spareOwn c ty x hx := by
    rw [P.give_not_mem]
    · exact ok.spareOwn c ty x hx
    · intro hm
      rw [List.mem_singleton] at hm
      have := ok.spareOwn c ty x hx
      rw [hm, hi] at this
      cases this
  fresh x hx := by
    refine ⟨?_, (ok.fresh x hx).2⟩
    rw [P.give_not_mem]
    · exact (ok.fresh x hx).1
    · intro hm
      rw [List.mem_singleton] at hm
      have := (ok.fresh x hx).1
      rw [hm, hi] at this
      cases this
  refFresh := ok.refFresh
  refOwn r' hr := by
    apply (ok.refOwn r' hr).give
    intro x hx
    rw [List.mem_singleton.mp hx, hi]
    simp

/-- One more use of a live reference. -/
theorem Owned.refAdd (ow : Owned E P h ns) (hr : 0 < (h.refs r).ref) :
    Owned (E.hold (oneUse r)) P (refAdd h r) ns where
  heap := ow.heap.refAdd hr
  nodes := ow.nodes
  refs r' := by
    have := ow.refs r'
    rw [refAdd_ref, Env.hold_ext, oneUse]
    omega

/-- One use of a reference less. -/
theorem Owned.refDel (ow : Owned (E.hold (oneUse r)) P h ns) :
    ∃ P', Owned E P' (refDel h r) ns ∧ Frame E P h P' (refDel h r) := by
  have hc := ow.refs r
  rw [Env.hold_ext, oneUse_self] at hc
  obtain ⟨P', ok, fr, hP⟩ := ow.heap.refDel (E := E) (r := r) (by omega) (fun _ => by omega)
  refine ⟨P', ⟨ok, ow.nodes.of_place fun x i hx => ?_, fun r' => ?_⟩, fr⟩
  · rw [hP x (by rw [hx]; simp), hx]
  · have := ow.refs r'
    rw [refDel_ref]
    rw [Env.hold_ext, oneUse] at this
    omega

end Vstr
