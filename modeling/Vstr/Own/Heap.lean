import Vstr.Spec.Ownership

/-!
# Spare lists, references and their places

One lemma for each way a block changes its place: nodes are made, taken from a spare
list, or put back, and references are made, taken and dropped. Each says what the new
assignment of places is, and that foreign blocks are left alone.
-/

namespace Vstr

open Memory

variable {E : Env} {P : Own} {h h' : Heap} {c : Nat} {ty : NodeType} {ids : List Nat}

/-- Heaps that differ at most in spare lists, reference counts and bookkeeping. -/
structure Like (h h' : Heap) : Prop where
  /-- The same blocks are handed out. -/
  next : h'.next = h.next
  /-- The same bytes. -/
  mem : h'.mem = h.mem
  /-- The same sizes. -/
  size : h'.size = h.size
  /-- The same buffer sizes. -/
  bufSz : ∀ c, (h'.confs c).bufSz = (h.confs c).bufSz
  /-- The same `split_buf_del`. -/
  splitBufDel : ∀ c, (h'.confs c).splitBufDel = (h.confs c).splitBufDel
  /-- The same `iov_min_alloc`. -/
  iovMinAlloc : ∀ c, (h'.confs c).iovMinAlloc = (h.confs c).iovMinAlloc
  /-- The same `iov_min_offset`. -/
  iovMinOffset : ∀ c, (h'.confs c).iovMinOffset = (h.confs c).iovMinOffset
  /-- References point where they did. -/
  refPtr : ∀ r, (h'.refs r).ptr = (h.refs r).ptr

theorem Like.refl (h : Heap) : Like h h :=
  ⟨rfl, rfl, rfl, fun _ => rfl, fun _ => rfl, fun _ => rfl, fun _ => rfl, fun _ => rfl⟩

theorem Like.trans {h'' : Heap} (f : Like h h') (g : Like h' h'') : Like h h'' where
  next := g.next.trans f.next
  mem := g.mem.trans f.mem
  size := g.size.trans f.size
  bufSz c := (g.bufSz c).trans (f.bufSz c)
  splitBufDel c := (g.splitBufDel c).trans (f.splitBufDel c)
  iovMinAlloc c := (g.iovMinAlloc c).trans (f.iovMinAlloc c)
  iovMinOffset c := (g.iovMinOffset c).trans (f.iovMinOffset c)
  refPtr r := (g.refPtr r).trans (f.refPtr r)

/-- Giving away blocks that are not foreign, in such a heap, is within the frame. -/
theorem Like.frame {o : Place} (f : Like h h') (hids : ∀ i ∈ ids, ¬ Foreign E P (.node i))
    (ho : o ≠ .none) : Frame E P h (P.give ids o) h' where
  next_le := Nat.le_of_eq f.next.symm
  bufSz := f.bufSz
  splitBufDel := f.splitBufDel
  iovMinAlloc := f.iovMinAlloc
  iovMinOffset := f.iovMinOffset
  refPtr r _ := f.refPtr r
  place x hx := P.give_of_ne o fun i hi e => hids i hi (e ▸ hx)
  mem x _ := by rw [f.mem]
  size x _ := by rw [f.size]
  known x hx := by
    rcases P.give_eq_or ids o x with ⟨i, -, -, e⟩ | e
    · rw [e]; exact ho
    · rw [e]; exact hx

theorem Own.give_nil (P : Own) (o : Place) : P.give [] o = P := by
  funext x
  exact P.give_of_ne o fun i hi => absurd hi List.not_mem_nil

/-- A heap that only differs in bookkeeping is within the frame. -/
theorem Like.frame_same (f : Like h h') : Frame E P h P h' := by
  have hf : Frame E P h (P.give [] .user) h' :=
    f.frame (fun i hi => absurd hi List.not_mem_nil) (by simp)
  rwa [Own.give_nil] at hf

/-- A block that is handed out and not spare. -/
def Solid (P : Own) (x : Blk) : Prop := P x ≠ .none ∧ ∀ c ty, P x ≠ .spare c ty

/-- Blocks only leave spare lists or are handed out. -/
def Grows (P P' : Own) : Prop := ∀ x, Solid P x → P' x = P x

theorem Grows.trans {P' P'' : Own} (f : Grows P P') (g : Grows P' P'') : Grows P P'' := by
  intro x hx
  have h1 := f x hx
  rw [g x (by unfold Solid; rw [h1]; exact hx), h1]

theorem Grows.solid {P' : Own} (f : Grows P P') {x : Blk} (hx : Solid P x) : Solid P' x := by
  unfold Solid
  rw [f x hx]
  exact hx

theorem solid_of_base {x : Blk} {i : Nat} (hx : P x = .base i) : Solid P x := by
  unfold Solid
  rw [hx]
  simp

theorem solid_of_foreign {x : Blk} (hx : Foreign E P x) : Solid P x := by
  unfold Solid
  rcases hx with hx | ⟨j, -, hx⟩ | ⟨r, hx, -⟩ <;> rw [hx] <;> simp

/-- A live reference points to memory that is neither spare nor fresh. -/
theorem HeapOk.solid_ref {h : Heap} {r : Nat} (ok : HeapOk P h) (hr : 0 < (h.refs r).ref) :
    Solid P (h.refs r).ptr.blk := by
  have hp := ok.refOwn r hr
  unfold RefPlace at hp
  unfold Solid
  split at hp
  · rcases hp with hp | hp <;> rw [hp] <;> simp
  · obtain ⟨-, x, hx, hp⟩ := hp
    rw [hx, hp]
    simp

/-- A node of the base is not foreign. -/
theorem not_foreign_of_base {x : Blk} (hx : P x = .base E.me) : ¬ Foreign E P x := by
  rintro (h | ⟨j, hj, h⟩ | ⟨r, h, -⟩)
  · rw [hx] at h; cases h
  · rw [hx] at h; cases h; exact hj rfl
  · rw [hx] at h; cases h

/-- A spare node is not foreign. -/
theorem not_foreign_of_spare {x : Blk} (hx : P x = .spare c ty) : ¬ Foreign E P x := by
  rintro (h | ⟨j, -, h⟩ | ⟨r, h, -⟩) <;> rw [hx] at h <;> cases h

/-- A block that is not handed out is not foreign. -/
theorem not_foreign_of_none {x : Blk} (hx : P x = .none) : ¬ Foreign E P x := by
  rintro (h | ⟨j, -, h⟩ | ⟨r, h, -⟩) <;> rw [hx] at h <;> cases h

/-! ## Field lemmas -/

theorem setConf_confs (h : Heap) (c c' : Nat) (k : Conf) :
    (h.setConf c k).confs c' = if c' = c then k else h.confs c' := by
  simp only [Heap.setConf, Function.update_apply]

theorem pushSpare_spare (h : Heap) (c c' : Nat) (ty ty' : NodeType) (ids : List Nat) :
    ((h.pushSpare c ty ids).confs c').spare ty' =
      if c' = c ∧ ty' = ty then ids ++ (h.confs c).spare ty else (h.confs c').spare ty' := by
  rw [Heap.pushSpare, setConf_confs]
  by_cases hc : c' = c
  · subst hc
    by_cases ht : ty' = ty
    · simp [ht]
    · simp [ht]
  · simp [hc]

theorem pushSpare_spareNum (h : Heap) (c c' : Nat) (ty ty' : NodeType) (ids : List Nat) :
    ((h.pushSpare c ty ids).confs c').spareNum ty' =
      if c' = c ∧ ty' = ty then (h.confs c).spareNum ty + ids.length
      else (h.confs c').spareNum ty' := by
  rw [Heap.pushSpare, setConf_confs]
  by_cases hc : c' = c
  · subst hc
    by_cases ht : ty' = ty
    · simp [ht]
    · simp [ht]
  · simp [hc]

theorem dropSpare_spare (h : Heap) (c c' : Nat) (ty ty' : NodeType) (n : Nat) :
    ((h.dropSpare c ty n).confs c').spare ty' =
      if c' = c ∧ ty' = ty then ((h.confs c).spare ty).drop n else (h.confs c').spare ty' := by
  rw [Heap.dropSpare, setConf_confs]
  by_cases hc : c' = c
  · subst hc
    by_cases ht : ty' = ty
    · simp [ht]
    · simp [ht]
  · simp [hc]

theorem dropSpare_spareNum (h : Heap) (c c' : Nat) (ty ty' : NodeType) (n : Nat) :
    ((h.dropSpare c ty n).confs c').spareNum ty' =
      if c' = c ∧ ty' = ty then (h.confs c).spareNum ty - n
      else (h.confs c').spareNum ty' := by
  rw [Heap.dropSpare, setConf_confs]
  by_cases hc : c' = c
  · subst hc
    by_cases ht : ty' = ty
    · simp [ht]
    · simp [ht]
  · simp [hc]

/-- Changing only the spare lists and the `malloc_bad` flag of a configuration. -/
theorem like_setConf (h : Heap) (c : Nat) (k : Conf) (hb : k.bufSz = (h.confs c).bufSz)
    (hs : k.splitBufDel = (h.confs c).splitBufDel)
    (ha : k.iovMinAlloc = (h.confs c).iovMinAlloc)
    (ho : k.iovMinOffset = (h.confs c).iovMinOffset) : Like h (h.setConf c k) where
  next := rfl
  mem := rfl
  size := rfl
  bufSz c' := by
    rw [setConf_confs]; split
    · rename_i e; rw [e, hb]
    · rfl
  splitBufDel c' := by
    rw [setConf_confs]; split
    · rename_i e; rw [e, hs]
    · rfl
  iovMinAlloc c' := by
    rw [setConf_confs]; split
    · rename_i e; rw [e, ha]
    · rfl
  iovMinOffset c' := by
    rw [setConf_confs]; split
    · rename_i e; rw [e, ho]
    · rfl
  refPtr _ := rfl

theorem like_pushSpare (h : Heap) (c : Nat) (ty : NodeType) (ids : List Nat) :
    Like h (h.pushSpare c ty ids) := like_setConf h c _ rfl rfl rfl rfl

theorem like_dropSpare (h : Heap) (c : Nat) (ty : NodeType) (n : Nat) :
    Like h (h.dropSpare c ty n) := like_setConf h c _ rfl rfl rfl rfl

theorem like_mallocBad (h : Heap) (c : Nat) : Like h (h.mallocBad c) :=
  like_setConf h c _ rfl rfl rfl rfl

theorem like_malloc (h : Heap) : Like h h.malloc.2 :=
  ⟨rfl, rfl, rfl, fun _ => rfl, fun _ => rfl, fun _ => rfl, fun _ => rfl, fun _ => rfl⟩

/-- Changing a reference without moving its pointer. -/
theorem like_setRef (h : Heap) (r : Nat) (ref : Ref) (hp : ref.ptr = (h.refs r).ptr) :
    Like h (h.setRef r ref) where
  next := rfl
  mem := rfl
  size := rfl
  bufSz _ := rfl
  splitBufDel _ := rfl
  iovMinAlloc _ := rfl
  iovMinOffset _ := rfl
  refPtr r' := by
    simp only [Heap.setRef, Function.update_apply]
    split
    · rename_i e; rw [e, hp]
    · rfl

theorem like_refAdd (h : Heap) (r : Nat) : Like h (refAdd h r) := like_setRef h r _ rfl

theorem like_refFunc (h : Heap) (ref : Ref) : Like h (refFunc h ref) := by
  unfold refFunc
  split
  · exact like_pushSpare h _ _ _
  · exact Like.refl h

theorem like_refDel (h : Heap) (r : Nat) : Like h (refDel h r) := by
  unfold refDel
  dsimp only
  split
  · refine Like.trans ?_ (like_refFunc _ _)
    exact like_setRef h r _ rfl
  · exact like_setRef h r _ rfl

theorem like_delNode (h : Heap) (n : Node) : Like h (delNode h n) := by
  unfold delNode
  split
  · exact like_refDel h _
  · exact Like.refl h

theorem like_relinkNodes (h : Heap) (c : Nat) (run : List Node) :
    Like h (relinkNodes h c run) := by
  unfold relinkNodes
  split
  · exact Like.refl h
  · exact like_pushSpare h c _ _

/-! ## Places -/

/-- A node nobody has a claim on. -/
structure Loose (P : Own) (h : Heap) (i : Nat) : Prop where
  /-- It was handed out once. -/
  lt : i < h.next
  /-- It is not spare. -/
  not_spare : ∀ c ty, P (.node i) ≠ .spare c ty
  /-- It is not memory of the caller. -/
  not_user : P (.node i) ≠ .user
  /-- It is not lent by a live reference. -/
  not_lent : ∀ r, P (.node i) = .lent r → (h.refs r).ref = 0

/-- A node of a base can be put on a spare list. -/
theorem HeapOk.loose_base (ok : HeapOk P h) {i j : Nat} (hi : P (.node i) = .base j) :
    Loose P h i where
  lt := by
    by_contra hlt
    have := (ok.fresh i (by omega)).1
    rw [hi] at this
    cases this
  not_spare c ty e := by rw [hi] at e; cases e
  not_user e := by rw [hi] at e; cases e
  not_lent r e := by rw [hi] at e; cases e

/-- A reference whose block is not given away stays in its place. -/
theorem RefPlace.give {r : Nat} {ref : Ref} {o : Place} (hr : RefPlace P r ref)
    (hids : ∀ i ∈ ids, P (.node i) ≠ .user ∧ P (.node i) ≠ .lent r) :
    RefPlace (P.give ids o) r ref := by
  have key : ∀ x : Blk, P x = .user ∨ P x = .lent r → P.give ids o x = P x := by
    intro x hx
    apply P.give_of_ne
    rintro i hi rfl
    rcases hx with hx | hx
    · exact (hids i hi).1 hx
    · exact (hids i hi).2 hx
  unfold RefPlace at hr ⊢
  split at hr
  · rw [key _ hr]
    exact hr
  · obtain ⟨hoff, x, hx, hl⟩ := hr
    exact ⟨hoff, x, hx, (key _ (.inr hl)).trans hl⟩

/-- Nodes nobody has a claim on go to a spare list. -/
theorem HeapOk.pushSpare (ok : HeapOk P h) (hd : ids.Nodup) (hl : ∀ i ∈ ids, Loose P h i) :
    HeapOk (P.give ids (.spare c ty)) (h.pushSpare c ty ids) where
  spareNum c' ty' := by
    rw [pushSpare_spareNum, pushSpare_spare]
    split
    · rw [ok.spareNum, List.length_append, Nat.add_comm]
    · exact ok.spareNum c' ty'
  spareNodup c' ty' := by
    rw [pushSpare_spare]
    split
    · refine List.nodup_append.mpr ⟨hd, ok.spareNodup c ty, ?_⟩
      rintro x hx y hy rfl
      exact (hl x hx).not_spare c ty (ok.spareOwn c ty x hy)
    · exact ok.spareNodup c' ty'
  spareOwn c' ty' x hx := by
    rw [pushSpare_spare] at hx
    by_cases hi : x ∈ ids
    · rw [P.give_mem _ hi]
      split at hx
      · rename_i e; rw [e.1, e.2]
      · exact absurd (ok.spareOwn c' ty' x hx) ((hl x hi).not_spare c' ty')
    · rw [P.give_not_mem _ hi]
      split at hx
      · rename_i e
        rw [e.1, e.2]
        rcases List.mem_append.mp hx with hx | hx
        · exact absurd hx hi
        · exact ok.spareOwn c ty x hx
      · exact ok.spareOwn c' ty' x hx
  fresh x hx := by
    have hn : x ∉ ids := fun hi => absurd (hl x hi).lt (Nat.not_lt.mpr hx)
    rw [P.give_not_mem _ hn]
    exact ok.fresh x hx
  refFresh := ok.refFresh
  refOwn r hc := by
    apply (ok.refOwn r hc).give
    intro i hi
    refine ⟨(hl i hi).not_user, fun e => ?_⟩
    exact absurd ((hl i hi).not_lent r e) (Nat.pos_iff_ne_zero.mp hc)

/-- The first nodes of a spare list become nodes of a base. -/
theorem HeapOk.dropSpare (ok : HeapOk P h) (k me : Nat) :
    HeapOk (P.give (((h.confs c).spare ty).take k) (.base me)) (h.dropSpare c ty k) where
  spareNum c' ty' := by
    rw [dropSpare_spareNum, dropSpare_spare]
    split
    · rw [ok.spareNum, List.length_drop]
    · exact ok.spareNum c' ty'
  spareNodup c' ty' := by
    rw [dropSpare_spare]
    split
    · exact (ok.spareNodup c ty).sublist (List.drop_sublist _ _)
    · exact ok.spareNodup c' ty'
  spareOwn c' ty' x hx := by
    rw [dropSpare_spare] at hx
    split at hx
    · rename_i e
      rw [P.give_not_mem, e.1, e.2]
      · exact ok.spareOwn c ty x (List.mem_of_mem_drop hx)
      · exact fun ht => List.disjoint_take_drop (ok.spareNodup c ty) (Nat.le_refl k) ht hx
    · rename_i e
      rw [P.give_not_mem]
      · exact ok.spareOwn c' ty' x hx
      · intro ht
        have h1 := ok.spareOwn c ty x (List.mem_of_mem_take ht)
        rw [ok.spareOwn c' ty' x hx] at h1
        cases h1
        exact e ⟨rfl, rfl⟩
  fresh x hx := by
    rw [P.give_not_mem]
    · exact ok.fresh x hx
    · intro ht
      have h1 := ok.spareOwn c ty x (List.mem_of_mem_take ht)
      rw [(ok.fresh x hx).1] at h1
      cases h1
  refFresh := ok.refFresh
  refOwn r hc := by
    apply (ok.refOwn r hc).give
    intro i hi
    have h1 := ok.spareOwn c ty i (List.mem_of_mem_take hi)
    constructor <;> rw [h1] <;> simp

/-- Bookkeeping that touches neither spare lists nor references. -/
theorem HeapOk.congr (ok : HeapOk P h) (hs : ∀ c, (h'.confs c).spare = (h.confs c).spare)
    (hn : ∀ c, (h'.confs c).spareNum = (h.confs c).spareNum) (hx : h'.next = h.next)
    (hr : h'.refs = h.refs) : HeapOk P h' where
  spareNum c ty := by rw [hs, hn]; exact ok.spareNum c ty
  spareNodup c ty := by rw [hs]; exact ok.spareNodup c ty
  spareOwn c ty := by rw [hs]; exact ok.spareOwn c ty
  fresh := by rw [hx]; exact ok.fresh
  refFresh := by rw [hx, hr]; exact ok.refFresh
  refOwn := by rw [hr]; exact ok.refOwn

theorem HeapOk.mallocBad (ok : HeapOk P h) (c : Nat) : HeapOk P (h.mallocBad c) := by
  refine ok.congr (fun c' => ?_) (fun c' => ?_) rfl rfl
  · rw [Heap.mallocBad, setConf_confs]; split
    · rename_i e; rw [e]
    · rfl
  · rw [Heap.mallocBad, setConf_confs]; split
    · rename_i e; rw [e]
    · rfl

theorem HeapOk.malloc (ok : HeapOk P h) : HeapOk P h.malloc.2 :=
  ok.congr (fun _ => rfl) (fun _ => rfl) rfl rfl

theorem HeapOk.setMem (ok : HeapOk P h) (m : Mem Blk UInt8) : HeapOk P (h.setMem m) :=
  ok.congr (fun _ => rfl) (fun _ => rfl) rfl rfl

/-- A reference may be counted differently as long as a dead one stays dead. -/
theorem HeapOk.setRef (ok : HeapOk P h) {r : Nat} {ref : Ref} (hp : ref.ptr = (h.refs r).ptr)
    (hf : ref.func = (h.refs r).func) (hc : 0 < ref.ref → 0 < (h.refs r).ref) :
    HeapOk P (h.setRef r ref) where
  spareNum := ok.spareNum
  spareNodup := ok.spareNodup
  spareOwn := ok.spareOwn
  fresh := ok.fresh
  refFresh r' hr' := by
    have h0 := ok.refFresh r' hr'
    simp only [Heap.setRef, Function.update_apply]
    split
    · rename_i e
      subst e
      by_contra hne
      exact absurd h0 (Nat.pos_iff_ne_zero.mp (hc (Nat.pos_iff_ne_zero.mpr hne)))
    · exact h0
  refOwn r' hc' := by
    simp only [Heap.setRef, Function.update_apply] at hc' ⊢
    split
    · rename_i e
      subst e
      rw [if_pos rfl] at hc'
      have h1 := ok.refOwn r' (hc hc')
      unfold RefPlace at h1 ⊢
      rw [hf, hp]
      exact h1
    · rename_i e
      rw [if_neg e] at hc'
      exact ok.refOwn r' hc'

theorem HeapOk.refAdd (ok : HeapOk P h) {r : Nat} (hr : 0 < (h.refs r).ref) :
    HeapOk P (refAdd h r) := ok.setRef rfl rfl fun _ => hr

/-! ## Counting references -/

@[simp] theorem heldBy_nil (r : Nat) : heldBy [] r = 0 := rfl

theorem heldBy_cons (n : Node) (ns : List Node) (r : Nat) :
    heldBy (n :: ns) r = heldBy ns r + if n.ref = some r then 1 else 0 := by
  simp only [heldBy, List.countP_cons, decide_eq_true_eq]

@[simp] theorem heldBy_append (a b : List Node) (r : Nat) :
    heldBy (a ++ b) r = heldBy a r + heldBy b r := List.countP_append

theorem refAdd_ref (h : Heap) (r r' : Nat) :
    ((refAdd h r).refs r').ref = (h.refs r').ref + if r = r' then 1 else 0 := by
  simp only [refAdd, Heap.setRef, Function.update_apply]
  by_cases e : r' = r
  · subst e; simp
  · rw [if_neg e, if_neg (Ne.symm e), Nat.add_zero]

theorem refFunc_refs (h : Heap) (ref : Ref) : (refFunc h ref).refs = h.refs := by
  unfold refFunc
  split
  · rfl
  · rfl

theorem refDel_ref (h : Heap) (r r' : Nat) :
    ((refDel h r).refs r').ref = (h.refs r').ref - if r = r' then 1 else 0 := by
  have key : (refDel h r).refs =
      Function.update h.refs r { h.refs r with ref := (h.refs r).ref - 1 } := by
    unfold refDel
    dsimp only
    split
    · rw [refFunc_refs]; rfl
    · rfl
  rw [key, Function.update_apply]
  by_cases e : r' = r
  · subst e; simp
  · rw [if_neg e, if_neg (Ne.symm e), Nat.sub_zero]

/-- What happens when the last reference goes. -/
theorem refFunc_cases (h : Heap) (ref : Ref) :
    refFunc h ref = h ∨ ∃ c x, ref.func = .relink c ∧ ref.ptr.blk = .node x ∧
      refFunc h ref = h.pushSpare c .buf [x] := by
  unfold refFunc
  split
  · rename_i c x hf hb
    exact .inr ⟨c, x, hf, hb, rfl⟩
  · exact .inl rfl

/-- Dropping a live reference: its block goes back when it was the last one. -/
theorem HeapOk.refDel (ok : HeapOk P h) {r : Nat} (hr : 0 < (h.refs r).ref)
    (hext : (h.refs r).ref = 1 → E.ext r = 0) :
    ∃ P', HeapOk P' (refDel h r) ∧ Frame E P h P' (refDel h r) ∧
      ∀ x, P x ≠ .lent r → P' x = P x := by
  have hset : HeapOk P (h.setRef r { h.refs r with ref := (h.refs r).ref - 1 }) :=
    ok.setRef rfl rfl fun _ => hr
  have hlike : Like h (h.setRef r { h.refs r with ref := (h.refs r).ref - 1 }) :=
    like_setRef h r _ rfl
  unfold Vstr.refDel
  dsimp only at hset hlike ⊢
  split
  · rename_i h0
    rcases refFunc_cases (h.setRef r { h.refs r with ref := (h.refs r).ref - 1 })
      { h.refs r with ref := (h.refs r).ref - 1 } with e | ⟨c, x, hf, hx, e⟩
    · rw [e]
      exact ⟨P, hset, hlike.frame_same, fun _ _ => rfl⟩
    · have hplace := ok.refOwn r hr
      simp only at hf hx
      simp only [RefPlace, hf] at hplace
      obtain ⟨-, y, hy, hl⟩ := hplace
      obtain rfl : x = y := by rw [hx] at hy; cases hy; rfl
      rw [e]
      refine ⟨P.give [x] (.spare c .buf), ?_, ?_, ?_⟩
      · apply hset.pushSpare (by simp)
        intro i hi
        rw [List.mem_singleton.mp hi]
        refine ⟨?_, fun c ty e => ?_, fun e => ?_, fun r' e => ?_⟩
        · by_contra hlt
          have := (ok.fresh x (Nat.not_lt.mp hlt)).1
          rw [hl] at this
          cases this
        · rw [hl] at e; cases e
        · rw [hl] at e; cases e
        · rw [hl] at e; cases e
          simp only [Heap.setRef, Function.update_self]
          exact h0
      · apply (hlike.trans (like_pushSpare _ _ _ _)).frame _ (by simp)
        intro i hi
        rw [List.mem_singleton.mp hi]
        rintro (e | ⟨j, -, e⟩ | ⟨r', e, hr'⟩) <;> rw [hl] at e <;> cases e
        have := hext (by omega)
        omega
      · intro z hz
        apply P.give_of_ne
        rintro i hi rfl
        rw [List.mem_singleton.mp hi] at hz
        exact hz hl
  · exact ⟨P, hset, hlike.frame_same, fun _ _ => rfl⟩

/-- Freeing the resources of a node that leaves its list. -/
theorem HeapOk.delNode (ok : HeapOk P h) {n : Node} {ns : List Node}
    (hr : RefsOk E.ext h (n :: ns)) :
    ∃ P', HeapOk P' (delNode h n) ∧ RefsOk E.ext (delNode h n) ns ∧
      Frame E P h P' (delNode h n) ∧ ∀ x i, P x = .base i → P' x = .base i := by
  unfold Vstr.delNode
  split
  · rename_i r off hd
    have href : n.ref = some r := by simp only [Node.ref, hd]
    have hcount := hr r
    rw [heldBy_cons, if_pos href] at hcount
    obtain ⟨P', hok, hfr, hk⟩ := ok.refDel (E := E) (r := r) (by omega) (by omega)
    refine ⟨P', hok, ?_, hfr, fun x i hx => ?_⟩
    · intro r'
      have hc := hr r'
      rw [heldBy_cons, href] at hc
      rw [refDel_ref, hc]
      by_cases e : r = r'
      · subst e; simp
      · simp [e]
    · rw [hk x (by rw [hx]; simp), hx]
  · rename_i hd
    refine ⟨P, ok, ?_, Frame.refl E P h, fun _ _ hx => hx⟩
    intro r'
    have hc := hr r'
    rw [heldBy_cons, if_neg, Nat.add_zero] at hc
    · exact hc
    · unfold Node.ref
      cases e : n.data with
      | ref r off => exact absurd e (hd r off)
      | buf => simp
      | non => simp
      | ptr p => simp

/-! ## Making nodes and references -/

/-- Handing out the next block. -/
theorem HeapOk.bump (ok : HeapOk P h) (hs : ∀ c, (h'.confs c).spare = (h.confs c).spare)
    (hn : ∀ c, (h'.confs c).spareNum = (h.confs c).spareNum) (hx : h'.next = h.next + 1)
    (hr : h'.refs = h.refs) : HeapOk P h' where
  spareNum c ty := by rw [hs, hn]; exact ok.spareNum c ty
  spareNodup c ty := by rw [hs]; exact ok.spareNodup c ty
  spareOwn c ty := by rw [hs]; exact ok.spareOwn c ty
  fresh x hx' := ok.fresh x (by omega)
  refFresh r hr' := by rw [hr]; exact ok.refFresh r (by omega)
  refOwn := by rw [hr]; exact ok.refOwn

/-- What `vstr__make_spare_node` and `vstr_make_spare_nodes` do, whether or not they
succeed. -/
structure Makes (E : Env) (P : Own) (h : Heap) (P' : Own) (h' : Heap) : Prop where
  /-- Places still agree. -/
  ok : HeapOk P' h'
  /-- Foreign blocks are left alone. -/
  frame : Frame E P h P' h'
  /-- No byte changes. -/
  mem : h'.mem = h.mem
  /-- No reference changes. -/
  refs : h'.refs = h.refs
  /-- Blocks that were handed out keep their places. -/
  place : ∀ x, P x ≠ .none → P' x = P x

theorem Makes.refl (ok : HeapOk P h) : Makes E P h P h :=
  ⟨ok, Frame.refl E P h, rfl, rfl, fun _ _ => rfl⟩

theorem Makes.trans {P' P'' : Own} {h'' : Heap} (f : Makes E P h P' h')
    (g : Makes E P' h' P'' h'') : Makes E P h P'' h'' where
  ok := g.ok
  frame := f.frame.trans g.frame
  mem := g.mem.trans f.mem
  refs := g.refs.trans f.refs
  place x hx := (g.place x (by rw [f.place x hx]; exact hx)).trans (f.place x hx)

theorem Makes.grows {P' : Own} (f : Makes E P h P' h') : Grows P P' := fun x hx => f.place x hx.1

theorem makes_malloc (ok : HeapOk P h) : Makes E P h P h.malloc.2 :=
  ⟨ok.malloc, (like_malloc h).frame_same, rfl, rfl, fun _ _ => rfl⟩

theorem makes_mallocBad (ok : HeapOk P h) (c : Nat) : Makes E P h P (h.mallocBad c) :=
  ⟨ok.mallocBad c, (like_mallocBad h c).frame_same, rfl, rfl, fun _ _ => rfl⟩

theorem makes_makeSpareNode (ok : HeapOk P h) (c : Nat) (ty : NodeType) :
    ∃ P', Makes E P h P' (makeSpareNode h c ty).2 ∧ ((makeSpareNode h c ty).1 = true →
      ((makeSpareNode h c ty).2.confs c).spareNum ty = (h.confs c).spareNum ty + 1) := by
  unfold makeSpareNode
  split
  · rename_i h1 hm
    have e : h1 = h.malloc.2 := by rw [hm]
    subst e
    exact ⟨P, (makes_malloc ok).trans (makes_mallocBad ok.malloc c), by simp⟩
  · rename_i h1 hm
    have e : h1 = h.malloc.2 := by rw [hm]
    subst e
    have hfresh := ok.fresh h.next (Nat.le_refl _)
    refine ⟨P.give [h.next] (.spare c ty), ⟨?_, ?_, rfl, rfl, ?_⟩, ?_⟩
    · apply HeapOk.pushSpare _ (by simp)
      · intro i hi
        rw [List.mem_singleton.mp hi]
        have hp := hfresh.1
        refine ⟨Nat.lt_succ_self _, fun c ty e => ?_, fun e => ?_, fun r e => ?_⟩ <;>
          rw [hp] at e <;> cases e
      · exact ok.bump (fun _ => rfl) (fun _ => rfl) rfl rfl
    · refine Frame.mk (Nat.le_succ _) (fun c' => ?_) (fun c' => ?_) (fun c' => ?_)
        (fun c' => ?_) (fun _ _ => rfl) (fun x hx => ?_) (fun _ _ => rfl) (fun x hx => ?_)
        (fun x hx => ?_)
      · exact (like_pushSpare _ c ty _).bufSz c'
      · exact (like_pushSpare _ c ty _).splitBufDel c'
      · exact (like_pushSpare _ c ty _).iovMinAlloc c'
      · exact (like_pushSpare _ c ty _).iovMinOffset c'
      · apply P.give_of_ne
        rintro i hi rfl
        rw [List.mem_singleton.mp hi] at hx
        exact not_foreign_of_none hfresh.1 hx
      · change Function.update h.size (.node h.next) _ x = h.size x
        rw [Function.update_of_ne]
        rintro rfl
        exact hx hfresh.1
      · rcases P.give_eq_or [h.next] (.spare c ty) x with ⟨i, -, -, e⟩ | e
        · rw [e]; simp
        · rw [e]; exact hx
    · intro x hx
      apply P.give_of_ne
      rintro i hi rfl
      rw [List.mem_singleton.mp hi] at hx
      exact hx hfresh.1
    · intro _
      rw [pushSpare_spareNum, if_pos ⟨rfl, rfl⟩]
      rfl

theorem makes_makeSpareNodes (ok : HeapOk P h) (c : Nat) (ty : NodeType) (num : Nat) :
    ∃ P', Makes E P h P' (makeSpareNodes h c ty num).2 ∧ ((makeSpareNodes h c ty num).1 = true →
      ((makeSpareNodes h c ty num).2.confs c).spareNum ty = (h.confs c).spareNum ty + num) := by
  induction num generalizing h P with
  | zero => exact ⟨P, Makes.refl ok, fun _ => rfl⟩
  | succ num ih =>
    obtain ⟨P₁, hm, hnum⟩ := makes_makeSpareNode (E := E) ok c ty
    unfold makeSpareNodes
    split
    · rename_i h1 e
      rw [e] at hm
      exact ⟨P₁, hm, by simp⟩
    · rename_i h1 e
      rw [e] at hm hnum
      obtain ⟨P₂, hm₂, hnum₂⟩ := ih hm.ok
      refine ⟨P₂, hm.trans hm₂, fun hok => ?_⟩
      rw [hnum₂ hok, hnum rfl]
      omega

/-- `vstr_cntl_conf` with a spare range leaves at least as many spare nodes as asked
for. -/
theorem makes_rangeSpare (ok : HeapOk P h) (c : Nat) (ty : NodeType) (min : Nat) :
    ∃ P', Makes E P h P' (rangeSpare h c ty min).2 ∧ ((rangeSpare h c ty min).1 = true →
      min ≤ (((rangeSpare h c ty min).2.confs c).spare ty).length) := by
  unfold rangeSpare
  dsimp only
  split
  · rename_i hlt
    obtain ⟨P', hm, hnum⟩ := makes_makeSpareNodes (E := E) ok c ty
      (min - (h.confs c).spareNum ty)
    refine ⟨P', hm, fun hok => ?_⟩
    rw [← hm.ok.spareNum, hnum hok]
    omega
  · rename_i hlt
    refine ⟨P, Makes.refl ok, fun _ => ?_⟩
    rw [← ok.spareNum]
    exact Nat.not_lt.mp hlt

end Vstr
