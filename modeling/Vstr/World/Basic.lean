import Vstr.Edit.Del
import Vstr.Own.Lend
import Vstr.Model.AddVstr
import Mathlib.Algebra.Order.BigOperators.Group.Finset

/-!
# Several strings in one memory

Each string is sound in an environment made of the others. An operation on one of them
that stays within its frame leaves the others sound and their content what it was.
-/

namespace Vstr

open Memory

variable {k : Nat} {user : Nat → Nat} {P P' : Own} {w : World k} {i j : Fin k} {s' : St}

/-- References held by the caller, and by the C string caches and the nodes of other
strings. -/
def World.env (user : Nat → Nat) (w : World k) (i : Fin k) : Env where
  me := i
  ext r := user r +
    ∑ j ∈ Finset.univ.erase i, (cstrHeld (w.bases j) r + heldBy (w.bases j).nodes r)

/-- Memory and all strings agree with the places; the caller holds `user r` uses of the
reference `r`. -/
structure WSound (user : Nat → Nat) (P : Own) (w : World k) : Prop where
  /-- Spare lists and references. -/
  heap : HeapOk P w.heap
  /-- The nodes of every string. -/
  nodes : ∀ i : Fin k, NodesOk P i.val (w.bases i).nodes
  /-- Reference counts. -/
  refs : ∀ r, (w.heap.refs r).ref =
    user r + ∑ j, (cstrHeld (w.bases j) r + heldBy (w.bases j).nodes r)
  /-- Structure. -/
  valid : ∀ i, Valid (w.st i).conf.bufSz (w.bases i)
  /-- A node holds something. -/
  bufSz_pos : ∀ i, 0 < (w.st i).conf.bufSz
  /-- `used` fits its 16 bits. -/
  bufSz_le : ∀ i, (w.st i).conf.bufSz ≤ maxNodeBuf

theorem World.held_split (w : World k) (i : Fin k) (r : Nat) :
    ∑ j ∈ Finset.univ.erase i, (cstrHeld (w.bases j) r + heldBy (w.bases j).nodes r) +
        (cstrHeld (w.bases i) r + heldBy (w.bases i).nodes r) =
      ∑ j, (cstrHeld (w.bases j) r + heldBy (w.bases j).nodes r) :=
  Finset.sum_erase_add Finset.univ
    (fun j => cstrHeld (w.bases j) r + heldBy (w.bases j).nodes r) (Finset.mem_univ i)

/-- Every string is sound on its own. -/
theorem WSound.sound (ws : WSound user P w) (i : Fin k) :
    Sound ((w.env user i).hold (cstrHeld (w.bases i))) P (w.st i) where
  owned :=
    { heap := ws.heap
      nodes := ws.nodes i
      refs := fun r => by
        have hs := w.held_split i r
        have hr := ws.refs r
        change (w.heap.refs r).ref = user r + ∑ j ∈ Finset.univ.erase i,
          (cstrHeld (w.bases j) r + heldBy (w.bases j).nodes r) + cstrHeld (w.bases i) r +
          heldBy (w.bases i).nodes r
        omega }
  valid := ws.valid i
  bufSz_pos := ws.bufSz_pos i
  bufSz_le := ws.bufSz_le i

@[simp] theorem World.put_heap (w : World k) (i : Fin k) (s : St) : (w.put i s).heap = s.heap :=
  rfl

@[simp] theorem World.put_self (w : World k) (i : Fin k) (s : St) :
    (w.put i s).bases i = s.base := by
  simp only [World.put, Function.update_self]

theorem World.put_other (w : World k) (s : St) (h : j ≠ i) :
    (w.put i s).bases j = w.bases j := by
  simp only [World.put, Function.update_of_ne h]

@[simp] theorem World.put_st (w : World k) (i : Fin k) (s : St) : (w.put i s).st i = s := by
  rw [World.st, World.put_self, World.put_heap]

theorem World.on_of_eq {α : Type} {f : St → α × St} {a : α} (h : f (w.st i) = (a, s')) :
    w.on i f = (a, w.put i s') := by
  rw [World.on, h]

/-- Nodes of another string are foreign. -/
theorem WSound.foreign_node (ws : WSound user P w) (h : j ≠ i) {m : Node}
    (hm : m ∈ (w.bases j).nodes) : Foreign (w.env user i) P (.node m.id) :=
  .inr (.inl ⟨j, fun e => h (Fin.ext e), (ws.nodes j).own m hm⟩)

/-- A reference that another string holds is held elsewhere. -/
theorem World.ext_pos (w : World k) (h : j ≠ i) {m : Node} (hm : m ∈ (w.bases j).nodes) {r : Nat}
    (hr : m.ref = some r) : 0 < (w.env user i).ext r := by
  have hpos : 0 < heldBy (w.bases j).nodes r := List.countP_pos_iff.mpr ⟨m, hm, by simp [hr]⟩
  have hle : cstrHeld (w.bases j) r + heldBy (w.bases j).nodes r ≤
      ∑ j ∈ Finset.univ.erase i, (cstrHeld (w.bases j) r + heldBy (w.bases j).nodes r) :=
    Finset.single_le_sum (f := fun j => cstrHeld (w.bases j) r + heldBy (w.bases j).nodes r)
      (fun _ _ => Nat.zero_le _) (Finset.mem_erase.mpr ⟨h, Finset.mem_univ j⟩)
  simp only [World.env]
  omega

/-- The bytes of another string are in foreign blocks. -/
theorem WSound.foreign_bytes (ws : WSound user P w)
    (ps : ∀ j, PtrsIn (fun x => P x = .user) (w.bases j).nodes) (h : j ≠ i) {m : Node}
    (hm : m ∈ (w.bases j).nodes) {p : Addr} (hp : exportNodePtr w.heap m = some p) :
    Foreign (w.env user i) P p.blk := by
  unfold exportNodePtr at hp
  cases hd : m.data with
  | buf =>
    rw [hd] at hp
    cases hp
    exact ws.foreign_node h hm
  | non =>
    rw [hd] at hp
    cases hp
  | ptr a =>
    rw [hd] at hp
    obtain rfl : a = p := by simpa using hp
    exact .inl (ps j m hm a hd)
  | ref r off =>
    rw [hd] at hp
    cases hp
    have href : m.ref = some r := by simp only [Node.ref, hd]
    have hlive := ws.heap.refOwn r ((ws.sound j).owned.ref_pos hm href)
    have hext : 0 < (w.env user i).ext r := w.ext_pos h hm href
    rw [Ptr.add_blk]
    unfold RefPlace at hlive
    split at hlive
    · rcases hlive with hu | hl
      · exact .inl hu
      · exact .inr (.inr ⟨r, hl, hext⟩)
    · obtain ⟨-, x, hx, hl⟩ := hlive
      rw [hx]
      exact .inr (.inr ⟨r, hl, hext⟩)

/-- The bytes of other strings are left alone. -/
theorem WSound.flat_other {h' : Heap} (ws : WSound user P w)
    (ps : ∀ j, PtrsIn (fun x => P x = .user) (w.bases j).nodes)
    (fr : Frame (w.env user i) P w.heap P' h') (h : j ≠ i) :
    flat h' (w.bases j).nodes = flat w.heap (w.bases j).nodes := by
  apply flat_congr
  intro m hm
  apply nodeBytes_congr
  · exact (ws.sound j).owned.exportNodePtr hm fr.refPtr
  · intro p hp
    apply read_congr
    intro o _
    rw [fr.mem p.blk (ws.foreign_bytes ps h hm hp)]

/-- An operation on one string that stays within its frame. The uses `user'` that the
caller has afterwards are those that neither the string nor another one has. -/
theorem WSound.put {user' : Nat → Nat} {E' : Env} (ws : WSound user P w) (sd : Sound E' P' s')
    (hme : E'.me = i) (hext : ∀ r, E'.ext r = (w.env user' i).ext r + cstrHeld s'.base r)
    (fr : Frame (w.env user i) P w.heap P' s'.heap) : WSound user' P' (w.put i s') := by
  have hconf : ∀ j, j ≠ i → ((w.put i s').st j).conf.bufSz = (w.st j).conf.bufSz := by
    intro j h
    unfold World.st St.conf
    dsimp only
    rw [w.put_other s' h]
    exact fr.bufSz _
  refine ⟨sd.owned.heap, fun j => ?_, fun r => ?_, fun j => ?_, fun j => ?_, fun j => ?_⟩
  · by_cases h : j = i
    · rw [h, World.put_self, ← hme]
      exact sd.owned.nodes
    · rw [w.put_other s' h]
      refine ⟨(ws.nodes j).nodup, fun m hm => ?_⟩
      rw [fr.place _ (ws.foreign_node h hm)]
      exact (ws.nodes j).own m hm
  · have hr := sd.owned.refs r
    have hs := (w.put i s').held_split i r
    have herase : ∑ j ∈ Finset.univ.erase i, (cstrHeld ((w.put i s').bases j) r +
          heldBy ((w.put i s').bases j).nodes r) =
        ∑ j ∈ Finset.univ.erase i, (cstrHeld (w.bases j) r + heldBy (w.bases j).nodes r) :=
      Finset.sum_congr rfl fun j hj => by rw [w.put_other s' (Finset.ne_of_mem_erase hj)]
    rw [World.put_self, herase] at hs
    rw [World.put_heap, hr, hext]
    simp only [World.env]
    omega
  · by_cases h : j = i
    · rw [h, World.put_st, World.put_self]
      exact sd.valid
    · rw [hconf j h, w.put_other s' h]
      exact ws.valid j
  · by_cases h : j = i
    · rw [h, World.put_st]
      exact sd.bufSz_pos
    · rw [hconf j h]
      exact ws.bufSz_pos j
  · by_cases h : j = i
    · rw [h, World.put_st]
      exact sd.bufSz_le
    · rw [hconf j h]
      exact ws.bufSz_le j

/-- The content of the others. -/
theorem WSound.content_other (ws : WSound user P w)
    (ps : ∀ j, PtrsIn (fun x => P x = .user) (w.bases j).nodes)
    (fr : Frame (w.env user i) P w.heap P' s'.heap) (h : j ≠ i) :
    content ((w.put i s').st j) = content (w.st j) := by
  unfold content World.st
  dsimp only
  rw [w.put_other s' h, World.put_heap, ws.flat_other ps fr h]

/-- What the callers of the library and the library itself keep up: structure, position
caches that name nodes of their list, `PTR` nodes that point to memory of the caller, and
`REF` nodes whose offset does not wrap. -/
structure WOk (user : Nat → Nat) (P : Own) (w : World k) : Prop where
  /-- Places and structure. -/
  sound : WSound user P w
  /-- Position caches. -/
  posOk : ∀ i, PosOk False (w.bases i)
  /-- `PTR` nodes. -/
  ptrs : ∀ i, PtrsIn (fun x => P x = .user) (w.bases i).nodes
  /-- `REF` nodes. -/
  fits : ∀ i, Fits (w.bases i).nodes

/-- Memory of the caller stays memory of the caller. -/
theorem PtrsIn.stays {E : Env} {h h' : Heap} {ns : List Node}
    (ps : PtrsIn (fun x => P x = .user) ns)
    (fr : Frame E P h P' h') : PtrsIn (fun x => P' x = .user) ns := by
  intro m hm a ha
  have hu := ps m hm a ha
  exact (fr.place _ (.inl hu)).trans hu

/-- An operation on one string. -/
theorem WOk.put {user' : Nat → Nat} {E' : Env} (wo : WOk user P w) (sd : Sound E' P' s')
    (hme : E'.me = i) (hext : ∀ r, E'.ext r = (w.env user' i).ext r + cstrHeld s'.base r)
    (fr : Frame (w.env user i) P w.heap P' s'.heap) (pk : PosOk False s'.base)
    (ps : PtrsIn (fun x => P x = .user) s'.base.nodes) (hf : Fits s'.base.nodes) :
    WOk user' P' (w.put i s') where
  sound := wo.sound.put sd hme hext fr
  posOk j := by
    by_cases h : j = i
    · rw [h, World.put_self]
      exact pk
    · rw [w.put_other s' h]
      exact wo.posOk j
  ptrs j := by
    by_cases h : j = i
    · rw [h, World.put_self]
      exact ps.stays fr
    · rw [w.put_other s' h]
      exact (wo.ptrs j).stays fr
  fits j := by
    by_cases h : j = i
    · rw [h, World.put_self]
      exact hf
    · rw [w.put_other s' h]
      exact wo.fits j

theorem cstrHeld_congr {b b' : Base} (h : b'.cstr = b.cstr) : cstrHeld b' = cstrHeld b := by
  funext r
  rw [cstrHeld, h, cstrHeld]

theorem cstrHeld_cbs (b : Base) (pos len : Nat) (type : CacheType) :
    cstrHeld (cacheCbs b pos len type) = cstrHeld b := by
  funext r
  unfold cstrHeld cacheCbs
  cases b.cstr with
  | none => rfl
  | some data => simp only [Option.map_some, cacheCstrCb_ref]

theorem cstrHeld_cacheAdd (b : Base) (pos len : Nat) :
    cstrHeld (cacheAdd b pos len) = cstrHeld b := by
  unfold cacheAdd
  split
  · exact cstrHeld_cbs b pos len .add
  · rfl

theorem Inserted.cstrHeld {q : Prop} {E : Env} {s : St} {kind : AddKind} {pos len : Nat}
    (i : Inserted q E P s kind pos len P' s') : cstrHeld s'.base = cstrHeld s.base := by
  obtain ⟨b', g, e | ⟨e, -⟩⟩ := i.base
  · rw [e, cstrHeld_cacheAdd, cstrHeld_congr g.cstr]
  · rw [e, cstrHeld_congr g.cstr]

theorem Stayed.cstrHeld {E : Env} {s : St} (st : Stayed E P s P' s') :
    cstrHeld s'.base = cstrHeld s.base := cstrHeld_congr st.grown.cstr

/-- A string by itself. -/
def World.one (s : St) : World 1 := ⟨s.heap, fun _ => s.base⟩

theorem WOk.one {s : St} (sd : Sound (Env.hold ⟨0, user⟩ (cstrHeld s.base)) P s)
    (pk : PosOk False s.base) (ps : PtrsIn (fun x => P x = .user) s.base.nodes)
    (hf : Fits s.base.nodes) : WOk user P (World.one s) where
  sound :=
    { heap := sd.owned.heap
      nodes := fun i => by
        obtain rfl : i = 0 := Subsingleton.elim i 0
        exact sd.owned.nodes
      refs := fun r => by
        have := sd.owned.refs r
        simp only [Env.hold_ext] at this
        change (s.heap.refs r).ref = user r + ∑ _j : Fin 1, (cstrHeld s.base r +
          heldBy s.base.nodes r)
        rw [Finset.univ_unique, Finset.sum_singleton]
        omega
      valid := fun _ => sd.valid
      bufSz_pos := fun _ => sd.bufSz_pos
      bufSz_le := fun _ => sd.bufSz_le }
  posOk _ := pk
  ptrs _ := ps
  fits _ := hf

end Vstr
