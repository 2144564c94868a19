import Vstr.World.Basic
import Vstr.Export.Cstr
import Vstr.Run.Calls

/-!
# Adding a string by reference

`vstr_add_vstr` with `ADD_ALL_REF` exports one reference to the slice and adds it.
-/

namespace Vstr

open Memory Splice

variable {k : Nat} {user : Nat → Nat} {P P' : Own} {w w' : World k} {b fb : Fin k} {s s' : St}
  {pos fromPos len r off : Nat}

/-- The reference fits one node at this place: a reference that is there already as it is
meant to, and a new one because the slice is not longer than a node. -/
structure RefFits (s : St) (pos : Nat) (fromBase : Base) (fromPos len : Nat) : Prop where
  /-- The slice fits one node. -/
  len_le : len ≤ maxNodeAll
  /-- A reference that is there already. -/
  there : ∀ r off, exportRefThere fromBase fromPos len = some (r, off) →
    (AddKind.ref r off).MeantAt s pos len

/-- A new reference is added as it is meant to. -/
theorem meantAt_newRef {E : Env} (sd : Sound E P s) (pk : PosOk False s.base)
    (hpos : pos ≤ s.base.len) (hoff : off ≤ maxNodeBuf) (hlen : len ≤ maxNodeAll)
    (hn : ∀ m ∈ s.base.nodes, ∀ off', m.data = .ref r off' → off' + m.len ≤ maxNodeBuf ∧
      len ≤ maxNodeBuf) : (AddKind.ref r off).MeantAt s pos len := by
  unfold AddKind.MeantAt
  have ho : off < 2 ^ 32 := by
    unfold maxNodeBuf at hoff
    omega
  split
  · exact ⟨ho, hlen⟩
  · rename_i h0
    obtain ⟨pre, n, post, hat, -, -⟩ :=
      basePos_at sd.valid sd.owned.nodes.nodup pk (show 1 ≤ pos by omega) hpos true
    have hle := hat.le_len
    have hup : s.upTo pos = { n with len := (basePos s.base pos true).1.pos } := by
      unfold St.upTo
      rw [hat.idx, node_of_eq hat.nodes]
    rw [hup]
    have hmem : n ∈ s.base.nodes := by
      rw [hat.nodes]
      simp
    refine ⟨ho, hlen, fun ha => ?_⟩
    rcases AddKind.absorbs_cases ha with ⟨-, -, ⟨_, e⟩ | ⟨_, e⟩⟩ | ⟨-, -, e⟩ | ⟨_, -, -, e⟩ |
      ⟨r₂, off₂, hd, -, e⟩
    · cases e
    · cases e
    · cases e
    · cases e
    · cases e
      obtain ⟨h1, h2⟩ := hn n hmem off₂ hd
      have hmod : (off₂ + (basePos s.base pos true).1.pos) % 2 ^ 32 =
          off₂ + (basePos s.base pos true).1.pos := Nat.mod_eq_of_lt (by
        unfold maxNodeBuf at h1
        omega)
      unfold maxNodeBuf at h1 h2
      unfold maxNodeAll
      dsimp only
      refine ⟨by omega, fun r' off' hd' => ?_⟩
      dsimp only at hd' ⊢
      rw [hd] at hd'
      cases hd'
      exact hmod.symm

/-- The world after a reference was exported from one of its strings. -/
structure ExportedFrom (user : Nat → Nat) (P' : Own) (w : World k) (r : Nat) (w' : World k) :
    Prop where
  /-- Places and structure, and the caller's use of the reference. -/
  sound : WSound (fun x => user x + oneUse r x) P' w'
  /-- Position caches. -/
  posOk : ∀ i, PosOk False (w'.bases i)
  /-- `PTR` nodes. -/
  ptrs : ∀ i, PtrsIn (fun x => P' x = .user) (w'.bases i).nodes
  /-- Lengths. -/
  len : ∀ i, (w'.bases i).len = (w.bases i).len
  /-- Cuts that wrap no offset. -/
  cutOk : ∀ i p, CutOk (w.bases i).nodes (p + (w.bases i).used) →
    CutOk (w'.bases i).nodes (p + (w'.bases i).used)
  /-- Contents. -/
  content : ∀ i, content (w'.st i) = content (w.st i)

theorem WSound.exported (ws : WSound user P w) (pk : ∀ i, PosOk False (w.bases i))
    (ps : ∀ i, PtrsIn (fun x => P x = .user) (w.bases i).nodes)
    (ex : Exported False ((w.env user fb).hold (cstrHeld (w.bases fb))) P (w.st fb) r P' s') :
    ExportedFrom user P' w r (w.put fb s') := by
  have fr : Frame (w.env user fb) P w.heap P' s'.heap := ex.frame.unhold
  refine ⟨ws.put ex.sound rfl (fun x => ?_) fr, fun i => ?_, fun i => ?_, fun i => ?_, fun i => ?_,
    fun i => ?_⟩
  · have hc : cstrHeld s'.base = cstrHeld (w.bases fb) := cstrHeld_congr ex.grown.cstr
    simp only [Env.hold_ext, World.env, hc]
    omega
  all_goals by_cases h : i = fb
  · rw [h, World.put_self]
    exact ex.posOk
  · rw [w.put_other s' h]
    exact pk i
  · rw [h, World.put_self]
    exact ex.ptrs ((ps fb).stays fr)
  · rw [w.put_other s' h]
    exact (ps i).stays fr
  · rw [h, World.put_self]
    exact ex.grown.len
  · rw [w.put_other s' h]
  · rw [h, World.put_self]
    exact ex.cutOk
  · rw [w.put_other s' h]
    exact fun _ hc => hc
  · rw [h, World.put_st]
    exact ex.content
  · exact ws.content_other ps fr h

/-- The reference is added as it is meant to: it was there already, or it is new. -/
theorem RefFits.meantAt (rf : RefFits (w.st b) pos (w.bases fb) fromPos len)
    (ws : WSound user P w) (w₁ : ExportedFrom user P' w r (w.put fb s'))
    (hpos : pos ≤ (w.bases b).len)
    (src : (exportRefThere (w.st fb).base fromPos len = some (r, off) ∧
      s' = ⟨refAdd (w.st fb).heap r, (w.st fb).base⟩) ∨ NewRef (w.st fb) len s' r off) :
    (AddKind.ref r off).MeantAt ((w.put fb s').st b) pos len := by
  rcases src with ⟨ht, rfl⟩ | nr
  · have hb : (w.put fb ⟨refAdd (w.st fb).heap r, (w.st fb).base⟩).bases b = w.bases b := by
      by_cases h : b = fb
      · rw [h, World.put_self]
        rfl
      · rw [w.put_other _ h]
    rw [World.st, hb]
    exact rf.there r off ht
  · refine meantAt_newRef (w₁.sound.sound b) (w₁.posOk b) ((w₁.len b).symm ▸ hpos) nr.off_le
      rf.len_le ?_
    intro m hm off' hd
    by_cases h : b = fb
    · rw [World.st, h, World.put_self] at hm
      exact nr.node m hm off' hd
    · rw [World.st, w.put_other s' h] at hm
      have hlt := (ws.sound b).owned.ref_lt hm hd
      have hge := nr.fresh
      exact absurd hlt (Nat.not_lt.mpr hge)

/-- `vstr__add_all_ref`: the slice goes in through a reference. -/
theorem addAllRef_content (ws : WSound user P w) (pk : ∀ i, PosOk False (w.bases i))
    (ps : ∀ i, PtrsIn (fun x => P x = .user) (w.bases i).nodes)
    (bd : Bounded w.heap (w.bases fb).nodes) (h1 : 1 ≤ fromPos)
    (h2 : fromPos + len ≤ (w.bases fb).len + 1) (hlen : 0 < len)
    (holds : CacheHolds (w.st fb) fromPos len) (hpos : pos ≤ (w.bases b).len)
    (hcut : pos ≠ 0 → (w.st b).CutFits pos) (rf : RefFits (w.st b) pos (w.bases fb) fromPos len)
    (e : addAllRef w b pos fb fromPos len = (true, w')) :
    ∃ bs, Matches (slice (content (w.st fb)) fromPos len) bs ∧
      content (w'.st b) = insertAfter (content (w.st b)) pos (bs.map some) := by
  unfold addAllRef at e
  obtain ⟨P₁, s₁, ⟨e₁, -⟩ | ⟨r, off, e₁, ex, ra, src⟩⟩ := exportRef_spec (ws.sound fb)
    (fun r => Nat.le_add_left _ _) (pk fb) (ps fb) bd h1 h2 hlen
  · have on₁ : w.on fb (exportRef · fromPos len) = (none, w.put fb s₁) := World.on_of_eq e₁
    rw [on₁] at e
    cases e
  have on₁ : w.on fb (exportRef · fromPos len) = (some (r, off), w.put fb s₁) :=
    World.on_of_eq e₁
  rw [on₁] at e
  dsimp only at e
  have w₁ := ws.exported pk ps ex
  have sd₁ := w₁.sound.sound b
  have hpos₁ : pos ≤ ((w.put fb s₁).st b).base.len :=
    Nat.le_trans hpos (Nat.le_of_eq (w₁.len b).symm)
  have hlive : 0 < (s₁.heap.refs r).ref := by
    have hr := w₁.sound.refs r
    rw [World.put_heap, oneUse_self] at hr
    omega
  have hcut₁ : pos ≠ 0 → ((w.put fb s₁).st b).CutFits pos := by
    intro h0
    rw [cutFits_iff sd₁ (w₁.posOk b) (Nat.pos_of_ne_zero h0) hpos₁]
    exact w₁.cutOk b pos
      ((cutFits_iff (ws.sound b) (pk b) (Nat.pos_of_ne_zero h0) hpos).mp (hcut h0))
  obtain ⟨P₂, s₂, ⟨e₂, -⟩ | ⟨e₂, ⟨h0, -, -⟩ | ins⟩⟩ := addRef_spec sd₁ (w₁.posOk b) hpos₁
    (show 0 < (((w.put fb s₁).st b).heap.refs r).ref from hlive) off len
  · have on₂ : (w.put fb s₁).on b (addRef · pos r off len) = (false, (w.put fb s₁).put b s₂) :=
      World.on_of_eq e₂
    rw [on₂] at e
    cases e
  · omega
  have on₂ : (w.put fb s₁).on b (addRef · pos r off len) = (true, (w.put fb s₁).put b s₂) :=
    World.on_of_eq e₂
  rw [on₂] at e
  obtain ⟨xs, -, hxs, hsrc⟩ := ins.content (fun m hm a ha => .inl (w₁.ptrs b m hm a ha)) hcut₁
  have hsolid : Solid P₁ (s₁.heap.refs r).ptr.blk := w₁.sound.heap.solid_ref hlive
  have hx := hsrc (rf.meantAt ws w₁ hpos src) (fun x hx => by
    cases hx
    exact hsolid)
  have hw : w' = { (w.put fb s₁).put b s₂ with heap := refDel s₂.heap r } := by
    have := congrArg Prod.snd e
    exact this.symm
  refine ⟨read s₁.heap.mem ((s₁.heap.refs r).ptr.add off) len, ?_, ?_⟩
  · have hm := (ra.mpr holds).bytes
    unfold HoldsAt at hm
    have hl : (slice (content (w.st fb)) fromPos len).length = len := by
      rw [slice, List.length_take, List.length_drop, length_content (ws.valid fb)]
      change min len ((w.bases fb).len - (fromPos - 1)) = len
      omega
    rw [hl] at hm
    exact hm
  · have hc : content (w'.st b) = content s₂ := by
      rw [hw]
      unfold content World.st
      dsimp only
      rw [World.put_self, (like_refDel s₂.heap r).flat]
    rw [hc, hxs, w₁.content b, hx]
    rfl

/-- The text `abcd` in two nodes, the first two bytes of which were exported. -/
def abCached : St := (exportCstrPtr abcd 1 2).2

theorem abCached_ok : ∃ P, WOk (fun _ => 0) P (World.one abCached) ∧ CstrOk abCached := by
  obtain ⟨P₁, u, -, hf⟩ := callRun_abcd.usable usable_blank (fun m hm => by cases hm)
  have hbuf : ∀ m ∈ abcd.base.nodes, m.data = .buf := by decide
  have ps : PtrsIn (fun x => P₁ x = .user) abcd.base.nodes := by
    intro m hm a ha
    rw [hbuf m hm] at ha
    cases ha
  have sd : Sound (alone.hold (cstrHeld abcd.base)) P₁ abcd := u.sound
  obtain ⟨P₂, s₂, ⟨e, -⟩ | ⟨r, off, e, ex⟩⟩ := exportCstrCache_spec sd u.posOk
    u.ptrSafe (fun data r hd => by cases hd) (show 1 ≤ 1 by decide)
    (show 1 + 2 ≤ abcd.base.len + 1 by decide) (by decide)
  · have : (exportCstrCache abcd 1 2).1 ≠ none := by decide
    rw [e] at this
    exact absurd rfl this
  · have hs : abCached = s₂ := by
      unfold abCached exportCstrPtr
      dsimp only
      rw [e]
    rw [hs]
    have hns := nodes_of_core ex.core
    refine ⟨P₂, WOk.one ex.sound ex.posOk ?_ ?_, ex.ok fun data r _ hd => by cases hd⟩
    · rw [hns]
      exact ps.stays ex.frame
    · rw [hns]
      exact hf

theorem bounded_abCached : Bounded abCached.heap abCached.base.nodes := by
  change ∀ m ∈ abCached.base.nodes, ∀ p ∈ exportNodePtr abCached.heap m,
    p.off + m.len ≤ abCached.heap.size p.blk
  decide

theorem cacheAgrees_abCached : CacheAgrees abCached.base 3 2 := by
  intro data _ hs
  have hn : (exportRefCached abCached.base 3 2).isSome = false := by decide
  rw [hn] at hs
  cases hs

theorem cutFits_abCached : abCached.CutFits 2 := by
  intro r off hd
  have h : (abCached.base.node (basePos abCached.base 2 true).1.idx).data = .buf := by decide
  rw [h] at hd
  cases hd

theorem refFits_abCached : RefFits abCached 2 abCached.base 3 2 := by
  refine ⟨by decide, fun r off h => ?_⟩
  have hn : exportRefThere abCached.base 3 2 = none := by decide
  rw [hn] at h
  cases h

end Vstr
