import Vstr.Export.Coherent
import Vstr.Model.System
import Vstr.World.AllRef

/-!
# Strings that share memory and references

What holds of all strings of a program between two calls, and that a call on one of them,
or on a reference, keeps it.
-/

namespace Vstr

open Memory Splice

variable {k : Nat} {mine : Blk → Prop} {P P' : Own} {i j : Fin k} {s' : St} {h' : Heap}
  {gained : Nat → Nat} {r : Nat}

namespace Sys

variable {t t' : Sys k}

/-- The content of every string. -/
def text (t : Sys k) (i : Fin k) : List (Option UInt8) := content (t.world.st i)

/-- What holds between two calls: memory, strings and references agree with the places, and
every C string cache is coherent. The program has the blocks `mine`. -/
structure Good (mine : Blk → Prop) (P : Own) (t : Sys k) : Prop where
  /-- Memory, strings and references. -/
  ok : WOk t.user P t.world
  /-- The memory of the program. -/
  user : ∀ x, mine x → P x = .user
  /-- The memory of the C string caches. -/
  mem : ∀ i, CstrMem P t.world.heap (t.world.bases i)
  /-- Their content. -/
  cstr : ∀ i, CstrOk (t.world.st i)

/-- The content of a string has the length that its base says. -/
theorem Good.length_text (g : Good mine P t) (i : Fin k) :
    (content (t.world.st i)).length = (t.world.bases i).len :=
  length_content (s := t.world.st i) (g.ok.sound.valid i)

/-- A reference that something holds is live. -/
theorem Good.live (g : Good mine P t) (hr : 0 < t.user r ∨ 0 < cstrHeld (t.world.bases i) r) :
    0 < (t.world.heap.refs r).ref := by
  have hc := g.ok.sound.refs r
  have hs := t.world.held_split i r
  have hp : 0 < t.user r + cstrHeld (t.world.bases i) r := by omega
  omega

end Sys

/-! ## A call on one string -/

/-- What a call on one string leaves. The caller gets `gained` uses of references. -/
structure Leaves (E : Env) (P : Own) (s : St) (gained : Nat → Nat) (P' : Own) (s' : St) :
    Prop where
  /-- The string is sound; its cache holds its reference. -/
  sound : Sound ((E.hold gained).hold (cstrHeld s'.base)) P' s'
  /-- Foreign blocks are left alone. -/
  frame : Frame E P s.heap P' s'.heap
  /-- The position cache is right. -/
  posOk : PosOk False s'.base
  /-- `PTR` nodes. -/
  ptrs : PtrsIn (fun x => P x = .user) s'.base.nodes
  /-- `REF` nodes. -/
  fits : Fits s'.base.nodes
  /-- The memory of the cache. -/
  mem : CstrMem P' s'.heap s'.base
  /-- The cache is coherent. -/
  cstr : CstrOk s'

/-- A string between two calls, alone with what the others hold. -/
structure Settled (E : Env) (P : Own) (s : St) : Prop where
  /-- The string is sound; its cache holds its reference. -/
  sound : Sound (E.hold (cstrHeld s.base)) P s
  /-- The position cache is right. -/
  posOk : PosOk False s.base
  /-- `PTR` nodes. -/
  ptrs : PtrsIn (fun x => P x = .user) s.base.nodes
  /-- `REF` nodes. -/
  fits : Fits s.base.nodes
  /-- The memory of the cache. -/
  mem : CstrMem P s.heap s.base
  /-- The cache is coherent. -/
  cstr : CstrOk s

section

variable {E : Env} {s : St} {kind : AddKind} {pos len : Nat}

theorem Settled.ptrSafe (rd : Settled E P s) (E' : Env) : PtrSafe E' P s.base.nodes :=
  fun m hm a ha => .inl (rd.ptrs m hm a ha)

theorem Settled.length (rd : Settled E P s) : (content s).length = s.base.len :=
  length_content rd.sound.valid

/-- What the cache of the string holds is foreign to the call. -/
theorem Settled.same (rd : Settled E P s)
    (fr : Frame (E.hold (cstrHeld s.base)) P s.heap P' h') (hr : 0 < cstrHeld s.base r) :
    SameRef s.heap h' r ∧
      (P (s.heap.refs r).ptr.blk = .lent r → P' (s.heap.refs r).ptr.blk = .lent r) := by
  have hext : 0 < (E.hold (cstrHeld s.base)).ext r := Nat.lt_of_lt_of_le hr (Nat.le_add_left _ _)
  have hlive : 0 < (s.heap.refs r).ref := by
    have := rd.sound.owned.refs r
    omega
  refine ⟨fr.sameRef rd.sound.owned.heap hlive hext, fun hl => ?_⟩
  rw [fr.place _ (.inr (.inr ⟨r, hl, hext⟩)), hl]

/-- A call that keeps the reference of the cache. -/
theorem Settled.leaves (rd : Settled E P s)
    (sd : Sound ((E.hold gained).hold (cstrHeld s.base)) P' s')
    (fr : Frame (E.hold (cstrHeld s.base)) P s.heap P' s'.heap) (pk : PosOk False s'.base)
    (ps : PtrsIn (fun x => P x = .user) s'.base.nodes) (hf : Fits s'.base.nodes)
    (held : cstrHeld s'.base = cstrHeld s.base) (fo : CstrFollows s s') :
    Leaves E P s gained P' s' where
  sound := by rw [held]; exact sd
  frame := fr.unhold
  posOk := pk
  ptrs := ps
  fits := hf
  mem := fo.mem (fun r hr => rd.same fr hr) rd.mem
  cstr := fo.ok rd.length (length_content sd.valid) (fun r hr => (rd.same fr hr).1) rd.cstr

/-- A call that did nothing. -/
theorem Settled.leaves_refl (rd : Settled E P s) : Leaves E P s (fun _ => 0) P s :=
  rd.leaves rd.sound (Frame.refl _ _ _) rd.posOk rd.ptrs rd.fits rfl (cstrFollows_same rfl rfl rfl)

/-- A call that failed. -/
theorem Settled.leaves_stayed (rd : Settled E P s)
    (st : Stayed (E.hold (cstrHeld s.base)) P s P' s') :
    Leaves E P s (fun _ => 0) P' s' ∧ content s' = content s := by
  have hc := st.content (rd.ptrSafe _) rd.fits
  exact ⟨rd.leaves st.sound st.frame st.posOk (st.ptrs rd.ptrs) (st.fits rd.fits) st.cstrHeld
    (cstrFollows_same st.grown.cacheAvailable st.grown.cstr hc), hc⟩

/-- An edit of a string: it is made, or the content stays. -/
structure Edits (E : Env) (P : Own) (s : St) (edited : List (Option UInt8)) (r : Bool × St) :
    Prop where
  /-- The string is ready again. -/
  leaves : ∃ P', Leaves E P s (fun _ => 0) P' r.2
  /-- The content. -/
  content : content r.2 = if r.1 then edited else content s

/-- An add function. -/
theorem Settled.add (rd : Settled E P s) (hpos : pos ≤ s.base.len) {r : Bool × St}
    (a : AddSpec False (E.hold (cstrHeld s.base)) P s kind pos len r)
    (hp : ∀ a, kind = .ptr a → P a.blk = .user) (hm : kind.MeantAt s pos len)
    (hf : kind.FitsAt s pos len) (hb : ∀ x, kind.blk s.heap = some x → Solid P x) :
    Edits E P s (insertAfter (content s) pos (kind.src s.heap len)) r := by
  obtain ⟨P', s', ⟨rfl, st⟩ | ⟨rfl, ⟨rfl, rfl, rfl⟩ | i⟩⟩ := a
  · obtain ⟨l, hc⟩ := rd.leaves_stayed st
    exact ⟨⟨P', l⟩, hc⟩
  · refine ⟨⟨P', rd.leaves_refl⟩, ?_⟩
    have h0 : kind.src s'.heap 0 = [] := List.length_eq_zero_iff.mp (kind.length_src s'.heap 0)
    rw [h0, insertAfter_nil_right]
    rfl
  · obtain ⟨xs, hxs, hc, hsrc⟩ := i.content (rd.ptrSafe _) fun _ => rd.fits.cutFits pos
    refine ⟨⟨P', rd.leaves i.sound i.frame i.posOk (i.ptrs rd.ptrs hp) (i.fits rd.fits hf)
      i.cstrHeld (i.follows rd.length hpos hxs hc)⟩, ?_⟩
    rw [if_pos rfl, hc, hsrc hm hb]

/-- What the cache is told of a deletion keeps its reference. -/
theorem Deleted.cstrHeld {q : Prop} (d : Deleted q E P s pos len P' s') :
    cstrHeld s'.base = cstrHeld s.base := by
  obtain ⟨f, cd, e⟩ := d.cstr
  funext r
  unfold Vstr.cstrHeld
  rw [e]
  by_cases hav : s.base.cacheAvailable = true
  · rw [if_pos hav]
    cases s.base.cstr with
    | none => rfl
    | some data => simp only [Option.map_some, (cd.ref data).1]
  · rw [if_neg hav]

/-- The delete function. -/
theorem Settled.del (rd : Settled E P s) (h1 : 1 ≤ pos) (h2 : pos + len ≤ s.base.len + 1)
    (h0 : 0 < len) {r : Bool × St} (d : DelSpec False (E.hold (cstrHeld s.base)) P s pos len r) :
    Edits E P s (deleteRange (content s) pos len) r := by
  obtain ⟨P', s', ⟨rfl, ⟨st, -⟩⟩ | ⟨rfl, ⟨rfl, rfl, rfl⟩ | d⟩⟩ := d
  · obtain ⟨l, hc⟩ := rd.leaves_stayed st
    exact ⟨⟨P', l⟩, hc⟩
  · refine ⟨⟨P', rd.leaves_refl⟩, ?_⟩
    rw [deleteRange_zero]
    rfl
  · have hc := d.content (rd.ptrSafe _) (rd.fits.cutOk _)
    exact ⟨⟨P', rd.leaves d.sound d.frame d.posOk (d.ptrs rd.ptrs) (d.fits rd.fits)
      d.cstrHeld (d.follows rd.length h1 h2 h0 hc)⟩, by rw [if_pos rfl, hc]⟩

/-- The string is the same, the cached slice may be another one. -/
theorem Settled.leaves_kept (rd : Settled E P s) (ck : CstrKept False E P s P' s') :
    Leaves E P s (fun _ => 0) P' s' where
  sound := ck.sound
  frame := ck.frame
  posOk := ck.posOk
  ptrs := by rw [nodes_of_core ck.core]; exact rd.ptrs
  fits := by rw [nodes_of_core ck.core]; exact rd.fits
  mem := ck.mem
  cstr := ck.ok rd.cstr

/-- The C string of a slice. -/
def cstrOf (s : St) (pos len : Nat) : List (Option UInt8) := slice (content s) pos len ++ [some 0]

/-- `vstr_export_cstr_ptr`: the pointer is into the memory of the cache. -/
theorem Settled.exportCstrPtr (rd : Settled E P s) (h1 : 1 ≤ pos) (h2 : pos + len ≤ s.base.len + 1)
    (hmax : s.base.len < 2 ^ 64) :
    ∃ P' p s', exportCstrPtr s pos len = (p, s') ∧ Leaves E P s (fun _ => 0) P' s' ∧
      content s' = content s ∧ ∀ a, p = some a → HoldsAt s'.heap a (cstrOf s pos len) ∧
        ∃ r off, 0 < cstrHeld s'.base r ∧ a = (s'.heap.refs r).ptr.add off := by
  unfold Vstr.exportCstrPtr
  obtain ⟨P', s', ⟨e, ck⟩ | ⟨r, off, e, ex⟩⟩ :=
    exportCstrCache_spec rd.sound rd.posOk (rd.ptrSafe _) rd.mem h1 h2 hmax
  · rw [e]
    refine ⟨P', none, s', rfl, rd.leaves_kept ck, ck.content, ?_⟩
    rintro a ⟨⟩
  · rw [e]
    refine ⟨P', _, s', rfl, rd.leaves_kept ex.toCstrKept, ex.content, ?_⟩
    rintro a ⟨⟩
    obtain ⟨data, hd, hr⟩ := ex.held
    refine ⟨ex.bytes rd.cstr, r, off, ?_, rfl⟩
    rw [cstrHeld_some hd hr, oneUse_self]
    exact Nat.one_pos

/-- One more use of a reference that the string holds, for the caller. -/
theorem Leaves.oneMore (l : Leaves E P s (fun _ => 0) P' s') (hr : 0 < (s'.heap.refs r).ref) :
    Leaves E P s (oneUse r) P' ⟨refAdd s'.heap r, s'.base⟩ where
  sound := by
    have ow := l.sound.owned.refAdd hr
    have e : ((E.hold (oneUse r)).hold (cstrHeld s'.base)) =
        (((E.hold fun _ => 0).hold (cstrHeld s'.base)).hold (oneUse r)) := by
      simp only [Env.hold, Env.mk.injEq, true_and]
      funext r'
      omega
    rw [e]
    exact ⟨ow, l.sound.valid, l.sound.bufSz_pos, l.sound.bufSz_le⟩
  frame := l.frame.trans (like_refAdd _ _).frame_same
  posOk := l.posOk
  ptrs := l.ptrs
  fits := l.fits
  mem := by
    intro data r' hd hr'
    rw [refAdd_ptr]
    exact l.mem data r' hd hr'
  cstr := by
    have hc : content ⟨refAdd s'.heap r, s'.base⟩ = content s' := by
      unfold content
      dsimp only
      rw [(like_refAdd s'.heap r).flat]
    have fo : CstrFollows s' ⟨refAdd s'.heap r, s'.base⟩ := cstrFollows_same rfl rfl hc
    have hl : (content s').length = s'.base.len := length_content l.sound.valid
    exact fo.ok hl (by rw [hc]; exact hl) (fun r' _ => ⟨refAdd_ptr _ _ _, rfl, rfl⟩) l.cstr

/-- The uses of references that an export hands to the caller. -/
def gainedRef : Option (Nat × Nat) → Nat → Nat
  | none => fun _ => 0
  | some ref => oneUse ref.1

/-- `vstr_export_cstr_ref`. -/
theorem Settled.exportCstrRef (rd : Settled E P s) (h1 : 1 ≤ pos) (h2 : pos + len ≤ s.base.len + 1)
    (hmax : s.base.len < 2 ^ 64) :
    ∃ P' ref s', exportCstrRef s pos len = (ref, s') ∧ Leaves E P s (gainedRef ref) P' s' ∧
      content s' = content s ∧ ∀ r off, ref = some (r, off) →
        HoldsAt s'.heap ((s'.heap.refs r).ptr.add off) (cstrOf s pos len) := by
  unfold Vstr.exportCstrRef
  by_cases hav : s.base.cacheAvailable = true
  · rw [if_neg (by simpa using hav)]
    obtain ⟨P', s', ⟨e, ck⟩ | ⟨r, off, e, ex⟩⟩ :=
      exportCstrCache_spec rd.sound rd.posOk (rd.ptrSafe _) rd.mem h1 h2 hmax
    · rw [e]
      refine ⟨P', none, s', rfl, rd.leaves_kept ck, ck.content, ?_⟩
      rintro r off ⟨⟩
    · rw [e]
      have l := rd.leaves_kept ex.toCstrKept
      obtain ⟨data, hd, hr⟩ := ex.held
      have hlive : 0 < (s'.heap.refs r).ref := by
        have hc := l.sound.owned.refs r
        have hh : cstrHeld s'.base r = 1 := by
          rw [cstrHeld_some hd hr, oneUse_self]
        rw [Env.hold_ext, hh] at hc
        omega
      refine ⟨P', some (r, off), _, rfl, l.oneMore hlive, ?_, ?_⟩
      · rw [← ex.content]
        unfold content
        dsimp only
        rw [(like_refAdd s'.heap r).flat]
      · rintro r off ⟨⟩
        rw [refAdd_ptr]
        exact ex.bytes rd.cstr
  · rw [if_pos (by simpa using hav)]
    obtain ⟨P', s', ⟨e, kp, hb⟩ | ⟨e, -, ex, l, href, -, hh⟩⟩ :=
      exportCstrMake_spec rd.sound rd.posOk (rd.ptrSafe _) h1 h2
    · rw [e]
      refine ⟨P', none, s', rfl, ?_, kp.content, ?_⟩
      · exact rd.leaves kp.sound kp.frame kp.posOk (kp.ptrs rd.ptrs) (kp.fits rd.fits)
          (by rw [hb]) (cstrFollows_same (by rw [hb]) (by rw [hb]) kp.content)
      · rintro r off ⟨⟩
    · rw [e]
      refine ⟨P', some (s.heap.next, 0), s', rfl, ?_, ex.content, ?_⟩
      · refine rd.leaves ?_ ex.frame ex.posOk (ex.ptrs rd.ptrs) (ex.fits rd.fits)
          (cstrHeld_congr ex.grown.cstr)
          (cstrFollows_same ex.grown.cacheAvailable ex.grown.cstr ex.content)
        have he : ((E.hold (oneUse s.heap.next)).hold (cstrHeld s.base)) =
            ((E.hold (cstrHeld s.base)).hold (oneUse s.heap.next)) := by
          simp only [Env.hold, Env.mk.injEq, true_and]
          funext r
          omega
        change Sound ((E.hold (oneUse s.heap.next)).hold (cstrHeld s.base)) P' s'
        rw [he]
        exact ex.sound
      · rintro r off ⟨⟩
        rw [href]
        exact hh

end

/-- References that others hold are left alone. -/
theorem World.ext_cstr {user : Nat → Nat} (w : World k) (hji : j ≠ i)
    (hr : 0 < cstrHeld (w.bases j) r) : 0 < (w.env user i).ext r := by
  have hle : cstrHeld (w.bases j) r + heldBy (w.bases j).nodes r ≤
      ∑ j ∈ Finset.univ.erase i, (cstrHeld (w.bases j) r + heldBy (w.bases j).nodes r) :=
    Finset.single_le_sum (f := fun j => cstrHeld (w.bases j) r + heldBy (w.bases j).nodes r)
      (fun _ _ => Nat.zero_le _) (Finset.mem_erase.mpr ⟨hji, Finset.mem_univ j⟩)
  simp only [World.env]
  omega

namespace Sys

variable {t t' : Sys k}

/-- A call on one string leaves what the caches of the others hold. -/
theorem Good.same_other (g : Good mine P t)
    (fr : Frame (t.world.env t.user i) P t.world.heap P' h') (hji : j ≠ i)
    (hr : 0 < cstrHeld (t.world.bases j) r) : SameRef t.world.heap h' r :=
  fr.sameRef g.ok.sound.heap (g.live (i := j) (.inr hr)) (t.world.ext_cstr hji hr)

/-- A call on one string leaves what the caller holds. -/
theorem Good.same_user (g : Good mine P t)
    (fr : Frame (t.world.env t.user i) P t.world.heap P' h') (hr : 0 < t.user r) :
    SameRef t.world.heap h' r :=
  fr.sameRef g.ok.sound.heap (g.live (i := i) (.inl hr))
    (Nat.lt_of_lt_of_le hr (Nat.le_add_right _ _))

/-- A call on one string. -/
theorem Good.put (g : Good mine P t)
    (l : Leaves (t.world.env t.user i) P (t.world.st i) gained P' s') :
    Good mine P' ⟨t.world.put i s', fun r => t.user r + gained r⟩ where
  ok := by
    refine g.ok.put l.sound rfl (fun r => ?_) l.frame l.posOk l.ptrs l.fits
    simp only [Env.hold_ext, World.env]
    omega
  user x hx := (l.frame.place x (.inl (g.user x hx))).trans (g.user x hx)
  mem j := by
    by_cases hji : j = i
    · rw [hji, World.put_self]
      exact l.mem
    · rw [World.put_other _ _ hji, World.put_heap]
      intro data r hd hr
      have hheld : 0 < cstrHeld (t.world.bases j) r := by
        rw [cstrHeld_some hd hr, oneUse_self]
        exact Nat.one_pos
      have same := g.same_other l.frame hji hheld
      obtain ⟨hlent, hle⟩ := g.mem j data r hd hr
      rw [same.ptr, same.size]
      refine ⟨?_, hle⟩
      rw [l.frame.place _ (.inr (.inr ⟨r, hlent, t.world.ext_cstr hji hheld⟩))]
      exact hlent
  cstr j := by
    by_cases hji : j = i
    · rw [hji, World.put_st]
      exact l.cstr
    · have hst : (t.world.put i s').st j = ⟨s'.heap, t.world.bases j⟩ := by
        rw [World.st, World.put_other _ _ hji, World.put_heap]
      have hc := g.ok.sound.content_other g.ok.ptrs l.frame hji
      rw [hst] at hc ⊢
      have hl := g.length_text j
      have fo : CstrFollows (t.world.st j) ⟨s'.heap, t.world.bases j⟩ := cstrFollows_same rfl rfl hc
      exact fo.ok hl (by rw [hc]; exact hl) (fun r hr => g.same_other l.frame hji hr) (g.cstr j)

/-- The texts after a call on one string. -/
theorem Good.text_put (g : Good mine P t)
    (l : Leaves (t.world.env t.user i) P (t.world.st i) gained P' s') {user' : Nat → Nat} :
    text ⟨t.world.put i s', user'⟩ = Function.update t.text i (content s') := by
  funext j
  by_cases hji : j = i
  · rw [hji, Function.update_self, text, World.put_st]
  · rw [Function.update_of_ne hji]
    exact g.ok.sound.content_other g.ok.ptrs l.frame hji

/-- A call on one string that leaves its content. -/
theorem Good.text_put_same (g : Good mine P t)
    (l : Leaves (t.world.env t.user i) P (t.world.st i) gained P' s') {user' : Nat → Nat}
    (hc : content s' = content (t.world.st i)) : text ⟨t.world.put i s', user'⟩ = t.text := by
  rw [g.text_put l, hc]
  exact Function.update_eq_self i t.text

end Sys

end Vstr
