import Vstr.Lib.Run
import Vstr.World.Shared

/-!
# Runs of a program over its strings

Whatever calls a program makes, in whatever order and with whatever allocations failing,
its strings behave like separate lists of bytes, although they share nodes, buffers and
references. What a C string export hands out stays what it is.
-/

namespace Vstr

open Memory Splice Runs

variable {k : Nat} {mine : Blk → Prop} {P P' : Own} {i j : Fin k} {s' : St} {h' : Heap} {r : Nat}

/-- The point of view of no string: all references are held elsewhere. -/
def World.outer (user : Nat → Nat) (w : World k) : Env where
  me := k
  ext r := user r + ∑ j, (cstrHeld (w.bases j) r + heldBy (w.bases j).nodes r)

/-- What a string holds is held elsewhere. -/
theorem World.outer_ext {user : Nat → Nat} (w : World k) (j : Fin k)
    (hr : 0 < cstrHeld (w.bases j) r + heldBy (w.bases j).nodes r) : 0 < (w.outer user).ext r := by
  have hle : cstrHeld (w.bases j) r + heldBy (w.bases j).nodes r ≤
      ∑ j, (cstrHeld (w.bases j) r + heldBy (w.bases j).nodes r) :=
    Finset.single_le_sum (f := fun j => cstrHeld (w.bases j) r + heldBy (w.bases j).nodes r)
      (fun _ _ => Nat.zero_le _) (Finset.mem_univ j)
  simp only [World.outer]
  omega

namespace Sys

variable {t t' : Sys k} {user' : Nat → Nat}

/-- Every string is ready for a call. -/
theorem Good.settled (g : Good mine P t) (i : Fin k) :
    Settled (t.world.env t.user i) P (t.world.st i) :=
  ⟨g.ok.sound.sound i, g.ok.posOk i, g.ok.ptrs i, g.ok.fits i, g.mem i, g.cstr i⟩

/-! ## A call on a reference -/

theorem Good.outer (g : Good mine P t) : Owned (t.world.outer t.user) P t.world.heap [] where
  heap := g.ok.sound.heap
  nodes := ⟨List.nodup_nil, fun m hm => by cases hm⟩
  refs r := g.ok.sound.refs r

/-- The bytes of the strings are foreign to a call on a reference. -/
theorem Good.foreign_outer (g : Good mine P t) {m : Node} (hm : m ∈ (t.world.bases j).nodes)
    {p : Addr} (hp : exportNodePtr t.world.heap m = some p) :
    Foreign (t.world.outer user') P p.blk := by
  unfold exportNodePtr at hp
  cases hd : m.data with
  | buf =>
    rw [hd] at hp
    cases hp
    exact .inr (.inl ⟨j, Nat.ne_of_lt j.isLt, (g.ok.sound.nodes j).own m hm⟩)
  | non =>
    rw [hd] at hp
    cases hp
  | ptr a =>
    rw [hd] at hp
    obtain rfl : a = p := by simpa using hp
    exact .inl (g.ok.ptrs j m hm a hd)
  | ref r off =>
    rw [hd] at hp
    cases hp
    have href : m.ref = some r := by simp only [Node.ref, hd]
    have hheld : 0 < heldBy (t.world.bases j).nodes r :=
      List.countP_pos_iff.mpr ⟨m, hm, by simp [href]⟩
    have hlive := (g.ok.sound.sound j).owned.ref_pos hm href
    rw [Ptr.add_blk]
    exact g.ok.sound.heap.foreign_ref hlive (t.world.outer_ext j (by omega))

/-- A call on a reference leaves what the caches of the strings hold. -/
theorem Good.same_cache (g : Good mine P t)
    (fr : Frame (t.world.outer user') P t.world.heap P' h')
    (hr : 0 < cstrHeld (t.world.bases j) r) : SameRef t.world.heap h' r :=
  fr.sameRef g.ok.sound.heap (g.live (i := j) (.inr hr)) (t.world.outer_ext j (by omega))

/-- A call on a reference leaves the content of the strings. -/
theorem Good.content_heap (g : Good mine P t)
    (fr : Frame (t.world.outer user') P t.world.heap P' h') (j : Fin k) :
    content ⟨h', t.world.bases j⟩ = content (t.world.st j) := by
  unfold content World.st
  dsimp only
  congr 1
  apply flat_congr
  intro m hm
  apply nodeBytes_congr
  · exact (g.ok.sound.sound j).owned.exportNodePtr hm fr.refPtr
  · intro p hp
    apply read_congr
    intro o _
    rw [fr.mem p.blk (g.foreign_outer hm hp)]

/-- A call on a reference. -/
theorem Good.heap (g : Good mine P t) (ow : Owned (t.world.outer user') P' h' [])
    (fr : Frame (t.world.outer user') P t.world.heap P' h') :
    Good mine P' ⟨⟨h', t.world.bases⟩, user'⟩ where
  ok :=
    { sound :=
        { heap := ow.heap
          nodes := fun j => by
            refine ⟨(g.ok.sound.nodes j).nodup, fun m hm => ?_⟩
            have hown := (g.ok.sound.nodes j).own m hm
            exact (fr.place _ (.inr (.inl ⟨j, Nat.ne_of_lt j.isLt, hown⟩))).trans hown
          refs := ow.refs
          valid := fun j => by
            have hb : (h'.confs (t.world.bases j).conf).bufSz = _ := fr.bufSz _
            change Valid (h'.confs (t.world.bases j).conf).bufSz (t.world.bases j)
            rw [hb]
            exact g.ok.sound.valid j
          bufSz_pos := fun j => by
            have hb : (h'.confs (t.world.bases j).conf).bufSz = _ := fr.bufSz _
            change 0 < (h'.confs (t.world.bases j).conf).bufSz
            rw [hb]
            exact g.ok.sound.bufSz_pos j
          bufSz_le := fun j => by
            have hb : (h'.confs (t.world.bases j).conf).bufSz = _ := fr.bufSz _
            change (h'.confs (t.world.bases j).conf).bufSz ≤ _
            rw [hb]
            exact g.ok.sound.bufSz_le j }
      posOk := g.ok.posOk
      ptrs := fun j => (g.ok.ptrs j).stays fr
      fits := g.ok.fits }
  user x hx := (fr.place x (.inl (g.user x hx))).trans (g.user x hx)
  mem j := by
    intro data r hd hr
    have hheld : 0 < cstrHeld (t.world.bases j) r := by
      rw [cstrHeld_some hd hr, oneUse_self]
      exact Nat.one_pos
    have same := g.same_cache fr hheld
    obtain ⟨hlent, hle⟩ := g.mem j data r hd hr
    dsimp only
    rw [same.ptr, same.size]
    refine ⟨?_, hle⟩
    rw [fr.place _ (.inr (.inr ⟨r, hlent, t.world.outer_ext j (by omega)⟩))]
    exact hlent
  cstr j := by
    have hc := g.content_heap fr j
    have hl := g.length_text j
    have fo : CstrFollows (t.world.st j) ⟨h', t.world.bases j⟩ := cstrFollows_same rfl rfl hc
    exact fo.ok hl (by rw [hc]; exact hl) (fun r hr => g.same_cache fr hr) (g.cstr j)

/-! ## One call -/

/-- Memory that the program can let the library read: its own, or that of a reference it
has a use of. -/
def Readable (mine : Blk → Prop) (t : Sys k) (x : Blk) : Prop :=
  mine x ∨ ∃ r, 0 < t.user r ∧ (t.world.heap.refs r).ptr.blk = x

/-- An edit that the program may make: in range, with data that it has. -/
def Edit.Allowed (mine : Blk → Prop) (t : Sys k) (i : Fin k) : Edit → Prop
  | .addBuf pos buffer _ => pos ≤ (t.world.bases i).len ∧ t.Readable mine buffer.blk
  | .addNon pos _ => pos ≤ (t.world.bases i).len
  | .addRepChr pos _ _ => pos ≤ (t.world.bases i).len
  | .addPtr pos ptr len => pos ≤ (t.world.bases i).len ∧ mine ptr.blk ∧
    (AddKind.ptr ptr).MeantAt (t.world.st i) pos len
  | .addRef pos ref off len => pos ≤ (t.world.bases i).len ∧ 0 < t.user ref ∧
    (AddKind.ref ref off).MeantAt (t.world.st i) pos len ∧
    (AddKind.ref ref off).FitsAt (t.world.st i) pos len
  | .del pos len => 1 ≤ pos ∧ pos + len ≤ (t.world.bases i).len + 1

/-- What an edit is meant to do to the content. -/
def Edit.meaning (h : Heap) (c : List (Option UInt8)) : Edit → List (Option UInt8)
  | .addBuf pos buffer len => insertAfter c pos ((read h.mem buffer len).map some)
  | .addNon pos len => insertAfter c pos (List.replicate len none)
  | .addRepChr pos chr len => insertAfter c pos (List.replicate len (some chr))
  | .addPtr pos ptr len => insertAfter c pos ((read h.mem ptr len).map some)
  | .addRef pos ref off len =>
    insertAfter c pos ((read h.mem ((h.refs ref).ptr.add off) len).map some)
  | .del pos len => deleteRange c pos len

/-- Memory that the program lets a string read is foreign to the string. -/
theorem Good.foreign_readable (g : Good mine P t) {x : Blk} (hx : t.Readable mine x) :
    Foreign ((t.world.env t.user i).hold (cstrHeld (t.world.bases i))) P x := by
  rcases hx with hx | ⟨r, hr, rfl⟩
  · exact .inl (g.user x hx)
  · apply g.ok.sound.heap.foreign_ref (g.live (i := i) (.inl hr))
    simp only [Env.hold_ext, World.env]
    omega

/-- An allowed edit is made, or fails and leaves the content. -/
theorem Good.edit (g : Good mine P t) (e : Edit) (ha : e.Allowed mine t i) :
    Edits (t.world.env t.user i) P (t.world.st i) (e.meaning t.world.heap (t.text i))
      (e.run (t.world.st i)) := by
  have rd := g.settled i
  have sd := rd.sound
  have pk := rd.posOk
  cases e with
  | addBuf pos buffer len =>
    obtain ⟨hpos, hread⟩ := ha
    have hf := g.foreign_readable (i := i) hread
    refine rd.add hpos (addBuf_spec sd pk hpos buffer len) (by simp) ?_
      (AddKind.fitsAt_of_not_ref (by simp) _ _ _) fun x hx => ?_
    · exact meantAt_buf ⟨sd, pk, rd.ptrSafe _⟩ hpos hf
    · obtain rfl : buffer.blk = x := by simpa [AddKind.blk] using hx
      exact solid_of_foreign hf
  | addNon pos len =>
    refine rd.add ha (addNon_spec sd pk ha len) (by simp) ?_
      (AddKind.fitsAt_of_not_ref (by simp) _ _ _) (by simp [AddKind.blk])
    unfold AddKind.MeantAt
    split <;> trivial
  | addRepChr pos chr len =>
    refine rd.add ha (addRepChr_spec sd pk ha chr len) (by simp) ?_
      (AddKind.fitsAt_of_not_ref (by simp) _ _ _) (by simp [AddKind.blk])
    unfold AddKind.MeantAt
    split <;> trivial
  | addPtr pos ptr len =>
    obtain ⟨hpos, hmine, hm⟩ := ha
    have hu := g.user _ hmine
    refine rd.add hpos (addPtr_spec sd pk hpos ptr len) ?_ hm
      (AddKind.fitsAt_of_not_ref (by simp) _ _ _) fun x hx => ?_
    · rintro a ⟨⟩
      exact hu
    · obtain rfl : ptr.blk = x := by simpa [AddKind.blk] using hx
      exact solid_of_foreign (E := t.world.env t.user i) (.inl hu)
  | addRef pos ref off len =>
    obtain ⟨hpos, hr, hm, hf⟩ := ha
    have hlive := g.live (i := i) (.inl hr)
    refine rd.add hpos (addRef_spec sd pk hpos hlive off len) (by simp) hm hf fun x hx => ?_
    obtain rfl : ((t.world.st i).heap.refs ref).ptr.blk = x := by simpa [AddKind.blk] using hx
    exact g.ok.sound.heap.solid_ref hlive
  | del pos len =>
    by_cases h0 : len = 0
    · subst h0
      have e : Vstr.del (t.world.st i) pos 0 = (true, t.world.st i) := by
        simp [Vstr.del, delSum]
      refine ⟨⟨P, ?_⟩, ?_⟩
      · change Leaves _ _ _ _ _ (Vstr.del (t.world.st i) pos 0).2
        rw [e]
        exact rd.leaves_refl
      · change content (Vstr.del (t.world.st i) pos 0).2 =
          if (Vstr.del (t.world.st i) pos 0).1 then deleteRange (t.text i) pos 0 else _
        rw [e, deleteRange_zero]
        rfl
    · exact rd.del ha.1 ha.2 (by omega) (del_spec sd pk ha.1 ha.2)

/-- A call that the program may make. -/
def Act.Allowed (mine : Blk → Prop) (t : Sys k) : Act k → Prop
  | .edit i e => e.Allowed mine t i
  | .exportCstrPtr i pos len => 1 ≤ pos ∧ pos + len ≤ (t.world.bases i).len + 1 ∧
    (t.world.bases i).len < 2 ^ 64
  | .exportCstrRef i pos len => 1 ≤ pos ∧ pos + len ≤ (t.world.bases i).len + 1 ∧
    (t.world.bases i).len < 2 ^ 64
  | .refMakeMalloc _ => True
  | .refAdd ref => 0 < t.user ref
  | .refDel ref => 0 < t.user ref

/-- What a call does to separate lists: an edit that succeeds edits one of them. -/
def Act.effect (h : Heap) (c : Fin k → List (Option UInt8)) (a : Act k) (reply : Reply) :
    Fin k → List (Option UInt8) :=
  match a, reply with
  | .edit i e, .edited true => Function.update c i (e.meaning h (c i))
  | _, _ => c

/-- What a call hands to the program: a C string is the slice with a zero byte behind it, in
memory that the cache of the string, or the program, has. -/
def Act.Hands (t t' : Sys k) (a : Act k) (reply : Reply) : Prop :=
  match a, reply with
  | .exportCstrPtr i pos len, .cstr (some p) =>
    HoldsAt t'.world.heap p (cstrOf (t.world.st i) pos len) ∧
      ∃ r off, 0 < cstrHeld (t'.world.bases i) r ∧ p = (t'.world.heap.refs r).ptr.add off
  | .exportCstrRef i pos len, .cstrRef (some (r, off)) =>
    HoldsAt t'.world.heap ((t'.world.heap.refs r).ptr.add off)
      (cstrOf (t.world.st i) pos len) ∧ 0 < t'.user r
  | _, _ => True

/-- What one call does. -/
structure Steps (mine : Blk → Prop) (t : Sys k) (a : Act k) : Prop where
  /-- The next call finds everything in order. -/
  good : ∃ P', Good mine P' (a.step t)
  /-- The texts. -/
  text : (a.step t).text = a.effect t.world.heap t.text (a.run t).1
  /-- What is handed out. -/
  hands : a.Hands t (a.step t) (a.run t).1
  /-- References that the program keeps are left alone. -/
  user : ∀ r, 0 < t.user r → 0 < (a.step t).user r → SameRef t.world.heap (a.step t).world.heap r
  /-- Strings that the call is not about are left alone, and so are their caches. -/
  other : ∀ j, a.string ≠ some j → (a.step t).world.bases j = t.world.bases j ∧
    ∀ r, 0 < cstrHeld (t.world.bases j) r → SameRef t.world.heap (a.step t).world.heap r

/-- A call on one string. -/
theorem Good.steps_put (g : Good mine P t) {a : Act k} {gained : Nat → Nat}
    (hstr : a.string = some i)
    (l : Leaves (t.world.env t.user i) P (t.world.st i) gained P' s')
    (e : a.step t = ⟨t.world.put i s', fun r => t.user r + gained r⟩)
    (htext : (a.step t).text = a.effect t.world.heap t.text (a.run t).1)
    (hhands : a.Hands t (a.step t) (a.run t).1) : Steps mine t a where
  good := ⟨P', e ▸ g.put l⟩
  text := htext
  hands := hhands
  user r hr _ := by
    rw [e]
    exact g.same_user l.frame hr
  other j hj := by
    have hji : j ≠ i := by
      rintro rfl
      exact hj hstr
    rw [e]
    exact ⟨World.put_other _ _ hji, fun r hr => g.same_other l.frame hji hr⟩

/-- A call on a reference. -/
theorem Good.steps_heap (g : Good mine P t) {a : Act k}
    (ow : Owned (t.world.outer user') P' h' [])
    (fr : Frame (t.world.outer user') P t.world.heap P' h')
    (e : a.step t = ⟨⟨h', t.world.bases⟩, user'⟩)
    (htext : a.effect t.world.heap t.text (a.run t).1 = t.text)
    (hhands : a.Hands t (a.step t) (a.run t).1) : Steps mine t a where
  good := ⟨P', e ▸ g.heap ow fr⟩
  text := by
    rw [htext, e]
    funext j
    exact g.content_heap fr j
  hands := hhands
  user r hr hr' := by
    rw [e] at hr' ⊢
    have hext : 0 < (t.world.outer user').ext r := Nat.lt_of_lt_of_le hr' (Nat.le_add_right _ _)
    have hlive : 0 < (t.world.heap.refs r).ref := by
      have := g.ok.sound.refs r
      omega
    exact fr.sameRef g.ok.sound.heap hlive hext
  other j _ := by
    rw [e]
    exact ⟨rfl, fun r hr => g.same_cache fr hr⟩

/-- One allowed call, in any order with others and with any allocation failing. -/
theorem Act.steps (g : Good mine P t) (a : Act k) (ha : a.Allowed mine t) : Steps mine t a := by
  cases a with
  | edit i e =>
    have ed := g.edit e ha
    obtain ⟨P', l⟩ := ed.leaves
    refine g.steps_put rfl l rfl ?_ trivial
    change text ⟨t.world.put i (e.run (t.world.st i)).2, t.user⟩ =
      Act.effect t.world.heap t.text (.edit i e) (.edited (e.run (t.world.st i)).1)
    rw [g.text_put l, ed.content]
    cases (e.run (t.world.st i)).1 with
    | true => rfl
    | false => exact Function.update_eq_self i t.text
  | exportCstrPtr i pos len =>
    obtain ⟨P', p, s', e, l, hc, hp⟩ := (g.settled i).exportCstrPtr ha.1 ha.2.1 ha.2.2
    have er : (Act.exportCstrPtr i pos len).run t = (.cstr p, ⟨t.world.put i s', t.user⟩) := by
      simp only [Act.run, World.on, e]
    refine g.steps_put rfl l (by rw [Act.step, er]; rfl) ?_ ?_
    · rw [Act.step, er]
      exact g.text_put_same l hc
    · rw [Act.step, er]
      cases p with
      | none => trivial
      | some p =>
        obtain ⟨hh, r, off, hheld, rfl⟩ := hp p rfl
        exact ⟨hh, r, off, by rw [World.put_self]; exact hheld, rfl⟩
  | exportCstrRef i pos len =>
    obtain ⟨P', ref, s', e, l, hc, hp⟩ := (g.settled i).exportCstrRef ha.1 ha.2.1 ha.2.2
    have er : (Act.exportCstrRef i pos len).run t =
        (.cstrRef ref, ⟨t.world.put i s', fun r => t.user r + gainedRef ref r⟩) := by
      simp only [Act.run, World.on, e]
      cases ref <;> rfl
    refine g.steps_put rfl l (by rw [Act.step, er]) ?_ ?_
    · rw [Act.step, er]
      exact g.text_put_same l hc
    · rw [Act.step, er]
      cases ref with
      | none => trivial
      | some ref =>
        refine ⟨hp ref.1 ref.2 rfl, ?_⟩
        change 0 < t.user ref.1 + oneUse ref.1 ref.1
        rw [oneUse_self]
        exact Nat.succ_pos _
  | refMakeMalloc len =>
    rcases refMakeMalloc_cases t.world.heap len with e | e
    · have er : (Act.refMakeMalloc len).run t =
          (.made none, ⟨⟨t.world.heap.malloc.2, t.world.bases⟩, t.user⟩) := by
        simp only [Act.run, e]
      have mk := makes_malloc (E := t.world.outer t.user) g.ok.sound.heap
      exact g.steps_heap (g.outer.makes mk) mk.frame (by rw [Act.step, er]) rfl trivial
    · have er : (Act.refMakeMalloc len).run t =
          (.made (some t.world.heap.next), ⟨⟨t.world.heap.lendNext len, t.world.bases⟩,
            gain t.user t.world.heap.next⟩) := by
        simp only [Act.run, e]
      have ow := g.outer.lendNext len
      have hE : (t.world.outer t.user).hold (oneUse t.world.heap.next) =
          t.world.outer (gain t.user t.world.heap.next) := by
        simp only [Env.hold, World.outer, Env.mk.injEq, true_and, gain, oneUse]
        funext r
        omega
      rw [hE] at ow
      exact g.steps_heap ow (g.ok.sound.heap.frame_lendNext len) (by rw [Act.step, er]) rfl trivial
  | refAdd ref =>
    have ow := g.outer.refAdd (r := ref) (by
      have := g.ok.sound.refs ref
      have : 0 < t.user ref := ha
      omega)
    have hE : (t.world.outer t.user).hold (oneUse ref) = t.world.outer (gain t.user ref) := by
      simp only [Env.hold, World.outer, Env.mk.injEq, true_and, gain, oneUse]
      funext r
      omega
    rw [hE] at ow
    exact g.steps_heap ow (like_refAdd _ _).frame_same rfl rfl trivial
  | refDel ref =>
    have hpos : 0 < t.user ref := ha
    have hE : t.world.outer t.user = (t.world.outer (lose t.user ref)).hold (oneUse ref) := by
      simp only [Env.hold, World.outer, Env.mk.injEq, true_and, lose, oneUse]
      funext r
      split
      · rename_i hr
        subst hr
        omega
      · omega
    have ow := g.outer
    rw [hE] at ow
    obtain ⟨P', ow', fr⟩ := ow.refDel
    exact g.steps_heap ow' fr rfl rfl trivial

/-! ## Runs -/

/-- What can be seen of a program between two calls. -/
structure Consistent (t : Sys k) : Prop where
  /-- Every string is well formed. -/
  valid : ∀ i, Valid (t.world.st i).conf.bufSz (t.world.bases i)
  /-- Every reference counts its uses. -/
  counts : ∀ r, (t.world.heap.refs r).ref =
    t.user r + ∑ i, (cstrHeld (t.world.bases i) r + heldBy (t.world.bases i).nodes r)
  /-- No node is on two lists. -/
  apart : ∀ i j, ∀ m ∈ (t.world.bases i).nodes, ∀ m' ∈ (t.world.bases j).nodes,
    m.id = m'.id → i = j
  /-- No node in use is on a spare list. -/
  spare : ∀ i, ∀ m ∈ (t.world.bases i).nodes, ∀ c ty, m.id ∉ (t.world.heap.confs c).spare ty

theorem Good.consistent (g : Good mine P t) : Consistent t where
  valid := g.ok.sound.valid
  counts := g.ok.sound.refs
  apart i j m hm m' hm' e := by
    have hi := (g.ok.sound.nodes i).own m hm
    have hj := (g.ok.sound.nodes j).own m' hm'
    rw [e, hj] at hi
    injection hi with hi
    exact Fin.ext hi.symm
  spare i m hm c ty hs := by
    have hi := (g.ok.sound.nodes i).own m hm
    rw [g.ok.sound.heap.spareOwn c ty m.id hs] at hi
    cases hi

/-- A program that makes calls, each of which is allowed where it is made. -/
def Program (mine : Blk → Prop) : Sys k → List (Act k) → Sys k → Prop :=
  Run Act.step fun t a => a.Allowed mine t

/-- Everything is in order in every state that a program reaches. -/
theorem Program.good {s : Sys k} {as : List (Act k)} (g : Good mine P s)
    (p : Program mine s as t) : ∃ P', Good mine P' t := by
  apply Run.invariant (fun t => ∃ P', Good mine P' t) ⟨P, g⟩ _ p
  rintro t a ⟨P', g'⟩ ha
  exact (a.steps g' ha).good

/-- The strings of a program that starts: all new, with an allocator that grants what
`grant` says. -/
def start (k : Nat) (mem : Mem Blk UInt8) (refs : Nat → Ref) (next : Nat) (conf : Conf)
    (grant : Nat → Bool) (cache : Fin k → Bool) (vec : Fin k → Option IovecData) : Sys k :=
  let h := bareHeap mem refs next conf grant
  ⟨⟨h, fun i => initBase h 0 (cache i) (vec i)⟩, fun r => (refs r).ref⟩

/-- The memory that a program has when it starts. -/
def Started (next : Nat) (x : Blk) : Prop := bareOwn next x = .user

section

variable {mem : Mem Blk UInt8} {refs : Nat → Ref} {next bufSz : Nat} {splitBufDel : Bool}
  {grant : Nat → Bool} {cache : Fin k → Bool} {vec : Fin k → Option IovecData}
  {as : List (Act k)} {a : Act k} {pos len off : Nat}

theorem good_start (hr : UserRefs next refs) (h0 : 0 < bufSz) (h1 : bufSz ≤ maxNodeBuf) :
    Good (Started next) (bareOwn next)
      (start k mem refs next (bareConf bufSz splitBufDel) grant cache vec) where
  ok :=
    { sound :=
        { heap := heapOk_bare hr
          nodes := fun i => ⟨List.nodup_nil, fun m hm => by cases hm⟩
          refs := fun r => by
            change (refs r).ref = (refs r).ref + ∑ _i : Fin k, 0
            rw [Finset.sum_const_zero, Nat.add_zero]
          valid := fun i => (sound_initBase (E := ⟨0, fun r => (refs r).ref⟩) (heapOk_bare hr)
            (fun _ => rfl) h0 h1 (cache i) (vec i)).valid
          bufSz_pos := fun _ => h0
          bufSz_le := fun _ => h1 }
      posOk := fun _ => posOk_of_none rfl
      ptrs := fun _ m hm => by cases hm
      fits := fun _ m hm => by cases hm }
  user _ hx := hx
  mem i data r hd _ := by cases hd
  cstr i data r _ hd _ _ := by cases hd

/-- Two new strings next to the text `abcd`. -/
def pair : Sys 2 :=
  start 2 (textMem [97, 98, 99, 100] 0) (textRef 0) 1 (bareConf 3 false) (fun _ => true)
    (fun _ => true) fun _ => none

/-- The text goes into the first string. -/
def addText : Act 2 := .edit 0 (.addBuf 0 ⟨.ext 0, 0⟩ 4)

/-- A reference to `bcd` is exported. -/
def exportRest : Act 2 := .exportCstrRef 0 2 3

/-- Part of what the reference has goes into the second string. -/
def addPart : Act 2 := .edit 1 (.addRef 0 3 1 2)

/-- The first string is emptied. -/
def clear : Act 2 := .edit 0 (.del 1 4)

theorem allowed_addText : addText.Allowed (Started 1) pair := ⟨Nat.zero_le _, .inl rfl⟩

theorem allowed_exportRest : exportRest.Allowed (Started 1) (addText.step pair) := by
  unfold exportRest Act.Allowed
  decide

theorem program_pair :
    Program (Started 1) pair [addText, exportRest] (exportRest.step (addText.step pair)) :=
  (Run.single allowed_addText).snoc allowed_exportRest

theorem allowed_addPart :
    addPart.Allowed (Started 1) (exportRest.step (addText.step pair)) := by
  refine ⟨Nat.zero_le _, show 0 < _ by decide, ⟨show 1 < 2 ^ 32 by decide,
    show 2 ≤ maxNodeAll by decide⟩, ?_⟩
  rintro r off ⟨⟩
  exact ⟨by decide, by decide⟩

/-- A reference to a C string holds it until the program gives its uses back. -/
theorem exported_ref_stays (hr : UserRefs next refs) (h0 : 0 < bufSz) (h1 : bufSz ≤ maxNodeBuf)
    (p : Program (Started next)
      (start k mem refs next (bareConf bufSz splitBufDel) grant cache vec) as t)
    (ha : (Act.exportCstrRef i pos len).Allowed (Started next) t)
    (e : ((Act.exportCstrRef i pos len).run t).1 = .cstrRef (some (r, off)))
    {bs : List (Act k)} {u : Sys k}
    (later : Run Act.step (fun u b => b.Allowed (Started next) u ∧ 0 < (b.step u).user r)
      ((Act.exportCstrRef i pos len).step t) bs u) :
    0 < (u.world.heap.refs r).ref ∧
      HoldsAt u.world.heap ((u.world.heap.refs r).ptr.add off) (cstrOf (t.world.st i) pos len) := by
  obtain ⟨P, g⟩ := p.good (good_start hr h0 h1)
  have st := (Act.exportCstrRef i pos len).steps g ha
  have hands := st.hands
  rw [e] at hands
  obtain ⟨hh, hpos⟩ := hands
  obtain ⟨⟨P', g'⟩, hu, same⟩ : (∃ P', Good (Started next) P' u) ∧ 0 < u.user r ∧
      SameRef ((Act.exportCstrRef i pos len).step t).world.heap u.world.heap r := by
    apply Run.invariant (fun u => (∃ P', Good (Started next) P' u) ∧ 0 < u.user r ∧
      SameRef ((Act.exportCstrRef i pos len).step t).world.heap u.world.heap r)
      ⟨st.good, hpos, SameRef.refl _ _⟩ _ later
    rintro v b ⟨⟨P₁, g₁⟩, hv, same⟩ ⟨hb, hkeep⟩
    have sb := b.steps g₁ hb
    exact ⟨sb.good, hkeep, same.trans (sb.user r hv hkeep)⟩
  exact ⟨g'.live (i := i) (.inl hu), same.holdsAt hh⟩

theorem allowed_clear : clear.Allowed (Started 1) (exportRest.step (addText.step pair)) := by
  unfold clear Act.Allowed Edit.Allowed
  decide

/-- The reference outlives the text it was made from. -/
theorem exported_ref_stays_pair :
    HoldsAt (clear.step (exportRest.step (addText.step pair))).world.heap ⟨.ext 3, 0⟩
      [some 98, some 99, some 100, some 0] := by
  have e : (exportRest.run (addText.step pair)).1 = .cstrRef (some (3, 0)) := rfl
  have h := exported_ref_stays (userRefs_text 0) (by decide) (by decide)
    (Run.single allowed_addText) allowed_exportRest e
    (Run.single ⟨allowed_clear, show 0 < _ by decide⟩)
  exact h.2

/-- A pointer to a C string is good until the next call on its string. -/
theorem exported_ptr_stays (hr : UserRefs next refs) (h0 : 0 < bufSz) (h1 : bufSz ≤ maxNodeBuf)
    (p : Program (Started next)
      (start k mem refs next (bareConf bufSz splitBufDel) grant cache vec) as t)
    (ha : (Act.exportCstrPtr i pos len).Allowed (Started next) t) {ptr : Addr}
    (e : ((Act.exportCstrPtr i pos len).run t).1 = .cstr (some ptr))
    {bs : List (Act k)} {u : Sys k}
    (later : Run Act.step (fun u b => b.Allowed (Started next) u ∧ b.string ≠ some i)
      ((Act.exportCstrPtr i pos len).step t) bs u) :
    HoldsAt u.world.heap ptr (cstrOf (t.world.st i) pos len) := by
  obtain ⟨P, g⟩ := p.good (good_start hr h0 h1)
  have st := (Act.exportCstrPtr i pos len).steps g ha
  have hands := st.hands
  rw [e] at hands
  obtain ⟨hh, r, off, hheld, rfl⟩ := hands
  obtain ⟨-, -, same⟩ : (∃ P', Good (Started next) P' u) ∧
      u.world.bases i = ((Act.exportCstrPtr i pos len).step t).world.bases i ∧
      SameRef ((Act.exportCstrPtr i pos len).step t).world.heap u.world.heap r := by
    apply Run.invariant (fun u => (∃ P', Good (Started next) P' u) ∧
      u.world.bases i = ((Act.exportCstrPtr i pos len).step t).world.bases i ∧
      SameRef ((Act.exportCstrPtr i pos len).step t).world.heap u.world.heap r)
      ⟨st.good, rfl, SameRef.refl _ _⟩ _ later
    rintro v b ⟨⟨P₁, g₁⟩, hv, same⟩ ⟨hb, hother⟩
    have sb := b.steps g₁ hb
    obtain ⟨hbase, hsame⟩ := sb.other i hother
    exact ⟨sb.good, hbase.trans hv, same.trans (hsame r (by rw [hv]; exact hheld))⟩
  have hu := same.holdsAt hh
  rwa [same.ptr] at hu

/-- A pointer to `bcd` is exported. -/
def showRest : Act 2 := .exportCstrPtr 0 2 3

/-- The second string is written. -/
def addOther : Act 2 := .edit 1 (.addRepChr 0 120 5)

/-- The pointer is still good. -/
theorem exported_ptr_stays_pair :
    HoldsAt (addOther.step (showRest.step (addText.step pair))).world.heap ⟨.ext 3, 0⟩
      [some 98, some 99, some 100, some 0] := by
  have e : (showRest.run (addText.step pair)).1 = .cstr (some ⟨.ext 3, 0⟩) := rfl
  have hother : addOther.string ≠ some 0 := by
    rintro ⟨⟩
  exact exported_ptr_stays (userRefs_text 0) (by decide) (by decide)
    (Run.single allowed_addText) allowed_exportRest e (Run.single ⟨Nat.zero_le _, hother⟩)

end

end Sys

end Vstr
