import Vstr.Posix.Write

/-!
# A string between a producer and a file

Data of any kind is appended to a string, and its front is written to a file, a piece at a
time and as the system takes it. The file gets what was appended, in order, and the string
holds the rest.
-/

namespace Vstr

open Memory Splice Runs

variable {E : Env} {P P' : Own} {s : St} {k : AddKind} {len maxIov : Nat}

/-- The string, what the file got, and what was appended. -/
structure Pipe where
  /-- The string. -/
  st : St
  /-- What the file got. -/
  file : List (Option UInt8)
  /-- What was appended. -/
  fed : List (Option UInt8)

/-- A call on the string. -/
inductive PipeCall where
  /-- An add function at the end. -/
  | append (k : AddKind) (len : Nat)
  /-- `vstr_export_iovec_ptr_all`. -/
  | exportAll
  /-- `vstr_sc_write_fd` from the front. -/
  | write (as : List Writev) (len : Nat)

namespace PipeCall

/-- What the call leaves. -/
def run (maxIov : Nat) (p : Pipe) : PipeCall → Pipe
  | append k len =>
    let r := k.add p.st p.st.base.len len
    { p with st := r.2, fed := if r.1 then p.fed ++ k.src p.st.heap len else p.fed }
  | exportAll => { p with st := (exportIovecPtrAll p.st).2.2 }
  | write as len =>
    let r := scWriteFd maxIov as p.st 1 len
    { p with st := r.st, file := p.file ++ r.out }

/-- The data that is appended is apart from the string and stays, no more is written than there
is, and the arrays of vectors can be as long as they have to be. -/
def Apart (E : Env) (P : Own) (p : Pipe) : PipeCall → Prop
  | append k len => (∀ x, k.blk p.st.heap = some x → Foreign E P x) ∧
    (∀ r, k.held = some r → 0 < E.ext r) ∧ k.FitsAt p.st p.st.base.len len ∧
    k.MeantAt p.st p.st.base.len len
  | exportAll => p.st.RoomFor p.st.base.num
  | write _ len => len ≤ p.st.base.len ∧ p.st.RoomFor p.st.base.num

end PipeCall

/-- A run of calls. -/
def PipeRun (maxIov : Nat) (E : Env) (P : Own) : Pipe → List PipeCall → Pipe → Prop :=
  Run (PipeCall.run maxIov) (PipeCall.Apart E P)

/-- Nothing is lost between the producer and the file, and nothing changes its place. -/
structure Carries (E : Env) (P : Own) (s : St) (p : Pipe) : Prop where
  /-- Both caches stay right. -/
  cached : StaysCached E P s p.st
  /-- The file and the string are what was there and what was appended. -/
  order : p.file ++ content p.st = content s ++ p.fed

/-- Appending. -/
theorem append_carries (cd : Cached E P s) (hb : ∀ x, k.blk s.heap = some x → Foreign E P x)
    (hr : ∀ r, k.held = some r → 0 < E.ext r) (hf : k.FitsAt s s.base.len len)
    (hm : k.MeantAt s s.base.len len) :
    StaysCached E P s (k.add s s.base.len len).2 ∧
      content (k.add s s.base.len len).2 = content s ++
        if (k.add s s.base.len len).1 then k.src s.heap len else [] := by
  have u := cd.usable
  have sd := u.sound
  have hpos := Nat.le_refl s.base.len
  have hptr : ∀ a, k = .ptr a → Foreign E P a.blk := by
    rintro a rfl
    exact hb _ rfl
  have hlive : ∀ r, k.held = some r → 0 < (s.heap.refs r).ref := by
    intro r e
    have := sd.owned.refs r
    have := hr r e
    omega
  have hprep : k.Prepends s s.base.len len := fun h h' => absurd h h'
  have hshown := k.add_shown sd cd.posOk hpos cd.shown hprep
  obtain ⟨P', t, ⟨e, st⟩ | ⟨e, ⟨h0, rfl, rfl⟩ | i⟩⟩ := k.add_spec sd cd.posOk hpos hlive len
  · have hlen : 0 < len := by
      by_contra h0
      obtain rfl : len = 0 := by omega
      rw [k.add_zero hpos] at e
      cases e
    rw [e] at hshown ⊢
    obtain ⟨pk, -⟩ | ⟨hlt, -⟩ := k.add_failed sd cd.posOk hpos hlen e
    · refine ⟨⟨P', st.cached cd pk hshown, st.frame⟩, ?_⟩
      rw [if_neg (by simp), List.append_nil]
      exact st.content u.ptrSafe cd.fits
    · omega
  · rw [e]
    refine ⟨⟨P', cd, Frame.refl _ _ _⟩, ?_⟩
    rw [if_pos rfl, List.length_eq_zero_iff.mp ((k.length_src t.heap len).trans h0),
      List.append_nil]
  · rw [e] at hshown ⊢
    refine ⟨⟨P', i.cached cd hptr hf hshown, i.frame⟩, ?_⟩
    obtain ⟨xs, -, hc, hxs⟩ := i.content u.ptrSafe fun _ => cd.fits.cutFits _
    rw [if_pos rfl, hc, hxs hm fun x hx => solid_of_foreign (hb x hx), insertAfter,
      ← length_content sd.valid, List.take_length, List.drop_length, List.append_nil]

/-- One call. -/
theorem Carries.step {p : Pipe} {c : PipeCall} (hm : 0 < maxIov) (cr : Carries E P s p)
    (ha : c.Apart E P p) : Carries E P s (c.run maxIov p) := by
  obtain ⟨⟨P₁, cd, fr⟩, order⟩ := cr
  cases c with
  | append k len =>
    obtain ⟨hb, hr, hf, hmeant⟩ := ha
    obtain ⟨⟨P₂, cd₂, fr₂⟩, hc⟩ :=
      append_carries cd (fun x hx => fr.foreign (hb x hx)) hr hf hmeant
    refine ⟨⟨P₂, cd₂, fr.trans fr₂⟩, ?_⟩
    show p.file ++ content (k.add p.st p.st.base.len len).2 = content s ++
      if (k.add p.st p.st.base.len len).1 then p.fed ++ k.src p.st.heap len else p.fed
    rw [hc, ← List.append_assoc, order]
    split
    · rw [List.append_assoc]
    · rw [List.append_nil]
  | exportAll =>
    obtain ⟨rv, al⟩ := exportIovecPtrAll_spec cd.usable.sound cd.shown ha
    refine ⟨⟨P₁, rv.cached cd, fr.trans rv.makes.frame⟩, ?_⟩
    show p.file ++ content (exportIovecPtrAll p.st).2.2 = _
    rw [al.content]
    exact order
  | write as len =>
    have w := write_fd_moves cd hm as (Nat.le_refl 1)
      (show 1 + len ≤ p.st.base.len + 1 by have : len ≤ p.st.base.len := ha.1; omega) (.inl rfl)
      fun _ => ha.2
    obtain ⟨P₂, cd₂, fr₂⟩ := w.cached
    refine ⟨⟨P₂, cd₂, fr.trans fr₂⟩, ?_⟩
    have ho := w.out
    have hc := w.rest
    show p.file ++ (scWriteFd maxIov as p.st 1 len).out ++
      content (scWriteFd maxIov as p.st 1 len).st = content s ++ p.fed
    have hsplit := slice_append_deleteRange (content p.st)
      (scWriteFd maxIov as p.st 1 len).out.length
    rw [← ho] at hsplit
    rw [hc, List.append_assoc, ← order, hsplit]

/-- Four bytes are added and one of them is written, then one more is added and two are written,
after an interrupt. -/
def piping : List PipeCall :=
  [.append (.buf ⟨.ext 0, 0⟩) 4, .write [.took 1] 4, .append (.repChr 45) 1,
    .write [.eintr, .took 2] 4]

/-- The pipe it leaves. -/
def piped : Pipe := piping.foldl (PipeCall.run 1) ⟨blank, [], []⟩

theorem pipeRun_piped : PipeRun 1 alone (bareOwn 1) ⟨blank, [], []⟩ piping piped := by
  apply Run.append Run.nil
  refine ⟨⟨?_, fun r e => (by cases e), ?_, ?_⟩,
    ⟨by decide, by unfold St.RoomFor; decide⟩,
    ⟨fun x h => (by cases h), fun r e => (by cases e), ?_, ?_⟩,
    ⟨by decide, by unfold St.RoomFor; decide⟩, trivial⟩
  · intro x h
    cases h
    exact .inl rfl
  · rw [AddKind.FitsAt, if_pos (by decide)]
    rintro r off e
    cases e
  · rw [AddKind.MeantAt, if_pos (by decide)]
    exact fun h => absurd rfl h
  · rw [AddKind.FitsAt, if_neg (by decide)]
    trivial
  · rw [AddKind.MeantAt, if_neg (by decide)]
    trivial

end Vstr
