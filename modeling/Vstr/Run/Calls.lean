import Vstr.Lib.Run
import Vstr.Edit.Del
import Vstr.Edit.Grant
import Vstr.Own.Init

/-!
# Sequences of edits of one string

Any sequence of the add and delete functions, on any layout, with any allocation
failing, does to the content what the same sequence of insertions and deletions does to
a list.
-/

namespace Vstr

open Memory Splice Runs

/-- A string that the edit functions can be called on. -/
structure Usable (E : Env) (P : Own) (s : St) : Prop where
  /-- Places and structure. -/
  sound : Sound E P s
  /-- The position cache names a node of the list and where it starts. -/
  posOk : PosOk False s.base
  /-- The memory that `PTR` nodes name is not the library's to change. -/
  ptrSafe : PtrSafe E P s.base.nodes

/-- One call of an edit function; the `extern` ones are the slow paths. -/
inductive Call where
  | addBuf (pos : Nat) (buffer : Addr) (len : Nat)
  | addNon (pos len : Nat)
  | addRepChr (pos : Nat) (chr : UInt8) (len : Nat)
  | del (pos len : Nat)
  | externAddBuf (pos : Nat) (buffer : Addr) (len : Nat)
  | externAddRepChr (pos : Nat) (chr : UInt8) (len : Nat)
  | externDel (pos len : Nat)

namespace Call

/-- The result of a call and the state it leaves. -/
def run (s : St) : Call → Bool × St
  | addBuf pos buffer len => Vstr.addBuf s pos buffer len
  | addNon pos len => Vstr.addNon s pos len
  | addRepChr pos chr len => Vstr.addRepChr s pos chr len
  | del pos len => Vstr.del s pos len
  | externAddBuf pos buffer len => Vstr.externAddBuf s pos buffer len
  | externAddRepChr pos chr len => Vstr.externAddRepChr s pos chr len
  | externDel pos len => Vstr.externDel s pos len

/-- What the call is meant to do to the content. -/
def meaning (h : Heap) (c : List (Option UInt8)) : Call → List (Option UInt8)
  | addBuf pos buffer len => insertAfter c pos ((read h.mem buffer len).map some)
  | addNon pos len => insertAfter c pos (List.replicate len none)
  | addRepChr pos chr len => insertAfter c pos (List.replicate len (some chr))
  | del pos len => deleteRange c pos len
  | externAddBuf pos buffer len => insertAfter c pos ((read h.mem buffer len).map some)
  | externAddRepChr pos chr len => insertAfter c pos (List.replicate len (some chr))
  | externDel pos len => deleteRange c pos len

/-- Positions and lengths are in range. The slow paths are not called for nothing. -/
def InRange (b : Base) : Call → Prop
  | addBuf pos _ _ => pos ≤ b.len
  | addNon pos _ => pos ≤ b.len
  | addRepChr pos _ _ => pos ≤ b.len
  | del pos len => 1 ≤ pos ∧ pos + len ≤ b.len + 1
  | externAddBuf pos _ len => pos ≤ b.len ∧ 0 < len
  | externAddRepChr pos _ len => pos ≤ b.len ∧ 0 < len
  | externDel pos len => 1 ≤ pos ∧ pos + len ≤ b.len + 1 ∧ 0 < len

/-- The data comes from memory that is not the string's own. -/
def Apart (E : Env) (P : Own) : Call → Prop
  | addBuf _ buffer _ => Foreign E P buffer.blk
  | externAddBuf _ buffer _ => Foreign E P buffer.blk
  | _ => True

instance (b : Base) : (c : Call) → Decidable (c.InRange b)
  | addBuf _ _ _ => inferInstanceAs (Decidable (_ ≤ _))
  | addNon _ _ => inferInstanceAs (Decidable (_ ≤ _))
  | addRepChr _ _ _ => inferInstanceAs (Decidable (_ ≤ _))
  | del _ _ => inferInstanceAs (Decidable (_ ∧ _))
  | externAddBuf _ _ _ => inferInstanceAs (Decidable (_ ∧ _))
  | externAddRepChr _ _ _ => inferInstanceAs (Decidable (_ ∧ _))
  | externDel _ _ => inferInstanceAs (Decidable (_ ∧ _))

end Call

variable {E : Env} {P P' : Own} {s t : St}

/-- What a call does: it keeps the string usable, and it edits the content, or fails and
leaves it. -/
structure Keeps (E : Env) (P : Own) (t : St) (edited : List (Option UInt8)) (r : Bool × St) :
    Prop where
  /-- The string stays usable, and foreign blocks are left alone. -/
  usable : ∃ P', Usable E P' r.2 ∧ Frame E P t.heap P' r.2.heap
  /-- Offsets do not wrap. -/
  fits : Fits r.2.base.nodes
  /-- Success edits the content. -/
  success : r.1 = true → content r.2 = edited
  /-- Failure leaves it. -/
  failure : r.1 = false → content r.2 = content t

theorem Call.Apart.frame {c : Call} {h h' : Heap} (ha : c.Apart E P) (fr : Frame E P h P' h') :
    c.Apart E P' := by
  cases c with
  | addBuf pos a len => exact fr.foreign ha
  | externAddBuf pos a len => exact fr.foreign ha
  | _ => trivial

/-- The node at a position is one of the string's own. -/
theorem Usable.upTo_own {pos : Nat} (u : Usable E P t) (h1 : 1 ≤ pos) (hpos : pos ≤ t.base.len) :
    P (.node (t.upTo pos).id) = .base E.me := by
  obtain ⟨pre, n, post, hat, -, -⟩ :=
    basePos_at u.sound.valid u.sound.owned.nodes.nodup u.posOk h1 hpos true
  have hnode : t.base.node (basePos t.base pos true).1.idx = n := by
    rw [hat.idx]
    exact node_of_eq hat.nodes
  change P (.node (t.base.node (basePos t.base pos true).1.idx).id) = .base E.me
  rw [hnode]
  exact u.sound.owned.nodes.own n (by rw [hat.nodes]; simp)

/-- Data that is copied from memory which is not the string's own goes in as it is meant
to. -/
theorem meantAt_buf {pos len : Nat} {a : Addr} (u : Usable E P t) (hpos : pos ≤ t.base.len)
    (ha : Foreign E P a.blk) : (AddKind.buf a).MeantAt t pos len := by
  unfold AddKind.MeantAt
  split
  · intro hu e
    obtain ⟨n, ns, hns, -, -⟩ := u.sound.valid.used hu
    rw [node_zero_of_eq hns] at e
    have hown := u.sound.owned.nodes.own n (by rw [hns]; simp)
    rw [← e] at hown
    exact not_foreign_of_base hown ha
  · intro e
    have hown := u.upTo_own (by omega) hpos
    rw [← e] at hown
    exact absurd ha (not_foreign_of_base hown)

/-- Only references have offsets that could wrap. -/
theorem AddKind.fitsAt_of_not_ref {k : AddKind} (hk : ∀ r off, k ≠ .ref r off) (t : St)
    (pos len : Nat) : k.FitsAt t pos len := by
  unfold AddKind.FitsAt AddKind.Fits
  split
  · intro r off e
    exact absurd e (hk r off)
  · split
    · exact absurd rfl (hk _ _)
    · trivial

/-- An add function keeps the string usable. -/
theorem AddSpec.usable {k : AddKind} {pos len : Nat} {r : Bool × St} (u : Usable E P t)
    (a : AddSpec False E P t k pos len r) (hp : ∀ a, k = .ptr a → Foreign E P a.blk) :
    ∃ P', Usable E P' r.2 ∧ Frame E P t.heap P' r.2.heap := by
  obtain ⟨P', s', ⟨rfl, st⟩ | ⟨rfl, ⟨rfl, rfl, rfl⟩ | i⟩⟩ := a
  · exact ⟨P', ⟨st.sound, st.posOk, (st.ptrs u.ptrSafe).frame st.frame⟩, st.frame⟩
  · exact ⟨P', u, Frame.refl _ _ _⟩
  · exact ⟨P', ⟨i.sound, i.posOk, (i.ptrs u.ptrSafe hp).frame i.frame⟩, i.frame⟩

/-- An add function keeps the string usable and inserts its data. -/
theorem AddSpec.keeps {k : AddKind} {pos len : Nat} {r : Bool × St} (u : Usable E P t)
    (hf : Fits t.base.nodes) (a : AddSpec False E P t k pos len r) (hp : ∀ a, k ≠ .ptr a)
    (hr : ∀ r off, k ≠ .ref r off) (hm : k.MeantAt t pos len)
    (hb : ∀ x, k.blk t.heap = some x → Foreign E P x) :
    Keeps E P t (insertAfter (content t) pos (k.src t.heap len)) r := by
  have hu := a.usable u fun a e => absurd e (hp a)
  obtain ⟨P', s', ⟨rfl, st⟩ | ⟨rfl, ⟨rfl, rfl, rfl⟩ | i⟩⟩ := a
  · exact ⟨hu, st.fits hf, (fun h => by cases h), fun _ => st.content u.ptrSafe hf⟩
  · refine ⟨hu, hf, fun _ => ?_, fun _ => rfl⟩
    have h0 : k.src s'.heap 0 = [] := List.length_eq_zero_iff.mp (k.length_src s'.heap 0)
    rw [h0, insertAfter_nil_right]
  · have hfits : k.FitsAt t pos len := by
      unfold AddKind.FitsAt AddKind.Fits
      split
      · intro r off e
        exact absurd e (hr r off)
      · split
        · exact absurd rfl (hr _ _)
        · trivial
    refine ⟨hu, i.fits hf hfits, fun _ => ?_, fun h => by cases h⟩
    obtain ⟨xs, -, e, hxs⟩ := i.content u.ptrSafe fun _ => hf.cutFits pos
    rw [e, hxs hm fun x hx => solid_of_foreign (hb x hx)]

/-- A delete function keeps the string usable and deletes. -/
theorem DelSpec.keeps {pos len : Nat} {r : Bool × St} (u : Usable E P t)
    (hf : Fits t.base.nodes) (d : DelSpec False E P t pos len r) :
    Keeps E P t (deleteRange (content t) pos len) r := by
  obtain ⟨P', s', ⟨rfl, ⟨st, -⟩⟩ | ⟨rfl, ⟨rfl, rfl, rfl⟩ | d⟩⟩ := d
  · exact ⟨⟨P', ⟨st.sound, st.posOk, (st.ptrs u.ptrSafe).frame st.frame⟩, st.frame⟩, st.fits hf,
      (fun h => by cases h), fun _ => st.content u.ptrSafe hf⟩
  · exact ⟨⟨P', u, Frame.refl _ _ _⟩, hf, fun _ => (deleteRange_zero _ _).symm, fun _ => rfl⟩
  · exact ⟨⟨P', ⟨d.sound, d.posOk, (d.ptrs u.ptrSafe).frame d.frame⟩, d.frame⟩, d.fits hf,
      fun _ => d.content u.ptrSafe (hf.cutOk _), fun h => by cases h⟩

/-- One call. -/
theorem Call.keeps (u : Usable E P t) (hf : Fits t.base.nodes) (c : Call)
    (hr : c.InRange t.base) (ha : c.Apart E P) :
    Keeps E P t (c.meaning t.heap (content t)) (c.run t) := by
  have sd := u.sound
  have pk := u.posOk
  have buf : ∀ {pos len : Nat} {a : Addr} {r : Bool × St}, pos ≤ t.base.len →
      Foreign E P a.blk → AddSpec False E P t (.buf a) pos len r →
      Keeps E P t (insertAfter (content t) pos ((read t.heap.mem a len).map some)) r := by
    intro pos len a r hpos ha sp
    refine sp.keeps u hf (by simp) (by simp) (meantAt_buf u hpos ha) fun x hx => ?_
    obtain rfl : a.blk = x := by simpa [AddKind.blk] using hx
    exact ha
  have other : ∀ {pos len : Nat} {k : AddKind} {r : Bool × St}, k = .non ∨ (∃ c, k = .repChr c) →
      AddSpec False E P t k pos len r →
      Keeps E P t (insertAfter (content t) pos (k.src t.heap len)) r := by
    rintro pos len k r (rfl | ⟨c, rfl⟩) sp
    · exact sp.keeps u hf (by simp) (by simp) (by unfold AddKind.MeantAt; split <;> trivial)
        (by simp [AddKind.blk])
    · exact sp.keeps u hf (by simp) (by simp) (by unfold AddKind.MeantAt; split <;> trivial)
        (by simp [AddKind.blk])
  cases c with
  | addBuf pos a len => exact buf hr ha (addBuf_spec sd pk hr a len)
  | addNon pos len => exact other (.inl rfl) (addNon_spec sd pk hr len)
  | addRepChr pos chr len => exact other (.inr ⟨chr, rfl⟩) (addRepChr_spec sd pk hr chr len)
  | del pos len => exact (del_spec sd pk hr.1 hr.2).keeps u hf
  | externAddBuf pos a len => exact buf hr.1 ha (externAddBuf_spec sd pk hr.1 a len)
  | externAddRepChr pos chr len =>
    exact other (.inr ⟨chr, rfl⟩) (externAddRepChr_spec sd pk hr.1 chr len)
  | externDel pos len => exact (externDel_spec sd pk hr.1 hr.2.2 hr.2.1).keeps u hf

/-- A run of calls: each in range where it is made, and its data apart from the string. -/
def CallRun (E : Env) (P : Own) : St → List Call → St → Prop :=
  Run (fun t c => (c.run t).2) fun t c => c.InRange t.base ∧ c.Apart E P

/-- What holds in every state that a run of calls reaches. -/
theorem CallRun.usable {cs : List Call} (u : Usable E P s) (hf : Fits s.base.nodes)
    (r : CallRun E P s cs t) :
    ∃ P', Usable E P' t ∧ Frame E P s.heap P' t.heap ∧ Fits t.base.nodes := by
  apply r.invariant fun t => ∃ P', Usable E P' t ∧ Frame E P s.heap P' t.heap ∧ Fits t.base.nodes
  · exact ⟨P, u, Frame.refl _ _ _, hf⟩
  · rintro t c ⟨P₁, u₁, fr₁, hf₁⟩ ⟨hr, ha⟩
    have k := c.keeps u₁ hf₁ hr (ha.frame fr₁)
    obtain ⟨P₂, u₂, fr₂⟩ := k.usable
    exact ⟨P₂, u₂, fr₁.trans fr₂, k.fits⟩

/-- Every call in a run inserts or deletes, or fails and leaves the content; the structure
holds throughout. -/
theorem calls_refine {cs : List Call} {c : Call} (u : Usable E P s) (hf : Fits s.base.nodes)
    (r : CallRun E P s cs t) (hr : c.InRange t.base) (ha : c.Apart E P) :
    Valid t.conf.bufSz t.base ∧ Valid (c.run t).2.conf.bufSz (c.run t).2.base ∧
      ((c.run t).1 = true → content (c.run t).2 = c.meaning t.heap (content t)) ∧
      ((c.run t).1 = false → content (c.run t).2 = content t) := by
  obtain ⟨P₁, u₁, fr₁, hf₁⟩ := r.usable u hf
  have k := c.keeps u₁ hf₁ hr (ha.frame fr₁)
  obtain ⟨P₂, u₂, -⟩ := k.usable
  exact ⟨u₁.sound.valid, u₂.sound.valid, k.success, k.failure⟩

/-! ## Examples -/

/-- A new string with nodes of three bytes, next to the text `abcd`. -/
def blank : St :=
  let h := bareHeap (textMem [97, 98, 99, 100] 0) (textRef 0) 1 (bareConf 3 false) fun _ => true
  ⟨h, initBase h 0 true none⟩

/-- The only string there is, and no reference held elsewhere. -/
def alone : Env := ⟨0, fun _ => 0⟩

theorem usable_blank : Usable alone (bareOwn 1) blank where
  sound := sound_initBase (heapOk_bare (userRefs_text 0))
    (fun r => by simp [bareHeap, textRef, alone]) (by decide) (by decide) true none
  posOk := posOk_of_none rfl
  ptrSafe := fun m hm => by cases hm

/-- The text is added, in two nodes. -/
def abcd : St := ((Call.addBuf 0 ⟨.ext 0, 0⟩ 4).run blank).2

theorem callRun_abcd :
    CallRun alone (bareOwn 1) blank [.addBuf 0 ⟨.ext 0, 0⟩ 4] abcd :=
  Run.single ⟨Nat.zero_le _, .inl rfl⟩

/-- A new string with nodes of three bytes, next to some text. -/
def unwritten (text : List UInt8) : St :=
  let h := bareHeap (textMem text 0) (textRef 0) 1 (bareConf 3 false) fun _ => true
  ⟨h, initBase h 0 true none⟩

/-- The string that the text was added to. -/
def written (text : List UInt8) : St :=
  let h := bareHeap (textMem text 0) (textRef 0) 1 (bareConf 3 false) fun _ => true
  (addBuf ⟨h, initBase h 0 true none⟩ 0 ⟨.ext 0, 0⟩ text.length).2

theorem read_textMem (text : List UInt8) :
    read (textMem text 0) ⟨.ext 0, 0⟩ text.length = text := by
  refine List.ext_getElem (length_read _ _ _) fun i h1 h2 => ?_
  rw [← Option.some_inj, ← List.getElem?_eq_getElem h1, getElem?_read, if_pos h2]
  simp [textMem, h2]

/-- Adding the text. -/
theorem keeps_written (text : List UInt8) : Keeps alone (bareOwn 1) (unwritten text)
    (text.map some) (addBuf (unwritten text) 0 ⟨.ext 0, 0⟩ text.length) := by
  have u : Usable alone (bareOwn 1) (unwritten text) :=
    { sound := sound_initBase (heapOk_bare (userRefs_text 0))
        (fun r => by simp [bareHeap, textRef, alone]) (show 0 < 3 by decide)
        (show 3 ≤ maxNodeBuf by decide) true none
      posOk := posOk_of_none rfl
      ptrSafe := fun m hm => by cases hm }
  have k := Call.keeps u (fun m hm => by cases hm) (.addBuf 0 ⟨.ext 0, 0⟩ text.length)
    (Nat.zero_le _) (.inl rfl)
  have e : (Call.addBuf 0 ⟨.ext 0, 0⟩ text.length).meaning (unwritten text).heap
      (content (unwritten text)) = text.map some := by
    change insertAfter [] 0 ((read (textMem text 0) ⟨.ext 0, 0⟩ text.length).map some) = _
    rw [read_textMem]
    simp [insertAfter]
  rwa [e] at k

theorem usable_written (text : List UInt8) : ∃ P, Usable alone P (written text) := by
  obtain ⟨P, hP, -⟩ := (keeps_written text).usable
  exact ⟨P, hP⟩

theorem content_written (text : List UInt8) : content (written text) = text.map some := by
  refine (keeps_written text).success ?_
  unfold addBuf
  rw [if_neg (Nat.not_lt.mpr (Nat.zero_le _))]
  split
  · rfl
  · rename_i h0
    rw [if_neg (by simp [addFastOk, unwritten, initBase]), externAddBuf,
      if_neg (by simp [unwritten, initBase, h0])]
    exact addFront_granted (fun _ => rfl) _

/-- The bytes `a`, `b`, an unknown one, `c` and `d`, twice: the second time `c` and `d` are in
one node. -/
def mixed : St := (addNon (addNon (written [97, 98, 99, 100, 97, 98, 99, 100]) 6 1).2 2 1).2

example : mixed.base.nodes.map Node.len = [2, 1, 1, 3, 1, 2] := by decide

theorem usable_mixed : ∃ P, Usable alone P mixed := by
  obtain ⟨P, u⟩ := usable_written [97, 98, 99, 100, 97, 98, 99, 100]
  have h6 : 6 ≤ (written [97, 98, 99, 100, 97, 98, 99, 100]).base.len := by decide
  have h2 : 2 ≤ (addNon (written [97, 98, 99, 100, 97, 98, 99, 100]) 6 1).2.base.len := by decide
  obtain ⟨P', u', -⟩ := (addNon_spec u.sound u.posOk h6 1).usable u fun a h => by cases h
  obtain ⟨P'', u'', -⟩ := (addNon_spec u'.sound u'.posOk h2 1).usable u' fun a h => by cases h
  exact ⟨P'', u''⟩

theorem content_mixed : content mixed = [some 97, some 98, none, some 99, some 100, some 97,
    some 98, none, some 99, some 100] := by decide

/-- A deletion over the border of the nodes. -/
theorem calls_refine_abcd : (Call.del 2 2).InRange abcd.base ∧
    content ((Call.del 2 2).run abcd).2 = [some 97, some 100] := by
  have hr : (Call.del 2 2).InRange abcd.base := by decide
  have h := calls_refine usable_blank (fun m hm => by cases hm) callRun_abcd hr trivial
  refine ⟨hr, ?_⟩
  rw [h.2.2.1 (by decide)]
  decide

/-- A `REF` node whose offset is the largest there is: two bytes, `a` and `b`, of a block
of more than four gigabytes. -/
def farRef : St :=
  let h := bareHeap (textMem [97, 98] (2 ^ 32 - 1)) (textRef 1) 1 (bareConf 3 false) fun _ => true
  (addRef ⟨h, initBase h 0 true none⟩ 0 0 (2 ^ 32 - 1) 2).2

theorem usable_farRef : ∃ P, Usable ⟨0, fun r => if r = 0 then 1 else 0⟩ P farRef := by
  have u : Usable ⟨0, fun r => if r = 0 then 1 else 0⟩ (bareOwn 1)
      (let h := bareHeap (textMem [97, 98] (2 ^ 32 - 1)) (textRef 1) 1 (bareConf 3 false)
        fun _ => true
      ⟨h, initBase h 0 true none⟩) :=
    { sound := sound_initBase (heapOk_bare (userRefs_text 1)) (fun r => rfl) (by decide)
        (by decide) true none
      posOk := posOk_of_none rfl
      ptrSafe := fun m hm => by cases hm }
  have a := addRef_spec u.sound u.posOk (Nat.zero_le _) (r := 0) (by decide) (2 ^ 32 - 1) 2
  obtain ⟨P, hP, -⟩ := a.usable u (by simp)
  exact ⟨P, hP⟩

/-- Deleting the first byte of that node wraps its offset. -/
theorem calls_wrap : (∃ P, Usable ⟨0, fun r => if r = 0 then 1 else 0⟩ P farRef) ∧
    (Call.del 1 1).InRange farRef.base ∧ content farRef = [some 97, some 98] ∧
    ((Call.del 1 1).run farRef).1 = true ∧
    content ((Call.del 1 1).run farRef).2 ≠
      (Call.del 1 1).meaning farRef.heap (content farRef) := by
  exact ⟨usable_farRef, by decide +kernel⟩

end Vstr
