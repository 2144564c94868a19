import Vstr.Edit.Del
import Vstr.Own.Lend
import Vstr.Run.Calls

/-!
# Undoing insertions

Functions that insert several pieces, one behind the other, delete what they inserted when
one of them fails. The deletion asks for no memory, since a node ends where the last piece
ends, and so it never fails.
-/

namespace Vstr

open Memory Splice

variable {E : Env} {P P' : Own} {s s' : St} {b : Base} {k : AddKind} {f : Found}
  {pre post : List Node} {n : Node} {pos len keep bufSz : Nat} {q : Prop}

/-! ## Where nodes end -/

/-- A node ends at this position. -/
def Boundary (b : Base) (pos : Nat) : Prop :=
  ∃ a c, b.nodes = a ++ c ∧ lens a = pos + b.used

/-- The last node ends at the end. -/
theorem boundary_end (v : Valid bufSz b) : Boundary b b.len :=
  ⟨b.nodes, [], (List.append_nil _).symm, v.len.symm⟩

/-- The nodes behind the position have the bytes behind it. -/
theorem boundary_of_rest (v : Valid bufSz b) {a c : List Node} (hns : b.nodes = a ++ c)
    (hc : pos + lens c = b.len) : Boundary b pos := by
  refine ⟨a, c, hns, ?_⟩
  have hl := v.len
  rw [hns, lens_append] at hl
  omega

/-- No node ends inside another one. -/
theorem At.boundary (hat : At b keep f pre n post) (h0 : 0 < len)
    (hb : Boundary b (keep + len)) : n.len ≤ f.pos + len := by
  obtain ⟨a, c, hns, hl⟩ := hb
  have hpos := hat.pos
  have hone := hat.one_le
  have hn := hat.nodes
  rw [hns] at hn
  rcases List.append_eq_append_iff.mp hn with ⟨x, rfl, -⟩ | ⟨x, rfl, hx⟩
  · rw [lens_append] at hpos
    omega
  · rw [lens_append] at hl
    cases x with
    | nil =>
      rw [lens_nil] at hl
      omega
    | cons m ms =>
      rw [List.cons_append, List.cons.injEq] at hx
      obtain ⟨rfl, -⟩ := hx
      rw [lens_cons] at hl
      omega

/-- The nodes behind a node that the position is the end of. -/
theorem At.rest (hat : At b pos f pre n post) (v : Valid bufSz b) (hfull : f.pos = n.len) :
    pos + lens (b.nodes.drop (f.idx + 1)) = b.len := by
  have hl := v.len
  have hpos := hat.pos
  rw [hat.idx, hat.nodes, show pre ++ n :: post = (pre ++ [n]) ++ post by simp,
    List.drop_left' (by simp)]
  rw [hat.nodes, lens_append, lens_cons] at hl
  omega

/-- A deletion that ends where a node ends does not fail. -/
theorem del_boundary (sd : Sound E P s) (pk : PosOk q s.base) (h1 : 1 ≤ pos)
    (h2 : pos + len ≤ s.base.len + 1) (hb : Boundary s.base (pos - 1 + len)) :
    (del s pos len).1 = true := by
  have hextern : 0 < len → (externDel s pos len).1 = true := by
    intro h0
    have hlast : scPoslast pos len % 2 ^ 64 ≤ s.base.len := by
      refine Nat.le_trans (Nat.mod_le _ _) ?_
      unfold scPoslast
      omega
    unfold externDel
    rw [if_neg (by omega)]
    split
    · split <;> rfl
    · rename_i hp
      have hl : (if (pos - 1 + len) % 2 ^ 64 ≥ s.base.len then s.base.len - (pos - 1) else len) =
          len := by
        split
        · rename_i hge
          have := Nat.mod_le (pos - 1 + len) (2 ^ 64)
          omega
        · rfl
      dsimp only
      rw [hl]
      obtain ⟨pre, n, post, hat, -, -⟩ := basePos_at sd.valid sd.owned.nodes.nodup pk
        (show 1 ≤ pos - 1 by omega) (show pos - 1 ≤ s.base.len by omega) false
      have hnode : s.base.node (basePos s.base (pos - 1) false).1.idx = n := by
        rw [hat.idx]
        exact node_of_eq hat.nodes
      have hle := hat.boundary h0 hb
      unfold delAfter
      dsimp only
      rw [hnode, if_neg (by omega)]
  unfold del delSum
  split
  · omega
  · split
    · rfl
    · have := hextern (by omega)
      split
      · split
        · rfl
        · dsimp only
          by_cases hend : pos > sizeSub s.base.len ((s.base.node (s.base.indexOf
              (s.base.endNode.getD 0))).len + (if (s.base.nodes.head?.map Node.id) =
              s.base.endNode then s.base.used else 0) - 1) ∧ len = scPosdiff pos s.base.len
          · rw [if_pos hend]
          · rw [if_neg hend]
            exact this
      · exact this

/-! ## Insertions end where a node ends -/

theorem addLink_rest (k : AddKind) (s : St) (idx : Nat) (atEnd : Bool) (len origPos origLen : Nat) :
    ∃ a, (addLink k s idx atEnd len origPos origLen).base.nodes = a ++ s.base.nodes.drop idx :=
  ⟨_, nodes_of_core (core_cacheAdd _ _ _)⟩

/-- A node that takes more bytes leaves those behind it. -/
theorem addAbsorb_rest (k : AddKind) (s : St) (f : Found) (len : Nat) :
    (addAbsorb k s f len).2.base.nodes.drop (f.idx + 1) = s.base.nodes.drop (f.idx + 1) := by
  unfold addAbsorb
  dsimp only
  rw [nodes_of_core (core_of_noVec (noVec_cacheIovecAddNodeEnd _ _ _)),
    List.drop_set_of_lt (Nat.lt_succ_self f.idx)]

/-- The nodes behind an insertion. -/
theorem addAt_rest (e : addAt k s f pos len = (true, s')) :
    ∃ a, s'.base.nodes = a ++ s.base.nodes.drop (f.idx + 1) := by
  have kill : ∀ b : Base, (addKillIovec b f.idx).nodes = b.nodes :=
    fun b => nodes_of_core (core_of_noVec (noVec_addKillIovec b f.idx))
  unfold addAt at e
  dsimp only at e
  split at e
  · cases e
  · rename_i h _
    have habs := addAbsorb_rest k { s with heap := h } f len
    split at e
    · split at e
      · cases e
        refine ⟨(addAbsorb k { s with heap := h } f len).2.base.nodes.take (f.idx + 1), ?_⟩
        dsimp only at habs ⊢
        rw [nodes_of_core (core_cacheAdd _ _ _), ← habs, List.take_append_drop]
      · cases e
        obtain ⟨a, ha⟩ := addLink_rest (k.absorbed (addAbsorb k { s with heap := h } f len).1)
          { (addAbsorb k { s with heap := h } f len).2 with
            base := addKillIovec (addAbsorb k { s with heap := h } f len).2.base f.idx }
          (f.idx + 1) true (len - (addAbsorb k { s with heap := h } f len).1) pos len
        dsimp only at ha habs
        rw [kill, habs] at ha
        exact ⟨a, ha⟩
    · cases e
      obtain ⟨a, ha⟩ := addLink_rest k { s with heap := h, base := addKillIovec s.base f.idx }
        (f.idx + 1) true len pos len
      dsimp only at ha
      rw [kill] at ha
      exact ⟨a, ha⟩

theorem Inserted.length {k : AddKind} (i : Inserted q E P s k pos len P' s') :
    s'.base.len = s.base.len + len := by
  obtain ⟨b', g, e | ⟨e, -⟩⟩ := i.base
  · rw [e, len_of_core (core_cacheAdd b' pos len), g.len]
  · rw [e, g.len]

/-- An insertion ends where a node ends. -/
theorem addData_boundary (sd : Sound E P s) (pk : PosOk q s.base) (hpos : pos ≤ s.base.len)
    (hlen : 0 < len) (hlive : ∀ r, k.held = some r → 0 < (s.heap.refs r).ref)
    (e : addData k s pos len = (true, s')) : Boundary s'.base (pos + len) := by
  obtain ⟨P', s₁, ⟨e₁, -⟩ | ⟨e₁, i⟩⟩ := addData_spec (q := q) sd pk hpos hlen hlive
  · rw [e₁] at e
    cases e
  · rw [e₁] at e
    cases e
    have v := i.sound.valid
    have hl := i.length
    unfold addData at e₁
    split at e₁
    · rename_i h
      unfold addAfter at e₁
      obtain ⟨P₂, s₂, ⟨e₂, -⟩ | ⟨f, pre, n, post, e₂, su⟩⟩ :=
        addSetupPos_spec sd pk (show 1 ≤ pos by omega) hpos
      · rw [e₂] at e₁
        cases e₁
      · rw [e₂] at e₁
        obtain ⟨a, ha⟩ := addAt_rest e₁
        have hrest := su.at_.rest su.sound.valid su.full
        have hlen₂ := su.grown.len
        exact boundary_of_rest v ha (by omega)
    · by_cases h0 : s.base.len = 0
      · rw [show pos + len = s'.base.len by omega]
        exact boundary_end v
      · have hp : pos = 0 := by omega
        unfold addFront at e₁
        split at e₁
        · cases e₁
        · rename_i h _
          dsimp only at e₁
          rw [if_pos h0] at e₁
          cases e₁
          obtain ⟨a, ha⟩ := addLink_rest k (baseZeroUsed { s with heap := h }) 0 false len 0 len
          refine boundary_of_rest v ha ?_
          rw [List.drop_zero]
          have hz : lens (baseZeroUsed { s with heap := h }).base.nodes = s.base.len := by
            have hv := sd.valid.len
            unfold baseZeroUsed
            dsimp only
            cases hns : s.base.nodes with
            | nil =>
              rw [hns, lens_nil] at hv
              omega
            | cons n ns =>
              rw [hns, lens_cons] at hv
              dsimp only
              split
              · rename_i hu
                obtain ⟨m, ms, hm, -, hlt⟩ := sd.valid.used hu
                rw [hns, List.cons.injEq] at hm
                obtain ⟨rfl, -⟩ := hm
                rw [lens_cons]
                dsimp only
                omega
              · rename_i hu
                have hu : s.base.used = 0 := by simpa using hu
                rw [hns, lens_cons]
                omega
          rw [hz]
          omega

/-- A failed insertion leaves the place where it would be. -/
theorem addData_stays (sd : Sound E P s) (pk : PosOk q s.base) (hpos : pos ≤ s.base.len)
    (hb : Boundary s.base pos) (e : addData k s pos len = (false, s')) : Boundary s'.base pos := by
  unfold addData at e
  split at e
  · rename_i h
    unfold addAfter at e
    obtain ⟨P₂, s₂, ⟨e₂, -, -, -, ⟨d, hd⟩, -⟩ | ⟨f, pre, n, post, e₂, su⟩⟩ :=
      addSetupPos_spec sd pk (show 1 ≤ pos by omega) hpos
    · rw [e₂] at e
      cases e
      rw [hd]
      exact hb
    · rw [e₂] at e
      have hat := su.at_
      have hbd : Boundary s₂.base pos := by
        refine ⟨pre ++ [n], post, by rw [hat.nodes, List.append_assoc, List.singleton_append], ?_⟩
        rw [lens_append, lens_cons, lens_nil]
        have := hat.pos
        have := su.full
        omega
      unfold addAt at e
      dsimp only at e
      split at e
      · cases e
        exact hbd
      · split at e
        · split at e <;> cases e
        · cases e
  · unfold addFront at e
    split at e
    · cases e
      exact hb
    · dsimp only at e
      split at e <;> cases e

/-! ## The add functions -/

/-- Nothing is added. -/
theorem AddKind.add_zero (hpos : pos ≤ s.base.len) (k : AddKind) : k.add s pos 0 = (true, s) := by
  cases k <;> simp [AddKind.add, addBuf, addRepChr, addNon, addPtr, addRef, Nat.not_lt.mpr hpos]

theorem AddKind.add_spec (sd : Sound E P s) (pk : PosOk q s.base) (hpos : pos ≤ s.base.len)
    (k : AddKind) (hlive : ∀ r, k.held = some r → 0 < (s.heap.refs r).ref) (len : Nat) :
    AddSpec q E P s k pos len (k.add s pos len) := by
  cases k with
  | buf buffer => exact addBuf_spec sd pk hpos buffer len
  | repChr chr => exact addRepChr_spec sd pk hpos chr len
  | non => exact addNon_spec sd pk hpos len
  | ptr p => exact addPtr_spec sd pk hpos p len
  | ref r off => exact addRef_spec sd pk hpos (hlive r rfl) off len

theorem addFastOk_pos (hok : addFastOk s pos len = true) : pos = s.base.len := by
  unfold addFastOk at hok
  exact (of_decide_eq_true hok).2.1

/-- An add function appends in place, or does what its slow path does. -/
theorem AddKind.add_cases (hpos : pos ≤ s.base.len) (hlen : 0 < len) (k : AddKind) :
    (addFastOk s pos len = true ∧ k.add s pos len = (true, addFast k s len)) ∨
      k.add s pos len = addData k s pos len := by
  have h0 : len ≠ 0 := by omega
  have hnot : ¬ pos > s.base.len := by omega
  have fast : ∀ {a : Bool × St} {b : St}, addFastOk s pos len = true →
      addFastOk s pos len = true ∧ (if addFastOk s pos len then (true, b) else a) = (true, b) :=
    fun hok => ⟨hok, if_pos hok⟩
  cases k with
  | buf buffer =>
    simp only [AddKind.add, addBuf, externAddBuf]
    rw [if_neg hnot, if_neg h0]
    by_cases hok : addFastOk s pos len = true
    · exact .inl (fast hok)
    · rw [if_neg hok, if_neg (by omega)]
      exact .inr rfl
  | repChr chr =>
    simp only [AddKind.add, addRepChr, externAddRepChr]
    rw [if_neg hnot, if_neg h0]
    by_cases hok : addFastOk s pos len = true
    · exact .inl (fast hok)
    · rw [if_neg hok, if_neg (by omega)]
      exact .inr rfl
  | non =>
    simp only [AddKind.add, addNon]
    rw [if_neg hnot, if_neg h0]
    exact .inr rfl
  | ptr p =>
    simp only [AddKind.add, addPtr]
    rw [if_neg hnot, if_neg h0]
    exact .inr rfl
  | ref r off =>
    simp only [AddKind.add, addRef]
    rw [if_neg hnot, if_neg h0]
    exact .inr rfl

/-- An insertion by an add function ends where a node ends. -/
theorem AddKind.add_boundary (sd : Sound E P s) (pk : PosOk q s.base) (hpos : pos ≤ s.base.len)
    (hlen : 0 < len) {k : AddKind} (hlive : ∀ r, k.held = some r → 0 < (s.heap.refs r).ref)
    (e : k.add s pos len = (true, s')) : Boundary s'.base (pos + len) := by
  rcases k.add_cases hpos hlen with ⟨hok, -⟩ | hdata
  · obtain ⟨P', s₁, ⟨e₁, -⟩ | ⟨e₁, ⟨h0, -⟩ | i⟩⟩ := k.add_spec sd pk hpos hlive len
    · rw [e] at e₁
      cases e₁
    · omega
    · rw [e] at e₁
      cases e₁
      rw [addFastOk_pos hok, ← i.length]
      exact boundary_end i.sound.valid
  · rw [hdata] at e
    exact addData_boundary sd pk hpos hlen hlive e

/-- An add function that fails leaves the place where it would insert. -/
theorem AddKind.add_stays (sd : Sound E P s) (pk : PosOk q s.base) (hpos : pos ≤ s.base.len)
    (hlen : 0 < len) {k : AddKind} (hb : Boundary s.base pos)
    (e : k.add s pos len = (false, s')) : Boundary s'.base pos := by
  rcases k.add_cases hpos hlen with ⟨-, ht⟩ | hdata
  · rw [e] at ht
    cases ht
  · rw [hdata] at e
    exact addData_stays sd pk hpos hb e

/-! ## Pieces, one behind the other -/

/-- Insert pieces until one fails: whether all are in, the end of what is in, and the
state. -/
def addAll (s : St) (pos : Nat) : List (AddKind × Nat) → Bool × Nat × St
  | [] => (true, pos, s)
  | (k, len) :: ps =>
    match k.add s pos len with
    | (false, s) => (false, pos, s)
    | (true, s) => addAll s (pos + len) ps

/-- Each piece can be added where it is: the caller has the memory and the references, and
offsets do not wrap. -/
def Suits (E : Env) (P : Own) (s : St) (pos : Nat) : List (AddKind × Nat) → Prop
  | [] => True
  | (k, len) :: ps => (∀ a, k = .ptr a → Foreign E P a.blk) ∧
    (∀ r, k.held = some r → 0 < E.ext r) ∧ k.FitsAt s pos len ∧
    ((k.add s pos len).1 = true → Suits E P (k.add s pos len).2 (pos + len) ps)

/-- A piece means what the memory of the caller has: it is copied from there, or the node at
the position takes it as it is. -/
def Means (E : Env) (P : Own) (s : St) (pos : Nat) : List (AddKind × Nat) → Prop
  | [] => True
  | (k, len) :: ps => (k.MeantAt s pos len ∧ ∀ x, k.blk s.heap = some x → Foreign E P x) ∧
    ((k.add s pos len).1 = true → Means E P (k.add s pos len).2 (pos + len) ps)

/-- The bytes of pieces. -/
def pieceBytes (h : Heap) (ps : List (AddKind × Nat)) : List (Option UInt8) :=
  ps.flatMap fun p => p.1.src h p.2

/-- Some pieces are in, from `beg` to `pos`: the bytes `xs`. -/
structure Partly (E : Env) (P : Own) (t : St) (beg pos : Nat) (xs : List (Option UInt8))
    (P' : Own) (s : St) : Prop where
  /-- The string is usable. -/
  usable : Usable E P' s
  /-- Foreign blocks are left alone. -/
  frame : Frame E P t.heap P' s.heap
  /-- Offsets do not wrap. -/
  fits : Fits s.base.nodes
  /-- Pieces go in one behind the other. -/
  reach : pos = beg + xs.length
  /-- The length. -/
  length : s.base.len = t.base.len + xs.length
  /-- The content. -/
  content : content s = insertAfter (content t) beg xs
  /-- The last piece ends where a node ends. -/
  boundary : beg < pos → Boundary s.base pos

variable {t : St} {beg : Nat} {ps : List (AddKind × Nat)} {xs : List (Option UInt8)}

theorem Partly.start (u : Usable E P t) (hf : Fits t.base.nodes) :
    Partly E P t beg beg [] P t :=
  ⟨u, Frame.refl _ _ _, hf, rfl, rfl, (insertAfter_nil_right _ _).symm,
    fun h => absurd h (Nat.lt_irrefl _)⟩

/-- A piece from memory of the caller is there. -/
theorem Frame.blk {h h' : Heap} (fr : Frame E P h P' h') (k : AddKind)
    (hlive : ∀ r, k.held = some r → r < h.next) : k.blk h' = k.blk h := by
  cases k with
  | ref r off => simp only [AddKind.blk, fr.refPtr r (hlive r rfl)]
  | _ => rfl

/-- A piece from foreign memory is what it was. -/
theorem Frame.src {h h' : Heap} (fr : Frame E P h P' h') (k : AddKind)
    (hlive : ∀ r, k.held = some r → r < h.next) (hk : ∀ x, k.blk h = some x → Foreign E P x)
    (len : Nat) : k.src h' len = k.src h len := by
  cases k with
  | buf a =>
    have hr : read h'.mem a len = read h.mem a len :=
      read_congr fun i _ => by rw [fr.mem a.blk (hk _ rfl)]
    simp only [AddKind.src, hr]
  | ptr a =>
    have hr : read h'.mem a len = read h.mem a len :=
      read_congr fun i _ => by rw [fr.mem a.blk (hk _ rfl)]
    simp only [AddKind.src, hr]
  | ref r off =>
    have hr : read h'.mem ((h.refs r).ptr.add off) len = read h.mem ((h.refs r).ptr.add off) len :=
      read_congr fun i _ => by rw [Ptr.add_blk, fr.mem _ (hk _ rfl)]
    simp only [AddKind.src, fr.refPtr r (hlive r rfl), hr]
  | _ => rfl

/-- One more piece, or none. -/
theorem Partly.add (hp : Partly E P t beg pos xs P' s) (hbeg : beg ≤ t.base.len)
    (ht : (Vstr.content t).length = t.base.len)
    (hptr : ∀ a, k = .ptr a → Foreign E P a.blk) (href : ∀ r, k.held = some r → 0 < E.ext r)
    (hfit : k.FitsAt s pos len) :
    ∃ P'' ys, Partly E P t beg (if (k.add s pos len).1 then pos + len else pos) (xs ++ ys) P''
        (k.add s pos len).2 ∧
      ys.length = (if (k.add s pos len).1 then len else 0) ∧
      ((k.add s pos len).1 = true → k.MeantAt s pos len →
        (∀ x, k.blk s.heap = some x → Foreign E P x) → ys = k.src s.heap len) := by
  have sd := hp.usable.sound
  have pk := hp.usable.posOk
  have hl := hp.length
  have hp₀ := hp.reach
  have hpos : pos ≤ s.base.len := by omega
  by_cases hz : len = 0
  · subst hz
    rw [k.add_zero hpos]
    refine ⟨P', [], by rw [List.append_nil]; exact hp, rfl, fun _ _ _ => ?_⟩
    exact (List.length_eq_zero_iff.mp (k.length_src s.heap 0)).symm
  · have hlive : ∀ r, k.held = some r → 0 < (s.heap.refs r).ref := by
      intro r hr
      have := sd.owned.refs r
      have := href r hr
      omega
    have hc := hp.content
    have sp := k.add_spec sd pk hpos hlive len
    obtain ⟨P'', us, fr⟩ := sp.usable hp.usable fun a ha => hp.frame.foreign (hptr a ha)
    obtain ⟨P₁, s₁, ⟨e₁, st⟩ | ⟨e₁, ⟨h0, -⟩ | i⟩⟩ := sp
    · rw [e₁] at us fr ⊢
      refine ⟨P'', [], ⟨us, hp.frame.trans fr, st.fits hp.fits, ?_, ?_, ?_, fun hlt => ?_⟩, rfl,
        fun h => by cases h⟩
      · rw [List.append_nil]
        exact hp₀
      · rw [List.append_nil, st.grown.len]
        omega
      · rw [List.append_nil, st.content hp.usable.ptrSafe hp.fits, hc]
      · exact AddKind.add_stays sd pk hpos (by omega) (hp.boundary hlt) e₁
    · exact absurd h0 hz
    · rw [e₁] at us fr ⊢
      obtain ⟨ys, hys, hi, hm⟩ := i.content hp.usable.ptrSafe fun _ => hp.fits.cutFits pos
      refine ⟨P'', ys, ⟨us, hp.frame.trans fr, i.fits hp.fits hfit, ?_, ?_, ?_, fun _ => ?_⟩, hys,
        fun _ hmeant hforeign => hm hmeant fun x hx =>
          solid_of_foreign (hp.frame.foreign (hforeign x hx))⟩
      · rw [if_pos rfl, List.length_append]
        omega
      · rw [i.length, List.length_append]
        omega
      · rw [hi, hc, hp₀, insertAfter_insertAfter _ xs ys (by omega)]
      · rw [if_pos rfl]
        exact AddKind.add_boundary sd pk hpos (by omega) hlive e₁

/-- What is in after any number of pieces. -/
theorem Partly.addAll (hp : Partly E P t beg pos xs P' s) (hbeg : beg ≤ t.base.len)
    (ht : (Vstr.content t).length = t.base.len)
    (hlive : ∀ r, 0 < E.ext r → r < t.heap.next) (hs : Suits E P s pos ps) :
    ∃ P'' ys, Partly E P t beg (addAll s pos ps).2.1 ys P'' (addAll s pos ps).2.2 ∧
      ((addAll s pos ps).1 = true → Means E P s pos ps → ys = xs ++ pieceBytes t.heap ps) := by
  induction ps generalizing s pos xs P' with
  | nil => exact ⟨P', xs, hp, fun _ _ => (List.append_nil xs).symm⟩
  | cons p ps ih =>
    obtain ⟨k, len⟩ := p
    obtain ⟨hptr, href, hfit, hrest⟩ := hs
    have hone := hp.add hbeg ht hptr href hfit
    obtain ⟨P₁, ys, hp₁, -, hm⟩ := hone
    unfold Vstr.addAll
    cases e : k.add s pos len with
    | mk ok s₁ =>
      rw [e] at hrest hp₁ hm
      cases ok with
      | false => exact ⟨P₁, xs ++ ys, hp₁, fun h => by cases h⟩
      | true =>
        obtain ⟨P₂, zs, hp₂, hz⟩ := ih hp₁ (hrest rfl)
        refine ⟨P₂, zs, hp₂, fun hok hmeans => ?_⟩
        obtain ⟨⟨hmeant, hforeign⟩, hmeans⟩ := hmeans
        rw [e] at hmeans
        have hsrc : k.src s.heap len = k.src t.heap len := by
          have hlt : ∀ r, k.held = some r → r < t.heap.next := fun r hr => hlive r (href r hr)
          exact hp.frame.src k hlt (fun x hx => hforeign x (by rw [hp.frame.blk k hlt, hx])) len
        rw [hz hok (hmeans rfl), hm rfl hmeant hforeign, hsrc, List.append_assoc]
        simp only [pieceBytes, List.flatMap_cons]

/-- Pieces that are copied from memory of the caller suit any place, and mean what they
have. -/
theorem Partly.copies (hp : Partly E P t beg pos xs P' s) (hbeg : beg ≤ t.base.len)
    (ht : (Vstr.content t).length = t.base.len)
    (hps : ∀ p ∈ ps, ∃ a, p.1 = .buf a ∧ Foreign E P a.blk) :
    Suits E P s pos ps ∧ Means E P s pos ps := by
  induction ps generalizing s pos xs P' with
  | nil => exact ⟨trivial, trivial⟩
  | cons p ps ih =>
    obtain ⟨k, len⟩ := p
    obtain ⟨a, e, ha⟩ := hps _ List.mem_cons_self
    dsimp only at e
    subst e
    have hp₀ := hp.reach
    have hl := hp.length
    have hfit : (AddKind.buf a).FitsAt s pos len := AddKind.fitsAt_of_not_ref (by simp) _ _ _
    obtain ⟨P₁, ys, hp₁, -⟩ := hp.add hbeg ht (by simp) (by simp [AddKind.held]) hfit
    have rest : ((AddKind.buf a).add s pos len).1 = true →
        Suits E P ((AddKind.buf a).add s pos len).2 (pos + len) ps ∧
          Means E P ((AddKind.buf a).add s pos len).2 (pos + len) ps := by
      intro hok
      rw [if_pos hok] at hp₁
      exact ih hp₁ fun p hp => hps p (List.mem_cons_of_mem _ hp)
    refine ⟨⟨by simp, by simp [AddKind.held], hfit, fun h => (rest h).1⟩,
      ⟨meantAt_buf hp.usable (by omega) (hp.frame.foreign ha), fun x hx => ?_⟩,
      fun h => (rest h).2⟩
    obtain rfl : a.blk = x := by simpa [AddKind.blk] using hx
    exact ha

/-- What is in is deleted: the deletion does not fail, and the content is what it was. -/
theorem Partly.undo (hp : Partly E P t beg pos xs P' s) (hbeg : beg ≤ t.base.len)
    (ht : (Vstr.content t).length = t.base.len) :
    (del s (beg + 1) (pos - beg)).1 = true ∧
      Keeps E P' s (Vstr.content t) (del s (beg + 1) (pos - beg)) := by
  have sd := hp.usable.sound
  have pk := hp.usable.posOk
  have hp₀ := hp.reach
  have hl := hp.length
  have h2 : beg + 1 + (pos - beg) ≤ s.base.len + 1 := by omega
  have keeps := (del_spec sd pk (Nat.le_add_left 1 beg) h2).keeps hp.usable hp.fits
  have hdel : deleteRange (Vstr.content s) (beg + 1) (pos - beg) = Vstr.content t := by
    rw [hp.content]
    unfold insertAfter
    rw [List.append_assoc, deleteRange_append (by rw [List.length_take]; omega) (by omega),
      List.take_append_drop]
  rw [hdel] at keeps
  refine ⟨?_, keeps⟩
  by_cases h0 : pos = beg
  · subst h0
    unfold del delSum
    rw [Nat.sub_self, if_neg (by simp), if_pos rfl]
  · refine del_boundary sd pk (Nat.le_add_left 1 beg) h2 ?_
    rw [show beg + 1 - 1 + (pos - beg) = pos by omega]
    exact hp.boundary (by omega)

/-- The references that the caller has were handed out. -/
theorem Usable.ext_lt (u : Usable E P t) {r : Nat} (hr : 0 < E.ext r) : r < t.heap.next := by
  have hc := u.sound.owned.refs r
  exact u.sound.owned.heap.ref_lt (by omega)

/-- A new string next to the text `abcd`; four allocations are granted. -/
def scarce : St :=
  ⟨bareHeap (textMem [97, 98, 99, 100] 0) (textRef 0) 1 (bareConf 3 false) fun i => decide (i < 4),
    initBase (bareHeap (textMem [97, 98, 99, 100] 0) (textRef 0) 1 (bareConf 3 false)
      fun i => decide (i < 4)) 0 true none⟩

theorem usable_scarce : Usable alone (bareOwn 1) scarce where
  sound := sound_initBase (heapOk_bare (userRefs_text 0))
    (fun r => by simp [bareHeap, textRef, alone]) (by decide) (by decide) true none
  posOk := posOk_of_none rfl
  ptrSafe := fun m hm => by cases hm

/-- Pieces for which there is not enough memory. -/
def tooMany : List (AddKind × Nat) :=
  [(.buf ⟨.ext 0, 0⟩, 4), (.repChr 120, 5), (.non, 3), (.buf ⟨.ext 0, 1⟩, 2)]

theorem suits_tooMany : Suits alone (bareOwn 1) scarce 0 tooMany := by
  refine ⟨by simp, by simp [AddKind.held], ?_, fun _ => ⟨by simp, by simp [AddKind.held], ?_,
    fun _ => ⟨by simp, by simp [AddKind.held], ?_, fun _ => ⟨by simp, by simp [AddKind.held], ?_,
      fun _ => trivial⟩⟩⟩⟩ <;>
    exact AddKind.fitsAt_of_not_ref (by simp) _ _ _

end Vstr
