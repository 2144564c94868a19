import Vstr.Edit.Split

/-!
# New nodes from a spare list

`VSTR__ADD_MID` and `VSTR__ADD_END`: the loop that fills spare nodes and the linking of
the nodes it filled. The loop works on the spare list before the nodes are taken off
it, so its blocks are still spare while they are written.
-/

namespace Vstr

open Memory

variable {E : Env} {P P' : Own} {s : St} {h h' : Heap}

/-- The reference an add holds on to. -/
def AddKind.held : AddKind → Option Nat
  | ref r _ => some r
  | _ => none

/-- The bytes an add is meant to insert. -/
def AddKind.src (h : Heap) (k : AddKind) (len : Nat) : List (Option UInt8) :=
  match k with
  | buf buffer => (read h.mem buffer len).map some
  | repChr chr => List.replicate len (some chr)
  | non => List.replicate len none
  | ptr p => (read h.mem p len).map some
  | ref r off => (read h.mem ((h.refs r).ptr.add off) len).map some

@[simp] theorem AddKind.length_src (h : Heap) (k : AddKind) (len : Nat) :
    (k.src h len).length = len := by
  cases k <;> simp [AddKind.src]

/-- The new nodes, without their bytes: `len` bytes in nodes of at most `max`. -/
structure Chunks (k : AddKind) (max len : Nat) (ids : List Nat) (new : List Node) : Prop where
  /-- They come from the front of the spare list. -/
  ids : new.map Node.id = ids.take new.length
  /-- There is one. -/
  ne_nil : new ≠ []
  /-- They hold what is added. -/
  lens : lens new = len
  /-- Each holds something. -/
  pos : ∀ m ∈ new, 0 < m.len
  /-- Each holds at most `max`. -/
  le_max : ∀ m ∈ new, m.len ≤ max
  /-- They have the type of the kind. -/
  type : ∀ m ∈ new, m.type = k.type
  /-- They hold the reference of the kind. -/
  ref : ∀ m ∈ new, m.ref = k.held
  /-- They point into the block of the kind. -/
  ptr : ∀ m ∈ new, ∀ x, m.data = .ptr x → ∃ a, k = .ptr a ∧ x.blk = a.blk
  /-- A short reference keeps its offset. -/
  off : ∀ m ∈ new, ∀ r o, m.data = .ref r o → ∃ off, k = .ref r off ∧
    (len ≤ max → o = refOff off ∧ m.len = len)

/-- What filling new nodes does to memory. -/
structure Filled (h h' : Heap) (new : List Node) : Prop where
  /-- Spare lists and parameters stay. -/
  confs : h'.confs = h.confs
  /-- Nothing is handed out. -/
  next : h'.next = h.next
  /-- Sizes stay. -/
  size : h'.size = h.size
  /-- References point where they did. -/
  refPtr : ∀ r, (h'.refs r).ptr = (h.refs r).ptr
  /-- And do what they did. -/
  refFunc : ∀ r, (h'.refs r).func = (h.refs r).func
  /-- Each new node takes its reference. -/
  refCount : ∀ r, (h'.refs r).ref = (h.refs r).ref + heldBy new r
  /-- Only the new nodes are written. -/
  mem : ∀ x, (∀ m ∈ new, x ≠ .node m.id) → h'.mem x = h.mem x

theorem Filled.trans {a b : List Node} {h'' : Heap} (f : Filled h h' a) (g : Filled h' h'' b) :
    Filled h h'' (a ++ b) where
  confs := g.confs.trans f.confs
  next := g.next.trans f.next
  size := g.size.trans f.size
  refPtr r := (g.refPtr r).trans (f.refPtr r)
  refFunc r := (g.refFunc r).trans (f.refFunc r)
  refCount r := by rw [g.refCount, f.refCount, heldBy_append, Nat.add_assoc]
  mem x hx := by
    rw [g.mem x fun m hm => hx m (List.mem_append_right _ hm),
      f.mem x fun m hm => hx m (List.mem_append_left _ hm)]

/-! ## Arithmetic -/

theorem allocNum_pos {len : Nat} (hlen : 0 < len) (max : Nat) : 0 < allocNum len max := by
  unfold allocNum
  by_cases h : len % max = 0
  · rw [if_pos h, Nat.add_zero]
    rcases Nat.eq_zero_or_pos max with rfl | hm
    · rw [Nat.mod_zero] at h
      omega
    · have hle : max ≤ len := Nat.le_of_dvd hlen (Nat.dvd_of_mod_eq_zero h)
      exact Nat.div_pos hle hm
  · rw [if_neg h]
    exact Nat.succ_pos _

theorem allocNum_step {len max : Nat} (hm : 0 < max) (h : max ≤ len) :
    allocNum len max = allocNum (len - max) max + 1 := by
  unfold allocNum
  rw [Nat.div_eq len max, if_pos ⟨hm, h⟩, Nat.mod_eq_sub_mod h]
  omega

theorem allocNum_mono {a b : Nat} (max : Nat) (h : a ≤ b) :
    allocNum a max ≤ allocNum b max := by
  unfold allocNum
  have hdiv := Nat.div_le_div_right (c := max) h
  by_cases hlt : a / max < b / max
  · split <;> split <;> omega
  · have ha := Nat.div_add_mod a max
    have hb := Nat.div_add_mod b max
    have he : a / max = b / max := by omega
    rw [he] at ha
    split <;> split <;> omega

/-! ## One node -/

theorem AddKind.type_payload (k : AddKind) (id len : Nat) :
    Node.type ⟨id, len, k.payload⟩ = k.type := by
  cases k <;> rfl

theorem AddKind.ref_payload (k : AddKind) (id len : Nat) :
    Node.ref ⟨id, len, k.payload⟩ = k.held := by
  cases k <;> rfl

@[simp] theorem AddKind.type_advance (k : AddKind) (n len : Nat) :
    (k.advance n len).type = k.type := by
  cases k <;> rfl

@[simp] theorem AddKind.held_advance (k : AddKind) (n len : Nat) :
    (k.advance n len).held = k.held := by
  cases k <;> rfl

@[simp] theorem AddKind.type_absorbed (k : AddKind) (n : Nat) : (k.absorbed n).type = k.type := by
  cases k <;> rfl

@[simp] theorem AddKind.held_absorbed (k : AddKind) (n : Nat) : (k.absorbed n).held = k.held := by
  cases k <;> rfl

theorem AddKind.max_eq (conf : Conf) {k k' : AddKind} (h : k'.type = k.type) :
    k'.max conf = k.max conf := by
  unfold AddKind.max
  rw [h]

/-- Filling one new node. -/
theorem filled_fillNew (h : Heap) (k : AddKind) (id n : Nat) :
    Filled h (k.fillNew h id n) [⟨id, n, k.payload⟩] := by
  have hne : ∀ x, (∀ m ∈ [(⟨id, n, k.payload⟩ : Node)], x ≠ .node m.id) → x ≠ Blk.node id :=
    fun x hx => hx _ (List.mem_singleton_self _)
  have hheld : ∀ r, heldBy [(⟨id, n, k.payload⟩ : Node)] r = if k.held = some r then 1 else 0 := by
    intro r
    rw [heldBy_cons, AddKind.ref_payload, heldBy_nil, Nat.zero_add]
  cases k with
  | buf b => exact ⟨rfl, rfl, rfl, fun _ => rfl, fun _ => rfl, fun _ => rfl,
      fun x hx => write_of_ne _ _ (hne x hx)⟩
  | repChr c => exact ⟨rfl, rfl, rfl, fun _ => rfl, fun _ => rfl, fun _ => rfl,
      fun x hx => write_of_ne _ _ (hne x hx)⟩
  | non => exact ⟨rfl, rfl, rfl, fun _ => rfl, fun _ => rfl, fun _ => rfl, fun _ _ => rfl⟩
  | ptr p => exact ⟨rfl, rfl, rfl, fun _ => rfl, fun _ => rfl, fun _ => rfl, fun _ _ => rfl⟩
  | ref r off =>
    refine ⟨rfl, rfl, rfl, (like_refAdd h r).refPtr, fun r' => ?_, fun r' => ?_, fun _ _ => rfl⟩
    · simp only [AddKind.fillNew, refAdd, Heap.setRef, Function.update_apply]
      split
      · rename_i e; rw [e]
      · rfl
    · rw [hheld]
      simp only [AddKind.fillNew, AddKind.held, Option.some.injEq]
      exact refAdd_ref h r r'

/-- The loop step, with the bookkeeping of the base. -/
theorem addLoop_cons (max : Nat) (atEnd : Bool) (id : Nat) (ids : List Nat) (k : AddKind)
    (len : Nat) (s : St) :
    ∃ b, b.noVec = { s.base with
        nodeUsed := Function.update s.base.nodeUsed k.type true
        num := s.base.num + 1 }.noVec ∧
      addLoop max atEnd (id :: ids) k len s =
        if len - min max len = 0 then
          ([⟨id, min max len, k.payload⟩], ⟨k.fillNew s.heap id (min max len), b⟩)
        else
          let r := addLoop max atEnd ids (k.advance (min max len) len) (len - min max len)
            ⟨k.fillNew s.heap id (min max len), b⟩
          (⟨id, min max len, k.payload⟩ :: r.1, r.2) :=
  ⟨_, noVec_cacheIovecMaybeAdd _ _ _ _ _, rfl⟩

/-- Setting a flag twice. -/
theorem update_update (f : NodeType → Bool) (ty : NodeType) (a b : Bool) :
    Function.update (Function.update f ty a) ty b = Function.update f ty b :=
  Function.update_idem a b f

/-- The nodes the loop makes, what it does to memory, and its bookkeeping. -/
theorem addLoop_spec (max : Nat) (atEnd : Bool) (ids : List Nat) (k : AddKind) (len : Nat)
    (s : St) (hmax : 0 < max) (hlen : 0 < len) (hids : allocNum len max ≤ ids.length) :
    Chunks k max len ids (addLoop max atEnd ids k len s).1 ∧
      Filled s.heap (addLoop max atEnd ids k len s).2.heap (addLoop max atEnd ids k len s).1 ∧
      (addLoop max atEnd ids k len s).2.base.noVec = { s.base with
        nodeUsed := Function.update s.base.nodeUsed k.type true
        num := s.base.num + (addLoop max atEnd ids k len s).1.length }.noVec := by
  induction ids generalizing k len s with
  | nil =>
    have := allocNum_pos hlen max
    rw [List.length_nil] at hids
    omega
  | cons id ids ih =>
    obtain ⟨b, hb, e⟩ := addLoop_cons max atEnd id ids k len s
    rw [e]
    split
    · rename_i h0
      have hle : len ≤ max := by omega
      rw [Nat.min_eq_right hle]
      refine ⟨⟨rfl, by simp, rfl, ?_, ?_, ?_, ?_, ?_, ?_⟩, filled_fillNew _ _ _ _, hb⟩ <;>
        intro m hm <;> rw [List.mem_singleton.mp hm]
      · exact hlen
      · exact hle
      · exact k.type_payload _ _
      · exact k.ref_payload _ _
      · intro x hx
        cases k <;> cases hx
        exact ⟨_, rfl, rfl⟩
      · intro r o ho
        cases k <;> cases ho
        exact ⟨_, rfl, fun _ => ⟨rfl, rfl⟩⟩
    · rename_i h0
      have hlt : max < len := by omega
      rw [Nat.min_eq_left (Nat.le_of_lt hlt)]
      have hstep := allocNum_step hmax (Nat.le_of_lt hlt)
      rw [List.length_cons] at hids
      obtain ⟨hc, hf, hbase⟩ := ih (k.advance max len) (len - max)
        ⟨k.fillNew s.heap id max, b⟩ (by omega) (by omega)
      dsimp only
      refine ⟨⟨?_, by simp, ?_, ?_, ?_, ?_, ?_, ?_, ?_⟩, ?_, ?_⟩
      · rw [List.map_cons, List.length_cons, List.take_succ_cons, hc.ids]
      · rw [lens_cons, hc.lens]
        dsimp only
        omega
      · intro m hm
        rcases List.mem_cons.mp hm with rfl | hm
        · exact hmax
        · exact hc.pos m hm
      · intro m hm
        rcases List.mem_cons.mp hm with rfl | hm
        · exact Nat.le_refl _
        · exact hc.le_max m hm
      · intro m hm
        rcases List.mem_cons.mp hm with rfl | hm
        · exact k.type_payload _ _
        · rw [hc.type m hm, AddKind.type_advance]
      · intro m hm
        rcases List.mem_cons.mp hm with rfl | hm
        · exact k.ref_payload _ _
        · rw [hc.ref m hm, AddKind.held_advance]
      · intro m hm x hx
        rcases List.mem_cons.mp hm with rfl | hm
        · cases k <;> cases hx
          exact ⟨_, rfl, rfl⟩
        · obtain ⟨a, ha, hx'⟩ := hc.ptr m hm x hx
          cases k <;> cases ha
          exact ⟨_, rfl, hx'⟩
      · intro m hm r o ho
        rcases List.mem_cons.mp hm with rfl | hm
        · cases k <;> cases ho
          exact ⟨_, rfl, fun hle => absurd hle (by omega)⟩
        · obtain ⟨off, ha, -⟩ := hc.off m hm r o ho
          cases k <;> cases ha
          exact ⟨_, rfl, fun hle => absurd hle (by omega)⟩
      · exact (filled_fillNew s.heap k id max).trans hf
      · rw [hbase, List.length_cons]
        have hb' := hb
        simp only [Base.noVec, Base.mk.injEq] at hb' ⊢
        obtain ⟨h1, h2, h3, h4, h5, h6, -, h8, h9, h10, h11, -, h13, h14⟩ := hb'
        refine ⟨h1, h2, h3, ?_, h5, h6, trivial, h8, h9, ?_, h11, trivial, h13, h14⟩
        · rw [h4]
          omega
        · rw [h10, AddKind.type_advance, update_update]

/-! ## Bytes -/

/-- The block an add reads from. -/
def AddKind.blk (h : Heap) : AddKind → Option Blk
  | buf a => some a.blk
  | ptr a => some a.blk
  | ref r _ => some (h.refs r).ptr.blk
  | _ => none

/-- The data of a reference fits one node and its offset is a 32 bit one. -/
def AddKind.Short (max len : Nat) : AddKind → Prop
  | ref _ off => len ≤ max ∧ off < 2 ^ 32
  | _ => True

/-- A new node has the bytes it was filled with. -/
theorem nodeBytes_fillNew (h : Heap) (k : AddKind) (id : Nat) {n max len : Nat}
    (hk : k.Short max len) :
    nodeBytes (k.fillNew h id n) ⟨id, n, k.payload⟩ = k.src h n := by
  rw [nodeBytes_eq]
  cases k with
  | buf a => exact congrArg (List.map some) (read_copy_self h.mem ⟨.node id, 0⟩ a n)
  | repChr c =>
    have hr := read_fill_self h.mem ⟨.node id, 0⟩ c n
    exact (congrArg (List.map some) hr).trans (by rw [List.map_replicate]; rfl)
  | non => rfl
  | ptr a => rfl
  | ref r off =>
    have hoff : refOff off = off := Nat.mod_eq_of_lt hk.2
    simp only [AddKind.payload, AddKind.fillNew, AddKind.src, hoff]
    rw [(like_refAdd h r).mem, (like_refAdd h r).refPtr]

/-- The bytes of a new node are its own, or those it names. -/
theorem AddKind.blk_payload {k : AddKind} {id n : Nat} {p : Addr}
    (hp : exportNodePtr h ⟨id, n, k.payload⟩ = some p) :
    p.blk = .node id ∨ k.blk h = some p.blk := by
  cases k with
  | non => simp [exportNodePtr, AddKind.payload] at hp
  | _ =>
    simp only [exportNodePtr, AddKind.payload, Option.some.injEq] at hp
    subst hp
    simp [AddKind.blk]

/-- What the loop reads after one node is what follows. -/
theorem AddKind.src_advance (h : Heap) (k : AddKind) (id : Nat) {max len : Nat}
    (hlt : max < len) (hk : k.Short max len) (hb : ∀ x, k.blk h = some x → x ≠ .node id) :
    k.src h max ++ (k.advance max len).src (k.fillNew h id max) (len - max) = k.src h len := by
  have hlen : len = max + (len - max) := by omega
  cases k with
  | buf a =>
    have hr : read (copy h.mem ⟨.node id, 0⟩ a max) (a.add max) (len - max) =
        read h.mem (a.add max) (len - max) := read_write_of_ne _ _ _ (hb _ rfl)
    change (read h.mem a max).map some ++
      (read (copy h.mem ⟨.node id, 0⟩ a max) (a.add max) (len - max)).map some = _
    rw [hr, ← List.map_append, ← read_add, ← hlen]
    rfl
  | repChr c =>
    change List.replicate max _ ++ List.replicate (len - max) _ = List.replicate len _
    rw [List.replicate_append_replicate, ← hlen]
  | non =>
    change List.replicate max _ ++ List.replicate (len - max) _ = List.replicate len _
    rw [List.replicate_append_replicate, ← hlen]
  | ptr a =>
    change (read h.mem a max).map some ++ (read h.mem (a.add max) (len - max)).map some = _
    rw [← List.map_append, ← read_add, ← hlen]
    rfl
  | ref r off =>
    have := hk.1
    omega

/-- What the loop puts into its nodes. A reference that is too long for one node is not
advanced as it should be, so there a single node is asked for. -/
theorem addLoop_bytes (max : Nat) (atEnd : Bool) (ids : List Nat) (k : AddKind) (len : Nat)
    (s : St) (hmax : 0 < max) (hlen : 0 < len) (hids : allocNum len max ≤ ids.length)
    (hd : ids.Nodup) (hb : ∀ x, k.blk s.heap = some x → ∀ i ∈ ids, x ≠ .node i)
    (hk : k.Short max len) :
    flat (addLoop max atEnd ids k len s).2.heap (addLoop max atEnd ids k len s).1 =
      k.src s.heap len := by
  induction ids generalizing k len s with
  | nil =>
    have := allocNum_pos hlen max
    rw [List.length_nil] at hids
    omega
  | cons id ids ih =>
    obtain ⟨b, -, e⟩ := addLoop_cons max atEnd id ids k len s
    rw [e]
    split
    · rename_i h0
      have hle : len ≤ max := by omega
      rw [Nat.min_eq_right hle, flat_cons, flat_nil, List.append_nil]
      exact nodeBytes_fillNew s.heap k id hk
    · rename_i h0
      have hlt : max < len := by omega
      rw [Nat.min_eq_left (Nat.le_of_lt hlt)]
      have hstep := allocNum_step hmax (Nat.le_of_lt hlt)
      rw [List.length_cons] at hids
      rw [List.nodup_cons] at hd
      have hids' : allocNum (len - max) max ≤ ids.length := by omega
      have hlen' : 0 < len - max := by omega
      have hblk : (k.advance max len).blk (k.fillNew s.heap id max) = k.blk s.heap := by
        cases k with
        | ref r off =>
          have := hk.1
          omega
        | _ => rfl
      have hshort : (k.advance max len).Short max (len - max) := by
        cases k with
        | ref r off =>
          have := hk.1
          omega
        | _ => trivial
      have hrest := ih (k.advance max len) (len - max) ⟨k.fillNew s.heap id max, b⟩ hlen' hids'
        hd.2 (fun x hx i hi => hb x (hblk ▸ hx) i (List.mem_cons_of_mem _ hi)) hshort
      obtain ⟨hc, hf, -⟩ := addLoop_spec max atEnd ids (k.advance max len) (len - max)
        ⟨k.fillNew s.heap id max, b⟩ hmax hlen' hids'
      have hnot : ∀ m ∈ (addLoop max atEnd ids (k.advance max len) (len - max)
          ⟨k.fillNew s.heap id max, b⟩).1, m.id ∈ ids := by
        intro m hm
        have := List.mem_map_of_mem (f := Node.id) hm
        rw [hc.ids] at this
        exact List.mem_of_mem_take this
      have hkeep : nodeBytes (addLoop max atEnd ids (k.advance max len) (len - max)
          ⟨k.fillNew s.heap id max, b⟩).2.heap ⟨id, max, k.payload⟩ =
          nodeBytes (k.fillNew s.heap id max) ⟨id, max, k.payload⟩ := by
        apply nodeBytes_congr
        · unfold exportNodePtr
          cases k with
          | ref r off =>
            have := hk.1
            omega
          | _ => rfl
        · intro p hp
          apply read_congr
          intro j _
          rw [hf.mem]
          intro m hm hx
          rcases AddKind.blk_payload hp with hx' | hx'
          · rw [hx, Blk.node.injEq] at hx'
            exact hd.1 (hx' ▸ hnot m hm)
          · have hx'' : k.blk s.heap = some p.blk := by
              rw [← hx']
              cases k with
              | ref r off =>
                have := hk.1
                omega
              | _ => rfl
            exact hb _ hx'' m.id (List.mem_cons_of_mem _ (hnot m hm)) hx
      dsimp only
      rw [flat_cons, hrest, hkeep, nodeBytes_fillNew s.heap k id hk]
      exact AddKind.src_advance s.heap k id hlt hk fun x hx => hb x hx id List.mem_cons_self

/-! ## Linking -/

/-- The base after nodes were linked in, but for its vectors. -/
def linkBase (base : Base) (k : AddKind) (len : Nat) (a new b : List Node) : Base :=
  { base with
    len := base.len + len
    num := base.num + new.length
    nodeUsed := Function.update base.nodeUsed k.type true
    nodes := a ++ new ++ b
    endNode := if b = [] then new.getLast?.map Node.id else base.endNode }

theorem valid_linkBase {bufSz : Nat} {base : Base} {k : AddKind} {len max : Nat}
    {ids : List Nat} {a new b : List Node} (v : Valid bufSz base) (hns : base.nodes = a ++ b)
    (ha : a = [] → base.used = 0) (hc : Chunks k max len ids new) (hmax : max ≤ maxNodeAll)
    (hbuf : k.type = .buf → max ≤ bufSz) : Valid bufSz (linkBase base k len a new b) := by
  have hmem : ∀ m ∈ a ++ new ++ b, m ∈ base.nodes ∨ m ∈ new := by
    intro m hm
    simp only [List.mem_append] at hm
    rw [hns, List.mem_append]
    rcases hm with (hm | hm) | hm
    · exact .inl (.inl hm)
    · exact .inr hm
    · exact .inl (.inr hm)
  refine ⟨?_, ?_, ?_, ?_, ?_, ?_, ?_, ?_⟩
  · have := v.len
    rw [hns] at this
    simp only [linkBase, lens_append, hc.lens] at this ⊢
    omega
  · have := v.num
    rw [hns] at this
    simp only [linkBase, List.length_append] at this ⊢
    omega
  · have hend := v.endNode
    simp only [linkBase]
    split
    · rename_i hb
      rw [hb, List.append_nil, List.getLast?_append, Option.or_of_isSome]
      rw [List.getLast?_isSome]
      exact hc.ne_nil
    · rename_i hb
      rw [hend, hns, List.getLast?_append, List.getLast?_append]
      have hsome : b.getLast?.isSome := by
        rw [List.getLast?_isSome]
        exact hb
      rw [Option.or_of_isSome hsome, Option.or_of_isSome hsome]
  · intro m hm
    rcases hmem m hm with hm | hm
    · exact v.pos m hm
    · exact hc.pos m hm
  · intro hu
    change base.used ≠ 0 at hu
    obtain ⟨n, ns, hn, hd, hlt⟩ := v.used hu
    cases a with
    | nil => exact absurd (ha rfl) hu
    | cons m ms =>
      rw [hns, List.cons_append, List.cons.injEq] at hn
      exact ⟨m, ms ++ new ++ b, rfl, by rw [hn.1]; exact hd, by rw [hn.1]; exact hlt⟩
  · intro m hm
    simp only [linkBase, Function.update_apply]
    split
    · rfl
    · rename_i hne
      rcases hmem m hm with hm | hm
      · exact v.flags m hm
      · exact absurd (hc.type m hm) hne
  · intro m hm hb
    rcases hmem m hm with hm | hm
    · exact v.buf m hm hb
    · exact Nat.le_trans (hc.le_max m hm) (hbuf ((hc.type m hm).symm.trans hb))
  · intro m hm
    rcases hmem m hm with hm | hm
    · exact v.max m hm
    · exact Nat.le_trans (hc.le_max m hm) hmax

/-- The state after `VSTR__ADD_MID` or `VSTR__ADD_END`. -/
structure Linked (q : Prop) (E : Env) (P : Own) (s : St) (k : AddKind) (len origPos origLen : Nat)
    (a b : List Node) (P' : Own) (s' : St) (new : List Node) : Prop where
  /-- The state is sound. -/
  sound : Sound E P' s'
  /-- Foreign blocks are left alone. -/
  frame : Frame E P s.heap P' s'.heap
  /-- Only spare blocks changed their place. -/
  grows : Grows P P'
  /-- Only spare blocks are written. -/
  quiet : Quiet P s.heap s'.heap
  /-- The position cache is right again. -/
  posOk : PosOk q s'.base
  /-- The nodes are linked and the callbacks told. -/
  base : ∃ b', s'.base = cacheAdd b' origPos origLen ∧
    b'.noVec = (linkBase s.base k len a new b).noVec
  /-- The new nodes. -/
  chunks : Chunks k (k.max s.conf) len (s.conf.spare k.type) new
  /-- The places of the new nodes. -/
  mine : ∀ m ∈ new, P' (.node m.id) = .base E.me
  /-- The bytes of the new nodes. -/
  bytes : k.Short (k.max s.conf) len → (∀ x, k.blk s.heap = some x → Solid P x) →
    flat s'.heap new = k.src s.heap len

theorem AddKind.max_pos (sd : Sound E P s) (k : AddKind) : 0 < k.max s.conf := by
  unfold AddKind.max
  split
  · exact sd.bufSz_pos
  · exact Nat.succ_pos _

theorem AddKind.max_le (sd : Sound E P s) (k : AddKind) : k.max s.conf ≤ maxNodeAll := by
  unfold AddKind.max
  split
  · exact Nat.le_trans sd.bufSz_le (by decide)
  · exact Nat.le_refl _

/-- Filling nodes that are still spare. -/
theorem HeapOk.filled (ok : HeapOk P h) {new : List Node} (f : Filled h h' new)
    (hlive : ∀ r, 0 < heldBy new r → 0 < (h.refs r).ref) : HeapOk P h' where
  spareNum := by rw [f.confs]; exact ok.spareNum
  spareNodup := by rw [f.confs]; exact ok.spareNodup
  spareOwn := by rw [f.confs]; exact ok.spareOwn
  fresh := by rw [f.next]; exact ok.fresh
  refFresh r hr := by
    rw [f.next] at hr
    have h0 := ok.refFresh r hr
    have hz : heldBy new r = 0 := by
      by_contra hne
      have := hlive r (Nat.pos_of_ne_zero hne)
      omega
    rw [f.refCount, h0, hz]
  refOwn r hr := by
    have hpos : 0 < (h.refs r).ref := by
      by_contra hne
      rw [f.refCount] at hr
      exact hne (hlive r (by omega))
    have := ok.refOwn r hpos
    unfold RefPlace at this ⊢
    rw [f.refFunc, f.refPtr]
    exact this

/-- The places, once filled nodes are taken off their spare list. -/
theorem owned_link {h₁ : Heap} {c : Nat} {k : AddKind} {max len : Nat} {a new b : List Node}
    (ow : Owned E P h (a ++ b)) (hc : Chunks k max len ((h.confs c).spare k.type) new)
    (hf : Filled h h₁ new) (hlive : ∀ r, k.held = some r → 0 < (h.refs r).ref) :
    Owned E (P.give (new.map Node.id) (.base E.me)) (h₁.dropSpare c k.type new.length)
        (a ++ new ++ b) ∧
      Frame E P h (P.give (new.map Node.id) (.base E.me)) (h₁.dropSpare c k.type new.length) ∧
      Grows P (P.give (new.map Node.id) (.base E.me)) ∧
      Quiet P h (h₁.dropSpare c k.type new.length) := by
  have hspare : ∀ i ∈ new.map Node.id, P (.node i) = .spare c k.type := by
    intro i hi
    rw [hc.ids] at hi
    exact ow.heap.spareOwn _ _ i (List.mem_of_mem_take hi)
  have hlike := like_dropSpare h₁ c k.type new.length
  have hgr : Grows P (P.give (new.map Node.id) (.base E.me)) := by
    intro x hx
    apply P.give_of_ne
    rintro i hi rfl
    exact hx.2 _ _ (hspare i hi)
  have hquiet : Quiet P h (h₁.dropSpare c k.type new.length) := by
    refine ⟨fun x hx => ?_, fun r => (hlike.refPtr r).trans (hf.refPtr r)⟩
    rw [hlike.mem, hf.mem]
    rintro m hm rfl
    exact hx.2 _ _ (hspare m.id (List.mem_map_of_mem hm))
  refine ⟨⟨?_, ?_, ?_⟩, ?_, hgr, hquiet⟩
  · have hfilled : HeapOk P h₁ := by
      apply ow.heap.filled hf
      intro r hr
      obtain ⟨m, hm, hmr⟩ := List.countP_pos_iff.mp hr
      exact hlive r (by rw [← hc.ref m hm]; simpa using hmr)
    have hheap : HeapOk (P.give (((h₁.confs c).spare k.type).take new.length) (.base E.me))
        (h₁.dropSpare c k.type new.length) := hfilled.dropSpare new.length E.me
    rwa [hf.confs, ← hc.ids] at hheap
  · apply ow.nodes.insert _ hspare
    rw [hc.ids]
    exact (ow.heap.spareNodup _ _).sublist (List.take_sublist _ _)
  · intro r
    have hcount := ow.refs r
    rw [heldBy_append] at hcount
    change (h₁.refs r).ref = _
    rw [hf.refCount, heldBy_append, heldBy_append]
    omega
  · refine Frame.mk ?_ (fun c' => ?_) (fun c' => ?_) (fun c' => ?_) (fun c' => ?_) (fun r _ => ?_)
      (fun x hx => hgr x (solid_of_foreign hx)) (fun x hx => hquiet.mem x (solid_of_foreign hx))
      (fun x _ => ?_) (fun x hx => ?_)
    · exact Nat.le_of_eq (hlike.next.trans hf.next).symm
    · rw [hlike.bufSz, hf.confs]
    · rw [hlike.splitBufDel, hf.confs]
    · rw [hlike.iovMinAlloc, hf.confs]
    · rw [hlike.iovMinOffset, hf.confs]
    · exact hquiet.refPtr r
    · rw [hlike.size, hf.size]
    · rcases P.give_eq_or (new.map Node.id) (.base E.me) x with ⟨i, -, -, e⟩ | e
      · rw [e]; simp
      · rw [e]; exact hx

/-- The result of `addLink`, but for the vectors. -/
theorem addLink_base {k : AddKind} {len : Nat} {a b : List Node} (s : St)
    (hns : s.base.nodes = a ++ b) (hmax : 0 < k.max s.conf) (hlen : 0 < len)
    (hsp : allocNum len (k.max s.conf) ≤ (s.conf.spare k.type).length) (atEnd : Bool)
    (origPos origLen : Nat) :
    ∃ r b', addLoop (k.max s.conf) atEnd (s.conf.spare k.type) k len
        ⟨s.heap, { s.base with len := s.base.len + len }⟩ = r ∧
      addLink k s a.length atEnd len origPos origLen =
        ⟨r.2.heap.dropSpare s.base.conf k.type r.1.length, cacheAdd b' origPos origLen⟩ ∧
      b'.noVec = (linkBase s.base k len a r.1 b).noVec := by
  obtain ⟨-, -, hbase⟩ := addLoop_spec (k.max s.conf) atEnd (s.conf.spare k.type) k len
    ⟨s.heap, { s.base with len := s.base.len + len }⟩ hmax hlen hsp
  have htake : s.base.nodes.take a.length = a := by
    rw [hns]
    exact List.take_left' rfl
  have hdrop : s.base.nodes.drop a.length = b := by
    rw [hns]
    exact List.drop_left' rfl
  have hend : a.length < s.base.nodes.length ↔ b ≠ [] := by
    rw [hns, List.length_append, ← List.length_pos_iff]
    omega
  refine ⟨_, _, rfl, rfl, ?_⟩
  dsimp only
  rw [htake, hdrop]
  simp only [Base.noVec, linkBase, Base.mk.injEq, hend, ite_not, ne_eq] at hbase ⊢
  obtain ⟨h1, -, h3, h4, h5, h6, -, h8, h9, h10, h11, -, h13, h14⟩ := hbase
  refine ⟨h1, rfl, ?_, h4, h5, h6, trivial, h8, h9, h10, h11, trivial, h13, h14⟩
  split
  · rfl
  · exact h3

theorem addLink_spec {q : Prop} {k : AddKind} {len : Nat} {a b : List Node} (origPos : Nat)
    (sd : Sound E P s) (hns : s.base.nodes = a ++ b) (ha : a = [] → s.base.used = 0)
    (hlen : 0 < len) (hsp : allocNum len (k.max s.conf) ≤ (s.conf.spare k.type).length)
    (hlive : ∀ r, k.held = some r → 0 < (s.heap.refs r).ref)
    (pk : PosUpTo q (origPos + s.base.used) s.base)
    (hkeep : ∀ new, KeepsTo (origPos + s.base.used) (a ++ b) (a ++ new ++ b)) (atEnd : Bool)
    (origLen : Nat) :
    ∃ P' new, Linked q E P s k len origPos origLen a b P'
      (addLink k s a.length atEnd len origPos origLen) new := by
  have hmax := k.max_pos sd
  obtain ⟨r, b', hr, he, hnoVec⟩ := addLink_base s hns hmax hlen hsp atEnd origPos origLen
  obtain ⟨hc, hf, -⟩ := addLoop_spec (k.max s.conf) atEnd (s.conf.spare k.type) k len
    ⟨s.heap, { s.base with len := s.base.len + len }⟩ hmax hlen hsp
  have hbytes := addLoop_bytes (k.max s.conf) atEnd (s.conf.spare k.type) k len
    ⟨s.heap, { s.base with len := s.base.len + len }⟩ hmax hlen hsp
    (sd.owned.heap.spareNodup _ _)
  rw [hr] at hc hf hbytes
  have how := sd.owned
  rw [hns] at how
  obtain ⟨how', hframe, hgr, hquiet⟩ := owned_link (c := s.base.conf) how hc hf hlive
  have hcore : (cacheAdd b' origPos origLen).core = (linkBase s.base k len a r.1 b).core :=
    (core_cacheAdd b' origPos origLen).trans (core_of_noVec hnoVec)
  have hconf : (St.conf ⟨r.2.heap.dropSpare s.base.conf k.type r.1.length,
      cacheAdd b' origPos origLen⟩).bufSz = s.conf.bufSz := by
    have hb := hframe.bufSz s.base.conf
    unfold St.conf
    dsimp only
    rw [conf_of_core hcore]
    exact hb
  rw [he]
  refine ⟨_, r.1, ⟨⟨?_, ?_, ?_, ?_⟩, hframe, hgr, hquiet, ?_, ⟨b', rfl, hnoVec⟩, hc, ?_, ?_⟩⟩
  · have hnodes : (cacheAdd b' origPos origLen).nodes = a ++ r.1 ++ b := nodes_of_core hcore
    dsimp only
    rw [hnodes]
    exact how'
  · rw [hconf]
    refine Valid.congr (valid_linkBase sd.valid hns ha hc (k.max_le sd) fun hk => ?_) hcore
    unfold AddKind.max
    exact Nat.le_of_eq (by rw [hk])
  · rw [hconf]; exact sd.bufSz_pos
  · rw [hconf]; exact sd.bufSz_le
  · have hu : b'.used = s.base.used := (congrArg Base.used hnoVec :)
    have hnodes : b'.nodes = a ++ r.1 ++ b := (congrArg Base.nodes hnoVec :)
    apply PosUpTo.cacheAdd
    rw [hu]
    refine pk.edit (congrArg Base.posData hnoVec :) hu (congrArg Base.cacheAvailable hnoVec :) ?_
    rw [hnodes, hns]
    exact hkeep r.1
  · intro m hm
    exact P.give_mem _ (List.mem_map_of_mem hm)
  · intro hk hx
    rw [(like_dropSpare _ _ _ _).flat]
    apply hbytes _ hk
    intro x hx' i hi e
    exact (hx x hx').2 _ _ (e ▸ sd.owned.heap.spareOwn _ _ i hi)

end Vstr
