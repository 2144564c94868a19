import Vstr.Edit.Offer

/-!
# Taking over what was written

The caller writes a byte string across the vectors that were handed out, and
`vstr_add_iovec_buf_end` lets the node in front of the place grow and links spare nodes, so
that the first bytes written stand behind the place.
-/

namespace Vstr

open Memory Splice

variable {E : Env} {P P' : Own} {s s' t : St} {h : Heap} {b : Base} {vec : IovecData}
variable {pre post a ns : List Node} {n : Node} {f : Found} {pos m bytes : Nat} {r : IovecBuf}

/-! ## Writing across vectors -/

/-- The vectors of spare nodes. -/
def spareIovs (bufSz : Nat) (ids : List Nat) : List Iovec :=
  ids.map fun id => ⟨some ⟨.node id, 0⟩, bufSz⟩

/-- Blocks without a vector stay as they are. -/
theorem writeIovecs_of_ne {iovs : List Iovec} {x : Blk}
    (hx : ∀ iov ∈ iovs, ∀ p, iov.base = some p → x ≠ p.blk) (mem : Mem Blk UInt8)
    (w : List UInt8) : writeIovecs mem iovs w x = mem x := by
  induction iovs generalizing mem w with
  | nil => rfl
  | cons iov iovs ih =>
    rw [writeIovecs, ih fun iov' hiov => hx iov' (.tail _ hiov)]
    cases hb : iov.base with
    | none => rfl
    | some p => exact write_of_ne _ _ (hx iov (.head _) p hb)

theorem writeIovecs_spare_of_ne {bufSz : Nat} {ids : List Nat} {x : Blk}
    (hx : ∀ id ∈ ids, x ≠ .node id) (mem : Mem Blk UInt8) (w : List UInt8) :
    writeIovecs mem (spareIovs bufSz ids) w x = mem x := by
  apply writeIovecs_of_ne
  intro iov hiov p hp
  obtain ⟨id, hid, rfl⟩ := List.mem_map.mp hiov
  cases hp
  exact hx id hid

/-! ## New nodes -/

/-- The spare nodes that take the bytes that are left, as `vstr_add_iovec_buf_end` makes them. -/
theorem iovecBufNodes_spec {bufSz : Nat} (hb : 0 < bufSz) (a₀ : Addr) (ids : List Nat)
    {i left : Nat} (hm : m ≤ ids.length) (hv : ∀ k < m, (vec.v (i + k)).len = bufSz)
    (h1 : 0 < left) (hle : left ≤ m * bufSz) :
    Chunks (.buf a₀) bufSz left ids (iovecBufNodes vec ids i left) ∧
      (iovecBufNodes vec ids i left).length ≤ m := by
  induction ids generalizing i left m with
  | nil =>
    obtain rfl : m = 0 := Nat.le_zero.mp hm
    omega
  | cons id ids ih =>
    obtain ⟨m, rfl⟩ : ∃ m', m = m' + 1 := Nat.exists_eq_succ_of_ne_zero (by rintro rfl; omega)
    rw [iovecBufNodes, show (vec.v i).len = bufSz from hv 0 (Nat.succ_pos m)]
    split
    · rename_i h0
      have hlt : left ≤ bufSz := by omega
      rw [Nat.min_eq_right hlt]
      refine ⟨⟨rfl, by simp, rfl, ?_, ?_, ?_, ?_, ?_, ?_⟩, by simp⟩
      all_goals
        intro x hx
        rw [List.mem_singleton.mp hx]
      · exact h1
      · exact hlt
      · rfl
      · rfl
      · intro p hp
        cases hp
      · intro r o hr
        cases hr
    · rename_i h0
      have hgt : bufSz < left := by omega
      rw [Nat.min_eq_left (Nat.le_of_lt hgt)]
      have hv' : ∀ k < m, (vec.v (i + 1 + k)).len = bufSz := by
        intro k hk
        rw [show i + 1 + k = i + (k + 1) by omega]
        exact hv (k + 1) (Nat.succ_lt_succ hk)
      have hle' : left - bufSz ≤ m * bufSz := by
        rw [Nat.succ_mul] at hle
        omega
      obtain ⟨hc, hl⟩ := ih (Nat.le_of_succ_le_succ hm) hv' (Nat.sub_pos_of_lt hgt) hle'
      refine ⟨⟨?_, by simp, ?_, ?_, ?_, ?_, ?_, ?_, ?_⟩, Nat.succ_le_succ hl⟩
      · rw [List.map_cons, List.length_cons, List.take_succ_cons, hc.ids]
      · rw [lens_cons, hc.lens]
        dsimp only
        omega
      all_goals
        intro x hx
        rcases List.mem_cons.mp hx with rfl | hx
      · exact hb
      · exact hc.pos x hx
      · exact Nat.le_refl _
      · exact hc.le_max x hx
      · rfl
      · exact hc.type x hx
      · rfl
      · exact hc.ref x hx
      · intro p hp
        cases hp
      · exact hc.ptr x hx
      · intro r o hr
        cases hr
      · intro r o hr
        obtain ⟨off, e, -⟩ := hc.off x hx r o hr
        cases e

/-- They hold the bytes that were written. -/
theorem flat_iovecBufNodes {bufSz : Nat} (ids : List Nat) (hd : ids.Nodup) {i left : Nat}
    (hm : m ≤ ids.length) (hv : ∀ k < m, (vec.v (i + k)).len = bufSz) (h1 : 0 < left)
    (hle : left ≤ m * bufSz) (mem : Mem Blk UInt8) (w : List UInt8) (hw : left ≤ w.length) :
    flat (h.setMem (writeIovecs mem (spareIovs bufSz (ids.take m)) w))
      (iovecBufNodes vec ids i left) = (w.take left).map some := by
  induction ids generalizing i left m mem w with
  | nil =>
    obtain rfl : m = 0 := Nat.le_zero.mp hm
    omega
  | cons id ids ih =>
    obtain ⟨m, rfl⟩ : ∃ m', m = m' + 1 := Nat.exists_eq_succ_of_ne_zero (by rintro rfl; omega)
    obtain ⟨hid, hd⟩ := List.nodup_cons.mp hd
    have hread : ∀ k ≤ min bufSz w.length,
        read (writeIovecs mem (spareIovs bufSz ((id :: ids).take (m + 1))) w) ⟨.node id, 0⟩ k =
          w.take k := by
      intro k hk
      rw [List.take_succ_cons, spareIovs, List.map_cons, writeIovecs]
      dsimp only
      have hself : read (write mem ⟨.node id, 0⟩ (w.take bufSz)) ⟨.node id, 0⟩ k = w.take k := by
        rw [read_write_take _ _ _ (by rw [List.length_take]; exact hk), List.take_take,
          Nat.min_eq_left (by omega)]
      rw [← hself]
      apply read_congr
      intro j _
      refine congrFun (writeIovecs_spare_of_ne (fun id' (hid' : id' ∈ ids.take m) e => ?_) _ _) _
      cases e
      exact hid (List.mem_of_mem_take hid')
    rw [iovecBufNodes, show (vec.v i).len = bufSz from hv 0 (Nat.succ_pos m)]
    split
    · rename_i h0
      rw [Nat.min_eq_right (by omega), flat_cons, nodeBytes_eq]
      dsimp only
      rw [Heap.setMem, hread left (by omega)]
      exact List.append_nil _
    · rename_i h0
      have hgt : bufSz < left := by omega
      rw [Nat.min_eq_left (Nat.le_of_lt hgt), flat_cons, nodeBytes_eq]
      dsimp only [Heap.setMem]
      rw [hread bufSz (by omega)]
      have hv' : ∀ k < m, (vec.v (i + 1 + k)).len = bufSz := by
        intro k hk
        rw [show i + 1 + k = i + (k + 1) by omega]
        exact hv (k + 1) (Nat.succ_lt_succ hk)
      have hle' : left - bufSz ≤ m * bufSz := by
        rw [Nat.succ_mul] at hle
        omega
      have hrest := ih hd (Nat.le_of_succ_le_succ hm) hv' (Nat.sub_pos_of_lt hgt) hle'
        (write mem ⟨.node id, 0⟩ (w.take bufSz)) (w.drop bufSz) (by rw [List.length_drop]; omega)
      refine (congrArg ((w.take bufSz).map some ++ ·) hrest).trans ?_
      rw [← List.map_append, ← List.take_add, Nat.add_sub_cancel' (Nat.le_of_lt hgt)]

/-- The vectors handed out for spare nodes. -/
theorem Offers.iovs {bufSz i : Nat} {ids : List Nat} (ho : Offers vec bufSz i m ids)
    (hm : m ≤ ids.length) :
    ((List.range m).map fun k => vec.v (i + k)) = spareIovs bufSz (ids.take m) := by
  apply List.ext_getElem
  · simp [spareIovs, hm]
  · intro k hk hk'
    rw [List.length_map, List.length_range] at hk
    have hid : ids[k]? = some ids[k] := List.getElem?_eq_getElem (by omega)
    simp only [spareIovs, List.getElem_map, List.getElem_range, List.getElem_take]
    exact (ho k hk _ hid).1

/-- Spare nodes are offered whole. -/
theorem Offers.lens {bufSz i : Nat} {ids : List Nat} (ho : Offers vec bufSz i m ids)
    (hm : m ≤ ids.length) : ∀ k < m, (vec.v (i + k)).len = bufSz := by
  intro k hk
  have hid : ids[k]? = some ids[k] := List.getElem?_eq_getElem (by omega)
  rw [(ho k hk _ hid).1]

/-! ## Finding the place again -/

/-- A cached node behind the position is as good as none. -/
theorem basePos_behind {id : Nat} (hid : b.posData.node = some id)
    (hc : b.cacheAvailable = true) (hgt : pos < b.posData.pos) :
    (basePos b pos true).1 = (basePos { b with posData := ⟨none, 0, 0⟩ } pos true).1 ∧
      ((basePos b pos true).2 = b ∨
        (basePos b pos true).2 = (basePos { b with posData := ⟨none, 0, 0⟩ } pos true).2) := by
  have hs : scanStart b pos = scanStart { b with posData := ⟨none, 0, 0⟩ } pos := by
    unfold scanStart
    rw [hid]
    dsimp only
    rw [if_neg (by omega)]
  have hi : Base.indexOf { b with posData := ⟨none, 0, 0⟩ } = b.indexOf := rfl
  have hn : Base.node { b with posData := ⟨none, 0, 0⟩ } = b.node := rfl
  unfold basePos
  rw [← hs, hi, hn]
  dsimp only
  split
  · exact ⟨rfl, .inl rfl⟩
  · split
    · exact ⟨rfl, .inl rfl⟩
    · refine ⟨rfl, .inr ?_⟩
      unfold cachePos
      rw [if_pos rfl, if_pos hc, if_pos rfl, if_pos hc]
      rfl

/-- Of the position cache only what starts at or before the position counts. -/
theorem basePos_upTo {bufSz : Nat} (v : Valid bufSz b) (hd : (b.nodes.map Node.id).Nodup)
    (pu : PosUpTo True (pos + b.used) b) (h1 : 1 ≤ pos) (h2 : pos ≤ b.len) :
    ∃ pre n post d, At b pos (basePos b pos true).1 pre n post ∧
      (basePos b pos true).1.num = pre.length + 1 ∧
        (basePos b pos true).2 = { b with posData := d } ∧
          PosUpTo True (pos + b.used) { b with posData := d } := by
  by_cases hle : ∀ id, b.posData.node = some id → b.cacheAvailable = true → b.posData.pos ≤ pos
  · have pk : PosOk True b := by
      intro id hid hc
      obtain ⟨hp, k, i, hk, hs⟩ := pu id hid hc
      have := hle id hid hc
      exact ⟨hp, k, i, hk, hs (by omega)⟩
    obtain ⟨pre, n, post, hat, hnum, -⟩ := basePos_at v hd pk h1 h2 true
    obtain ⟨d, e⟩ := basePos_base b pos true
    have pk' := posOk_basePos v hd pk h1 h2 true
    rw [e] at pk'
    exact ⟨pre, n, post, d, hat, hnum trivial, e, pk'.upTo _⟩
  · push Not at hle
    obtain ⟨id, hid, hc, hgt⟩ := hle
    obtain ⟨e, hb⟩ := basePos_behind hid hc hgt
    have v₀ : Valid bufSz { b with posData := ⟨none, 0, 0⟩ } := v.congr rfl
    have pk₀ : PosOk True { b with posData := ⟨none, 0, 0⟩ } := posOk_of_none rfl
    obtain ⟨pre, n, post, hat, hnum, -⟩ := basePos_at v₀ hd pk₀ h1 h2 true
    have pk := posOk_basePos v₀ hd pk₀ h1 h2 true
    rw [← e] at hat hnum
    have hat' : At b pos (basePos b pos true).1 pre n post :=
      ⟨hat.nodes, hat.idx, hat.pos, hat.one_le, hat.le_len⟩
    rcases hb with hb | hb
    · exact ⟨pre, n, post, b.posData, hat', hnum trivial, hb, pu⟩
    · obtain ⟨d, hd'⟩ := basePos_base { b with posData := ⟨none, 0, 0⟩ } pos true
      rw [hd'] at hb pk
      exact ⟨pre, n, post, d, hat', hnum trivial, hb, pk.upTo _⟩

/-! ## The node in front of the place -/

/-- The nodes in front of the place took the first bytes `xs`. -/
structure Grew (E : Env) (P : Own) (s : St) (pos : Nat) (a ns : List Node) (h : Heap)
    (a' : List Node) (xs : List UInt8) : Prop where
  /-- The places. -/
  owned : Owned E P h (a' ++ ns)
  /-- The structure. -/
  valid : Valid s.conf.bufSz { s.base with nodes := a' ++ ns, len := s.base.len + xs.length }
  /-- Foreign blocks are left alone. -/
  frame : Frame E P s.heap P h
  /-- Nothing but memory changes. -/
  heap : ∃ mem, h = s.heap.setMem mem
  /-- The bytes in front of the place. -/
  front : flat h a' = flat s.heap a ++ xs.map some
  /-- The bytes behind it. -/
  behind : flat h ns = flat s.heap ns
  /-- What starts in front of the place still does. -/
  keeps : ∀ new, KeepsTo (pos + s.base.used) (a ++ ns) (a' ++ new ++ ns)
  /-- `PTR` nodes point to foreign blocks. -/
  ptrSafe : PtrSafe E P (a' ++ ns)
  /-- Offsets do not wrap. -/
  fits : Fits (a' ++ ns)
  /-- There are as many nodes as before. -/
  length : a'.length = a.length
  /-- Without bytes nothing changes. -/
  same : xs = [] → a' = a

/-- Nothing goes into the node in front. -/
theorem Cut.grewNot (c : Cut E P s pos P' s' a ns m) : Grew E P' s' pos a ns s'.heap a [] where
  owned := c.nodes ▸ c.sound.owned
  valid := by
    have := c.sound.valid
    rw [← c.nodes]
    exact this
  frame := Frame.refl _ _ _
  heap := ⟨_, rfl⟩
  front := (List.append_nil _).symm
  behind := rfl
  keeps new := by
    rcases List.eq_nil_or_concat a with rfl | ⟨pre, n, rfl⟩
    · have hp := c.place
      rw [lens_nil] at hp
      intro id k i _ hk
      omega
    · rw [List.concat_eq_append]
      have hp := c.place
      rw [List.concat_eq_append, lens_append, lens_cons, lens_nil] at hp
      have h := keepsTo_edit pre ns (new ++ ns) (rfl : n.id = n.id)
        (show pos + s'.base.used ≤ _ by omega)
      simpa using h
  ptrSafe := c.nodes ▸ c.ptrSafe
  fits := c.nodes ▸ c.fits
  length := rfl
  same _ := rfl

/-- The node in front takes bytes into its tail. -/
theorem Cut.grew (c : Cut E P s pos P' s' (pre ++ [n]) ns m) (hbuf : n.type = .buf)
    (bs xs : List UInt8) (hx : ∃ k, xs = bs.take k) (hlen : n.len + xs.length ≤ s'.conf.bufSz) :
    Grew E P' s' pos (pre ++ [n]) ns (s'.heap.setMem (write s'.heap.mem ⟨.node n.id, n.len⟩ bs))
      (pre ++ [{ n with len := n.len + xs.length }]) xs := by
  have sd := c.sound
  have hns : s'.base.nodes = pre ++ n :: ns := c.nodes.trans (List.append_cons _ _ _).symm
  have hmine : P' (.node n.id) = .base E.me := sd.owned.nodes.own n (by rw [hns]; simp)
  have happ : pre ++ [{ n with len := n.len + xs.length }] ++ ns =
      pre ++ { n with len := n.len + xs.length } :: ns := (List.append_cons _ _ _).symm
  have how := sd.owned
  rw [hns] at how
  have hps := c.ptrSafe
  rw [hns] at hps
  obtain ⟨hpre, hpost⟩ := how.flat_write_around hps n.len bs
  have hd : n.data = .buf := data_of_type_buf hbuf
  refine ⟨?_, ?_, frame_setMem bs (not_foreign_of_base hmine), ⟨_, rfl⟩, ?_, hpost, ?_, ?_, ?_,
    by simp, fun hnil => by rw [hnil]; rfl⟩
  · rw [happ]
    refine Owned.setMem (how.of_same ?_ ?_) _
    · simp
    · simp [Node.ref]
  · rw [happ]
    exact valid_absorbBase sd.valid hns
      (Nat.le_trans hlen (Nat.le_trans sd.bufSz_le (by decide))) fun _ => hlen
  · rw [flat_append, flat_append, hpre, List.append_assoc, flat_cons, flat_cons]
    congr 1
    obtain ⟨k, rfl⟩ := hx
    have hle : (bs.take k).length ≤ bs.length := by simp
    have htake : bs.take (bs.take k).length = bs.take k := by
      rw [List.length_take, ← List.take_take, List.take_length]
    rw [nodeBytes_tail hd hle, htake, flat_nil, List.append_nil, flat_nil, List.append_nil]
  · intro new
    have hp := c.place
    rw [lens_append, lens_cons, lens_nil] at hp
    have hid : ({ n with len := n.len + xs.length } : Node).id = n.id := rfl
    have h := keepsTo_edit pre ns (new ++ ns) hid
      (show pos + s'.base.used ≤ lens pre + n.len by omega)
    simpa using h
  · rw [happ]
    intro x hx' p hp
    rcases List.mem_append.mp hx' with hx' | hx'
    · exact hps x (List.mem_append_left _ hx') p hp
    · rcases List.mem_cons.mp hx' with rfl | hx'
      · exact hps n (by simp) p hp
      · exact hps x (by simp [hx']) p hp
  · rw [happ]
    have hf := c.fits
    rw [hns] at hf
    intro x hx' r off hr
    rcases List.mem_append.mp hx' with hx' | hx'
    · exact hf x (List.mem_append_left _ hx') r off hr
    · rcases List.mem_cons.mp hx' with rfl | hx'
      · have hr' : n.data = .ref r off := hr
        rw [hd] at hr'
        cases hr'
      · exact hf x (by simp [hx']) r off hr

/-! ## Linking -/

/-- Insertion behind the nodes `a`. -/
theorem content_behind (h h' : Heap) (b' : Base) {a' : List Node} (new : List Node)
    {xs ys : List (Option UInt8)}
    (hpos : lens a = pos + b.used) (hns : b.nodes = a ++ ns) (hns' : b'.nodes = a' ++ new ++ ns)
    (hu : b'.used = b.used) (ha : flat h' a' = flat h a ++ xs) (hnew : flat h' new = ys)
    (hpost : flat h' ns = flat h ns) :
    content ⟨h', b'⟩ = insertAfter (content ⟨h, b⟩) pos (xs ++ ys) := by
  unfold content
  dsimp only
  have e : flat h b.nodes = flat h a ++ flat h ns := by rw [hns, flat_append]
  have e' : flat h' b'.nodes = flat h a ++ (xs ++ ys) ++ flat h ns := by
    rw [hns', flat_append, flat_append, ha, hnew, hpost, List.append_assoc (flat h a)]
  rw [e, e', hu]
  exact (insertAfter_drop (by rw [length_flat, hpos])).symm

/-- Memory after bytes were written to spare nodes. -/
def Heap.writeSpare (h : Heap) (bufSz : Nat) (ids : List Nat) (w : List UInt8) : Heap :=
  h.setMem (writeIovecs h.mem (spareIovs bufSz ids) w)

theorem quiet_writeSpare (ok : HeapOk P h) (bufSz : Nat) {c : Nat} {ids : List Nat}
    (hids : ∀ id ∈ ids, id ∈ (h.confs c).spare .buf) (w : List UInt8) :
    Quiet P h (h.writeSpare bufSz ids w) := by
  refine ⟨fun x hx => ?_, fun _ => rfl⟩
  apply writeIovecs_spare_of_ne
  rintro id hid rfl
  exact hx.2 _ _ (ok.spareOwn c .buf id (hids id hid))

theorem frame_writeSpare (ok : HeapOk P h) (bufSz : Nat) {c : Nat} {ids : List Nat}
    (hids : ∀ id ∈ ids, id ∈ (h.confs c).spare .buf) (w : List UInt8) :
    Frame E P h P (h.writeSpare bufSz ids w) :=
  ⟨Nat.le_refl _, fun _ => rfl, fun _ => rfl, fun _ => rfl, fun _ => rfl, fun _ _ => rfl,
    fun _ _ => rfl, fun x hx => (quiet_writeSpare ok bufSz hids w).mem x (solid_of_foreign hx),
    fun _ _ => rfl, fun _ hx => hx⟩

/-- What the second call leaves: the bytes stand behind the place. -/
structure Took (E : Env) (P : Own) (s : St) (pos : Nat) (xs : List UInt8) (P' : Own) (t : St) :
    Prop where
  /-- The state is sound. -/
  sound : Sound E P' t
  /-- Foreign blocks are left alone. -/
  frame : Frame E P s.heap P' t.heap
  /-- `PTR` nodes point to foreign blocks. -/
  ptrSafe : PtrSafe E P' t.base.nodes
  /-- Offsets do not wrap. -/
  fits : Fits t.base.nodes
  /-- The configuration. -/
  conf : t.base.conf = s.base.conf
  /-- The content. -/
  content : Vstr.content t = insertAfter (Vstr.content s) pos (xs.map some)

variable {a' : List Node} {xs w : List UInt8} {bufSz : Nat} {ids : List Nat}

/-- Consumed bytes stand in a node in front of the place. -/
theorem Grew.used_eq_zero (g : Grew E P' s' pos a ns h a' xs) (c : Cut E P s pos P' s' a ns m)
    (hnil : a' = []) : s'.base.used = 0 := by
  have ha : a = [] := List.length_eq_zero_iff.mp (by rw [← g.length, hnil]; rfl)
  have hp := c.place
  rw [ha, lens_nil] at hp
  omega

/-- Nothing is left for spare nodes. -/
theorem Grew.took (g : Grew E P' s' pos a ns h a' xs) (c : Cut E P s pos P' s' a ns m)
    (hids : ∀ id ∈ ids, id ∈ (s'.conf.spare .buf)) (w : List UInt8)
    (hb : b.core = { s'.base with nodes := a' ++ ns, len := s'.base.len + xs.length }.core) :
    Took E P' s' pos xs P' ⟨h.writeSpare bufSz ids w, b⟩ := by
  have hns : b.nodes = a' ++ ns := nodes_of_core hb
  obtain ⟨mem, hh⟩ := g.heap
  have hids' : ∀ id ∈ ids, id ∈ (h.confs s'.base.conf).spare .buf := by
    rw [hh]
    exact hids
  have hq := quiet_writeSpare g.owned.heap bufSz hids' w
  have hfr := frame_writeSpare (E := E) g.owned.heap bufSz hids' w
  have hconf : (St.conf ⟨h.writeSpare bufSz ids w, b⟩) = s'.conf := by
    unfold St.conf
    rw [conf_of_core hb, hh]
    rfl
  have hfirm := g.owned.firm g.ptrSafe
  rw [firm_append] at hfirm
  refine ⟨⟨?_, ?_, ?_, ?_⟩, g.frame.trans hfr, ?_, ?_, (congrArg Base.conf hb :), ?_⟩
  · dsimp only
    rw [hns]
    exact g.owned.setMem _
  · rw [hconf]
    exact g.valid.congr hb
  · rw [hconf]
    exact c.sound.bufSz_pos
  · rw [hconf]
    exact c.sound.bufSz_le
  · dsimp only
    rw [hns]
    exact g.ptrSafe
  · dsimp only
    rw [hns]
    exact g.fits
  · have := content_behind s'.heap (h.writeSpare bufSz ids w) b [] c.place c.nodes
      (by rw [hns, List.append_nil]) (congrArg Base.used hb :) ((hq.flat hfirm.1).trans g.front)
      rfl ((hq.flat hfirm.2).trans g.behind)
    rw [flat_nil, List.append_nil] at this
    exact this

/-- The rest goes into spare nodes. -/
theorem Grew.linked {vec : IovecData} {i left : Nat} (g : Grew E P' s' pos a ns h a' xs)
    (c : Cut E P s pos P' s' a ns m) (a₀ : Addr)
    (hv : ∀ k < m, (vec.v (i + k)).len = s'.conf.bufSz) (h1 : 0 < left)
    (hle : left ≤ m * s'.conf.bufSz) (hw : left ≤ w.length)
    (hb : b.core = (linkBase { s'.base with nodes := a' ++ ns, len := s'.base.len + xs.length }
      (.buf a₀) left a' (iovecBufNodes vec (s'.conf.spare .buf) i left) ns).core) :
    Took E P' s' pos (xs ++ w.take left)
      (P'.give ((iovecBufNodes vec (s'.conf.spare .buf) i left).map Node.id) (.base E.me))
      ⟨(h.writeSpare s'.conf.bufSz ((s'.conf.spare .buf).take m) w).dropSpare s'.base.conf .buf
        (iovecBufNodes vec (s'.conf.spare .buf) i left).length, b⟩ := by
  have hns : b.nodes = a' ++ iovecBufNodes vec (s'.conf.spare .buf) i left ++ ns :=
    nodes_of_core hb
  have hbufs := c.sound.bufSz_pos
  have hnd : (s'.conf.spare .buf).Nodup := c.sound.owned.heap.spareNodup s'.base.conf .buf
  obtain ⟨hc, hlen⟩ := iovecBufNodes_spec hbufs a₀ (s'.conf.spare .buf) c.spares hv
    h1 hle
  have hflat : flat (h.writeSpare s'.conf.bufSz ((s'.conf.spare .buf).take m) w)
      (iovecBufNodes vec (s'.conf.spare .buf) i left) = (w.take left).map some :=
    flat_iovecBufNodes (s'.conf.spare .buf) hnd c.spares hv h1 hle h.mem w hw
  generalize iovecBufNodes vec (s'.conf.spare .buf) i left = new at hns hc hlen hflat hb ⊢
  obtain ⟨mem, hh⟩ := g.heap
  have hconfs : h.confs = s'.heap.confs := by rw [hh]; rfl
  have hids : ∀ id ∈ (s'.conf.spare .buf).take m, id ∈ (h.confs s'.base.conf).spare .buf := by
    rw [hconfs]
    exact fun id hid => List.mem_of_mem_take hid
  have hq := quiet_writeSpare g.owned.heap s'.conf.bufSz hids w
  have hfr := frame_writeSpare (E := E) g.owned.heap s'.conf.bufSz hids w
  have how : Owned E P' (h.writeSpare s'.conf.bufSz ((s'.conf.spare .buf).take m) w) (a' ++ ns) :=
    g.owned.setMem _
  generalize hh₂ : h.writeSpare s'.conf.bufSz ((s'.conf.spare .buf).take m) w = h₂
    at hq hfr how hflat ⊢
  have hconfs₂ : h₂.confs = s'.heap.confs := by rw [← hh₂]; exact hconfs
  have hheld : ∀ r, heldBy new r = 0 := by
    intro r
    refine List.countP_eq_zero.mpr fun x hx => ?_
    simp [hc.ref x hx, AddKind.held]
  have hf : Filled h₂ h₂ new := ⟨rfl, rfl, rfl, fun _ => rfl, fun _ => rfl,
    fun r => by rw [hheld, Nat.add_zero], fun _ _ => rfl⟩
  have hc' : Chunks (.buf a₀) s'.conf.bufSz left ((h₂.confs s'.base.conf).spare
      (AddKind.type (.buf a₀))) new := by
    rw [hconfs₂]
    exact hc
  obtain ⟨how', hfr', hgr, hq'⟩ := owned_link how hc' hf (fun r hr => by cases hr)
  have hconf : St.conf ⟨h₂.dropSpare s'.base.conf .buf new.length, b⟩ =
      (h₂.dropSpare s'.base.conf .buf new.length).confs s'.base.conf := by
    unfold St.conf
    rw [conf_of_core hb]
    rfl
  have hbufSz : (St.conf ⟨h₂.dropSpare s'.base.conf .buf new.length, b⟩).bufSz =
      s'.conf.bufSz := by
    rw [hconf, (like_dropSpare _ _ _ _).bufSz, hconfs₂]
    rfl
  have hfirm := g.owned.firm g.ptrSafe
  rw [firm_append] at hfirm
  have hps := g.ptrSafe
  rw [PtrSafe, ptrsIn_append] at hps
  have hall : ∀ {ms : List Node}, Firm P' h ms →
      flat (h₂.dropSpare s'.base.conf .buf new.length) ms = flat h ms :=
    fun fm => ((like_dropSpare _ _ _ _).flat _).trans (hq.flat fm)
  refine ⟨⟨?_, ?_, ?_, ?_⟩, (g.frame.trans hfr).trans hfr', ?_, ?_, (congrArg Base.conf hb :), ?_⟩
  · dsimp only
    rw [hns]
    exact how'
  · rw [hbufSz]
    refine Valid.congr (valid_linkBase g.valid rfl (g.used_eq_zero c) hc ?_ fun _ =>
      Nat.le_refl _) hb
    exact Nat.le_trans c.sound.bufSz_le (by decide)
  · rw [hbufSz]
    exact c.sound.bufSz_pos
  · rw [hbufSz]
    exact c.sound.bufSz_le
  · refine PtrsIn.frame (P := P') ?_ hfr'
    dsimp only
    rw [hns, ptrsIn_append, ptrsIn_append]
    refine ⟨⟨hps.1, fun x hx p hp => ?_⟩, hps.2⟩
    obtain ⟨y, e, -⟩ := hc.ptr x hx p hp
    cases e
  · dsimp only
    rw [hns, fits_append, fits_append]
    have hfit := g.fits
    rw [fits_append] at hfit
    refine ⟨⟨hfit.1, fun x hx r o hr => ?_⟩, hfit.2⟩
    obtain ⟨off, e, -⟩ := hc.off x hx r o hr
    cases e
  · have := content_behind s'.heap (h₂.dropSpare s'.base.conf .buf new.length) b new
      c.place c.nodes hns (congrArg Base.used hb :) ((hall hfirm.1).trans g.front)
      (((like_dropSpare _ _ _ _).flat _).trans hflat) ((hall hfirm.2).trans g.behind)
    rw [← List.map_append] at this
    exact this

/-! ## The second call -/

/-- The flags do not matter when a position is looked for. -/
theorem basePos_nodeUsed (b : Base) (u : NodeType → Bool) (pos : Nat) :
    basePos { b with nodeUsed := u } pos true =
      ((basePos b pos true).1, { (basePos b pos true).2 with nodeUsed := u }) := by
  have hi : Base.indexOf { b with nodeUsed := u } = b.indexOf := rfl
  have hn : Base.node { b with nodeUsed := u } = b.node := rfl
  have hs : scanStart { b with nodeUsed := u } pos = scanStart b pos := rfl
  have hf : scanFrom { b with nodeUsed := u } = scanFrom b := rfl
  unfold basePos cachePos
  rw [hi, hn, hs, hf]
  dsimp only
  split
  · rfl
  · split
    · rfl
    · rw [if_pos rfl, if_pos rfl]
      split
      · rfl
      · rfl

/-- The node in front of the place is found again. -/
theorem Cut.find (c : Cut E P s pos P' s' (pre ++ [n]) ns m) (u : NodeType → Bool) :
    ∃ d, basePos { s'.base with nodeUsed := u } pos true =
        (⟨pre.length, n.len, pre.length + 1⟩, { s'.base with nodeUsed := u, posData := d }) ∧
      PosUpTo True (pos + s'.base.used) { s'.base with posData := d } ∧
        PosOk False { s'.base with posData := d } := by
  have sd := c.sound
  have hp := c.place
  rw [lens_append, lens_cons, lens_nil] at hp
  have hns : s'.base.nodes = pre ++ n :: ns := c.nodes.trans (List.append_cons _ _ _).symm
  have h1 : 1 ≤ pos := by
    rcases Nat.eq_zero_or_pos pos with h0 | h0
    · have := c.front.mp h0
      simp at this
    · exact h0
  have hlen := sd.valid.len
  rw [hns, lens_append, lens_cons] at hlen
  have h2 : pos ≤ s'.base.len := by omega
  obtain ⟨pre', n', post', d, hat, hnum, e, pu⟩ :=
    basePos_upTo sd.valid sd.owned.nodes.nodup c.posUpTo h1 h2
  have pk := posOk_basePos sd.valid sd.owned.nodes.nodup c.posOk h1 h2 true
  rw [e] at pk
  have hone := sd.valid.pos n (by rw [hns]; simp)
  have hat' : At s'.base pos ⟨pre.length, n.len, pre.length + 1⟩ pre n ns :=
    ⟨hns, rfl, by dsimp only; omega, hone, Nat.le_refl _⟩
  obtain ⟨rfl, hidx, hpos⟩ := hat'.unique hat
  refine ⟨d, ?_, pu, pk⟩
  have hfound : (basePos s'.base pos true).1 = ⟨pre'.length, n.len, pre'.length + 1⟩ := by
    generalize (basePos s'.base pos true).1 = f at hidx hpos hnum
    cases f
    simp only at hidx hpos hnum
    rw [hidx, hpos, hnum]
  have hu : basePos { s'.base with nodeUsed := u } pos true =
      ((basePos s'.base pos true).1, { (basePos s'.base pos true).2 with nodeUsed := u }) :=
    basePos_nodeUsed s'.base u pos
  rw [hu, hfound, e]

/-- The node in front of the place is `end` when nothing stands behind it. -/
theorem Cut.isEnd (c : Cut E P s pos P' s' (pre ++ [n]) ns m) :
    some n.id = s'.base.endNode ↔ ns = [] := by
  have sd := c.sound
  have hns : s'.base.nodes = pre ++ n :: ns := c.nodes.trans (List.append_cons _ _ _).symm
  constructor
  · intro e
    cases hn : ns with
    | nil => rfl
    | cons x xs => exact absurd e (sd.valid.notLast sd.owned.nodes.nodup (hn ▸ hns))
  · rintro rfl
    exact (sd.valid.last sd.owned.nodes.nodup hns).1.symm

/-- An `end` that is taken away is put back. -/
theorem Cut.endBack (c : Cut E P s pos P' s' (pre ++ [n]) ns m) :
    (if (if decide (some n.id = s'.base.endNode) = true then none else s'.base.endNode) = none
      then some n.id else
        if decide (some n.id = s'.base.endNode) = true then none else s'.base.endNode) =
      s'.base.endNode := by
  by_cases he : some n.id = s'.base.endNode
  · rw [decide_eq_true he, if_pos rfl, if_pos rfl, he]
  · have hne : s'.base.endNode ≠ none := by
      rw [c.sound.valid.endNode, c.nodes]
      simp
    rw [decide_eq_false he, if_neg Bool.false_ne_true, if_neg hne]

theorem Cut.endKept (c : Cut E P s pos P' s' (pre ++ [n]) ns m) (hne : ns ≠ []) :
    (if decide (some n.id = s'.base.endNode) = true then none else s'.base.endNode) =
      s'.base.endNode := if_neg (by simpa using fun e => hne (c.isEnd.mp e))

/-- The base once the node in front of the place is seen to; `scan` is that node, `q` says that
it was full. -/
structure Begun (s : St) (h : Heap) (pos : Nat) (vec : IovecData) (a a' ns : List Node)
    (u : NodeType → Bool) (q : Prop) (b : Base) (vec' : IovecData) (scan : Option Nat) : Prop where
  /-- The nodes in front, and an `end` that may be taken away. -/
  base : ∃ d e, b.noVec = { s.base with
      nodeUsed := u, posData := d, nodes := a' ++ ns, endNode := e }.noVec ∧
    (if e = none then scan else e) = s.base.endNode ∧ (ns ≠ [] → e = s.base.endNode) ∧
      PosUpTo True (pos + s.base.used) { s.base with posData := d } ∧
        PosOk False { s.base with posData := d }
  /-- The vectors. -/
  iovecs : b.vec = some vec'
  /-- Where they are. -/
  arrays : vec'.off = vec.off ∧ vec'.sz = vec.sz
  /-- Those handed out for spare nodes. -/
  behind : ∀ k, vec'.v (vec.off + a.length + k) = vec.v (vec.off + a.length + k) ∧
    vec'.t (vec.off + a.length + k) = vec.t (vec.off + a.length + k)
  /-- Those in front. -/
  front : ns = [] ∨ q → Shows h vec' vec'.off s.base.used a'
  /-- Vectors that are up to date end there. -/
  last : b.iovecUptoDate = true → ns = []

/-- Nothing stands in front of the place, or a full node. -/
theorem OffersSpare.begun (c : Cut E P s pos P' s' a ns m) (hv : s'.base.vec = some vec)
    (os : OffersSpare s' vec a ns m r) (hrefs : h.refs = s'.heap.refs)
    (hconfs : (h.confs s'.base.conf).bufSz = s'.conf.bufSz) (u : NodeType → Bool) (bytes : Nat) :
    ∃ b scan, iovecBufFirst ⟨h, { s'.base with nodeUsed := u }⟩ pos bytes vec.off =
        ((bytes, a.length, vec.off + a.length, scan), ⟨h, b⟩) ∧
      Begun s' h pos vec a a ns u True b vec scan := by
  have sd := c.sound
  have hsh : Shows h vec vec.off s'.base.used a := os.shows.heap fun _ _ r _ => by rw [hrefs]
  unfold iovecBufFirst
  by_cases h0 : pos = 0
  · rw [if_neg (by simpa using h0)]
    obtain rfl := c.front.mp h0
    refine ⟨_, none, rfl, ⟨s'.base.posData, s'.base.endNode, ?_, ?_, fun _ => rfl, c.posUpTo,
      c.posOk⟩, hv, ⟨rfl, rfl⟩, fun _ => ⟨rfl, rfl⟩, fun _ => hsh, os.last⟩
    · rw [← c.nodes]
    · split
      · rename_i he
        exact he.symm
      · rfl
  · rw [if_pos h0]
    obtain ⟨pre, n, rfl⟩ : ∃ pre n, a = pre ++ [n] := by
      rcases List.eq_nil_or_concat a with rfl | ⟨pre, n, rfl⟩
      · exact absurd (c.front.mpr rfl) h0
      · exact ⟨pre, n, List.concat_eq_append⟩
    have hns : s'.base.nodes = pre ++ n :: ns := c.nodes.trans (List.append_cons _ _ _).symm
    obtain ⟨d, e, pu, pk⟩ := c.find u
    have hnode : Base.node { s'.base with nodeUsed := u, posData := d } pre.length = n :=
      node_of_eq hns
    have hfull := os.full pre n rfl
    unfold St.pos
    dsimp only
    rw [e]
    dsimp only
    rw [hnode]
    have hconf : St.conf ⟨h, { s'.base with nodeUsed := u, posData := d }⟩ =
        h.confs s'.base.conf := rfl
    rw [hconf, hconfs, if_neg hfull]
    have hlen : (pre ++ [n]).length = pre.length + 1 := by simp
    refine ⟨{ s'.base with
      nodeUsed := u
      posData := d
      endNode := if decide (some n.id = s'.base.endNode) = true then none else s'.base.endNode },
      some n.id, by rewrite [hlen]; exact rfl, ⟨d, _, ?_, c.endBack, c.endKept, pu, pk⟩,
      hv, ⟨rfl, rfl⟩, fun _ => ⟨rfl, rfl⟩, fun _ => hsh, os.last⟩
    rw [← c.nodes]

/-- The last node takes bytes, and its vector is stored again. -/
theorem shows_resetLast {used : Nat} {n' : Node} (hsh : Shows h vec vec.off used pre) :
    Shows h (vec.set (vec.off + pre.length) (nodeIovec h (firstUsed used pre) n') n'.type) vec.off
      used (pre ++ [n']) := by
  rw [shows_append]
  refine ⟨hsh.move (fun i hi => ⟨?_, ?_⟩) fun _ _ _ _ => rfl, ⟨?_, ?_⟩, trivial⟩
  · exact Function.update_of_ne (by omega) _ _
  · exact Function.update_of_ne (by omega) _ _
  · exact Function.update_self _ _ _
  · exact Function.update_self _ _ _

theorem resetNode_vec {n' : Node} (hv : b.vec = some vec) (hup : b.iovecUptoDate = true) :
    (cacheIovecResetNode h b n' (pre.length + 1)).vec =
      some (vec.set (vec.off + pre.length) (nodeIovec h (firstUsed b.used pre) n') n'.type) := by
  have hu : (if pre.length + 1 = 1 then b.used else 0) = firstUsed b.used pre := by
    unfold firstUsed
    cases pre with
    | nil => rfl
    | cons x xs => rw [if_neg (by simp), if_neg (by simp)]
  unfold cacheIovecResetNode Base.mapVec
  rw [if_pos hup]
  dsimp only
  rw [hv, hu, Nat.add_sub_cancel]
  rfl

/-- The node in front of the place has room. -/
theorem OffersTail.begun (c : Cut E P s pos P' s' (pre ++ [n]) ns m)
    (hv : s'.base.vec = some vec) (ot : OffersTail s' vec pre n m r)
    (hrefs : h.refs = s'.heap.refs) (hconfs : (h.confs s'.base.conf).bufSz = s'.conf.bufSz)
    (u : NodeType → Bool) (bytes : Nat) :
    ∃ b vec', iovecBufFirst ⟨h, { s'.base with nodeUsed := u }⟩ pos bytes vec.off =
        ((bytes - min (s'.conf.bufSz - n.len) bytes, (pre ++ [n]).length,
          vec.off + (pre ++ [n]).length, some n.id), ⟨h, b⟩) ∧
      Begun s' h pos vec (pre ++ [n])
        (pre ++ [{ n with len := n.len + min (s'.conf.bufSz - n.len) bytes }]) ns u False b vec'
        (some n.id) := by
  have sd := c.sound
  have hsh : Shows h vec vec.off s'.base.used pre := ot.shows.heap fun _ _ r _ => by rw [hrefs]
  have hns : s'.base.nodes = pre ++ n :: ns := c.nodes.trans (List.append_cons _ _ _).symm
  have h0 : pos ≠ 0 := fun h0 => by simpa using c.front.mp h0
  obtain ⟨d, e, pu, pk⟩ := c.find u
  have hnode : Base.node { s'.base with nodeUsed := u, posData := d } pre.length = n :=
    node_of_eq hns
  have hconf : St.conf ⟨h, { s'.base with nodeUsed := u, posData := d }⟩ =
      h.confs s'.base.conf := rfl
  have hlen : (pre ++ [n]).length = pre.length + 1 := by simp
  have htail : (vec.v (vec.off + (pre.length + 1 - 1))).len = s'.conf.bufSz - n.len := by
    rw [Nat.add_sub_cancel, ot.tail]
  unfold iovecBufFirst
  rw [if_pos h0]
  unfold St.pos
  dsimp only
  rw [e]
  dsimp only
  rw [hnode, hconf, hconfs, if_pos ⟨ot.buf, ot.lt⟩, hv]
  dsimp only
  rw [htail, hns, set_of_eq, ot.stale, Bool.or_false]
  have hbase : ∀ {b : Base} {x : Bool},
      b = cacheIovecResetNode h { s'.base with
        nodeUsed := u
        posData := d
        nodes := pre ++ { n with len := n.len + min (s'.conf.bufSz - n.len) bytes } :: ns
        endNode := if decide (some n.id = s'.base.endNode) = true then none else s'.base.endNode
        iovecUptoDate := x
        vec := some vec } { n with len := n.len + min (s'.conf.bufSz - n.len) bytes }
          (pre.length + 1) →
      ∃ d e, b.noVec = { s'.base with
        nodeUsed := u, posData := d
        nodes := pre ++ [{ n with len := n.len + min (s'.conf.bufSz - n.len) bytes }] ++ ns
        endNode := e }.noVec ∧
      (if e = none then some n.id else e) = s'.base.endNode ∧
        (ns ≠ [] → e = s'.base.endNode) ∧ PosUpTo True (pos + s'.base.used)
          { s'.base with posData := d } ∧ PosOk False { s'.base with posData := d } := by
    rintro b x rfl
    refine ⟨d, _, ?_, c.endBack, c.endKept, pu, pk⟩
    rw [noVec_cacheIovecResetNode, ← List.append_cons]
    rfl
  by_cases hnil : ns = []
  · refine ⟨_, _, by rewrite [hlen]; exact rfl, hbase rfl, resetNode_vec rfl ?_, ⟨rfl, rfl⟩,
      fun k => ⟨Function.update_of_ne ?_ _ _, Function.update_of_ne ?_ _ _⟩, fun _ => ?_,
      fun _ => hnil⟩
    · exact decide_eq_true (c.isEnd.mpr hnil)
    · rw [hlen]
      omega
    · rw [hlen]
      omega
    · exact shows_resetLast hsh
  · have hd : decide (some n.id = s'.base.endNode) = false :=
      decide_eq_false fun e => hnil (c.isEnd.mp e)
    refine ⟨_, vec, by rewrite [hlen]; exact rfl, hbase rfl, ?_, ⟨rfl, rfl⟩, fun _ => ⟨rfl, rfl⟩,
      fun hf => absurd hf (by simp [hnil]), fun hup => ?_⟩
    · unfold cacheIovecResetNode
      dsimp only
      rw [hd, if_neg Bool.false_ne_true]
    · unfold cacheIovecResetNode at hup
      dsimp only at hup
      rw [hd, if_neg Bool.false_ne_true] at hup
      cases hup

/-- The vectors of the new nodes are right once the last one is made shorter. -/
theorem shows_iovecBufNodes {vec' : IovecData} (ids : List Nat) {i left : Nat}
    (ho : Offers vec' bufSz i m ids) (hm : m ≤ ids.length)
    (hv : ∀ k < m, (vec.v (i + k)).len = bufSz) (h1 : 0 < left) (hle : left ≤ m * bufSz) :
    Shows h (vec'.setIov (i + ((iovecBufNodes vec ids i left).length - 1))
      { vec'.v (i + ((iovecBufNodes vec ids i left).length - 1)) with
        len := ((iovecBufNodes vec ids i left).getLast?.map Node.len).getD 0 }) i 0
      (iovecBufNodes vec ids i left) := by
  induction ids generalizing i left m with
  | nil =>
    obtain rfl : m = 0 := Nat.le_zero.mp hm
    omega
  | cons id ids ih =>
    obtain ⟨m, rfl⟩ : ∃ m', m = m' + 1 := Nat.exists_eq_succ_of_ne_zero (by rintro rfl; omega)
    obtain ⟨hiov, hty⟩ := ho 0 (Nat.succ_pos m) id rfl
    rw [Nat.add_zero] at hiov hty
    rw [iovecBufNodes, show (vec.v i).len = bufSz from hv 0 (Nat.succ_pos m)]
    split
    · rename_i h0
      refine ⟨⟨?_, hty⟩, trivial⟩
      rw [List.length_singleton, Nat.sub_self, Nat.add_zero]
      refine (Function.update_self _ _ _).trans ?_
      rw [hiov]
      rfl
    · rename_i h0
      have hgt : bufSz < left := by omega
      rw [Nat.min_eq_left (Nat.le_of_lt hgt)]
      have hv' : ∀ k < m, (vec.v (i + 1 + k)).len = bufSz := fun k hk => by
        rw [show i + 1 + k = i + (k + 1) by omega]
        exact hv (k + 1) (Nat.succ_lt_succ hk)
      have ho' : Offers vec' bufSz (i + 1) m ids := fun k hk id' hid' => by
        rw [show i + 1 + k = i + (k + 1) by omega]
        exact ho (k + 1) (Nat.succ_lt_succ hk) id' hid'
      have hle' : left - bufSz ≤ m * bufSz := by
        rw [Nat.succ_mul] at hle
        omega
      have hrest := ih ho' (Nat.le_of_succ_le_succ hm) hv' (by omega) hle'
      have hpos : iovecBufNodes vec ids (i + 1) (left - bufSz) ≠ [] := by
        cases ids with
        | nil =>
          obtain rfl : m = 0 := Nat.le_zero.mp (Nat.le_of_succ_le_succ hm)
          omega
        | cons id' ids' =>
          rw [iovecBufNodes]
          split
          · simp
          · simp
      generalize iovecBufNodes vec ids (i + 1) (left - bufSz) = new at hrest hpos ⊢
      have hl := List.length_pos_iff.mpr hpos
      have hlast : i + ((⟨id, bufSz, .buf⟩ :: new : List Node).length - 1) =
          i + 1 + (new.length - 1) := by
        rw [List.length_cons]
        omega
      rw [hlast, List.getLast?_cons_of_ne_nil hpos]
      refine ⟨⟨?_, hty⟩, hrest⟩
      refine (Function.update_of_ne (by omega) _ _).trans ?_
      rw [hiov]
      rfl

/-- `vstr_add_iovec_buf_end`, once the node in front of the place is seen to. -/
def iovecBufRest (s : St) (pos bytes left idx start : Nat) (scan : Option Nat) : St :=
  let s := { s with base := { s.base with len := s.base.len + bytes } }
  let s := if left = 0 then iovecBufNone s idx start scan else iovecBufLink s idx start left
  if bytes ≠ 0 then { s with base := cacheAdd s.base pos bytes } else s

/-- The flags of the base in the second call. -/
def endFlags (b : Base) (bytes : Nat) : NodeType → Bool :=
  if bytes ≠ 0 then Function.update b.nodeUsed .buf true else b.nodeUsed

theorem addIovecBufEnd_eq {left idx start : Nat} {scan : Option Nat} {b' : Base}
    (hv : b.vec = some vec)
    (e : iovecBufFirst ⟨h, { b with nodeUsed := endFlags b bytes }⟩ pos bytes vec.off =
      ((left, idx, start, scan), ⟨h, b'⟩)) :
    addIovecBufEnd ⟨h, b⟩ pos bytes = iovecBufRest ⟨h, b'⟩ pos bytes left idx start scan := by
  have hu : (if bytes ≠ 0 then { b with nodeUsed := Function.update b.nodeUsed .buf true } else b) =
      { b with nodeUsed := endFlags b bytes } := by
    unfold endFlags
    split
    · rfl
    · rfl
  unfold addIovecBufEnd iovecBufRest
  split
  · rename_i hv'
    rw [hv] at hv'
    cases hv'
  · rename_i vec' hv'
    obtain rfl := Option.some_inj.mp (hv.symm.trans hv')
    dsimp only
    rw [hu, e]

/-- No spare node is needed. -/
theorem iovecBufNone_spec (h : Heap) (b : Base) (idx start : Nat) (scan : Option Nat) :
    (iovecBufNone ⟨h, b⟩ idx start scan).heap = h ∧
      (iovecBufNone ⟨h, b⟩ idx start scan).base.noVec =
        { b with endNode := if b.endNode = none then scan else b.endNode }.noVec ∧
      (iovecBufNone ⟨h, b⟩ idx start scan).base.iovecUptoDate = b.iovecUptoDate ∧
      (b.iovecUptoDate = true → (iovecBufNone ⟨h, b⟩ idx start scan).base.vec = b.vec) ∧
      ∀ vec, (iovecBufNone ⟨h, b⟩ idx start scan).base.vec = some vec →
        ∃ vec', b.vec = some vec' ∧ vec.off = vec'.off ∧ vec.sz = vec'.sz := by
  unfold iovecBufNone Base.mapVec
  dsimp only
  split
  · rename_i hup
    refine ⟨rfl, rfl, rfl, fun hup' => absurd hup' hup.1, fun vec hv => ?_⟩
    obtain ⟨vec', hv', rfl⟩ := Option.map_eq_some_iff.mp hv
    refine ⟨vec', hv', ?_⟩
    split
    · exact ⟨rfl, rfl⟩
    · rename_i n ns _
      obtain ⟨ho, hz, -⟩ := setNodes_rest h (vec'.set start _ n.type) (start + 1) ns
      exact ⟨ho, hz⟩
  · exact ⟨rfl, rfl, rfl, fun _ => rfl, fun vec hv => ⟨vec, hv, rfl, rfl⟩⟩

/-- Spare nodes are linked. -/
theorem iovecBufLink_spec (h : Heap) (b : Base) {a' new : List Node} (start left : Nat)
    (hv : b.vec = some vec) (hns : b.nodes = a' ++ ns)
    (hnew : iovecBufNodes vec ((h.confs b.conf).spare .buf) start left = new) :
    iovecBufLink ⟨h, b⟩ a'.length start left =
      ⟨h.dropSpare b.conf .buf new.length, { b with
        nodes := a' ++ new ++ ns
        endNode := if ns = [] then new.getLast?.map Node.id else b.endNode
        num := b.num + new.length
        vec := some (if b.iovecUptoDate then vec.setIov (start + (new.length - 1))
            { vec.v (start + (new.length - 1)) with len := (new.getLast?.map Node.len).getD 0 }
          else (vec.setIov (start + (new.length - 1)) { vec.v (start + (new.length - 1)) with
            len := (new.getLast?.map Node.len).getD 0 }).setNodes h (start + new.length) ns)
        iovecUptoDate := true }⟩ := by
  subst hnew
  unfold iovecBufLink
  dsimp only
  rw [hv]
  dsimp only
  rw [hns, List.take_left' rfl, List.drop_left' rfl]
  rfl

section Finish

variable {u : NodeType → Bool} {q : Prop} {vec' : IovecData} {scan : Option Nat} {h₁ : Heap}

/-- The position cache once the callbacks were told. -/
theorem Begun.posOk {b' : Base} (new : List Node) {d : PosData}
    (g : Grew E P' s' pos a ns h₁ a' xs) (c : Cut E P s pos P' s' a ns m)
    (pu : PosUpTo True (pos + s'.base.used) { s'.base with posData := d })
    (hp : b'.posData = d) (hu : b'.used = s'.base.used)
    (hc : b'.cacheAvailable = s'.base.cacheAvailable) (hns : b'.nodes = a' ++ new ++ ns) :
    PosOk True (cacheAdd b' pos bytes) := by
  apply PosUpTo.cacheAdd
  rw [hu]
  refine pu.edit hp hu hc ?_
  rw [hns]
  exact c.nodes ▸ g.keeps new

/-- The second call is over: `sh` says that the vectors are right. -/
structure Done (E : Env) (P : Own) (s : St) (pos : Nat) (xs : List UInt8) (sh : Prop) (P' : Own)
    (t : St) : Prop where
  /-- The bytes stand behind the place. -/
  took : Took E P s pos xs P' t
  /-- The position cache names a node and where it starts. -/
  startOk : PosOk False t.base
  /-- It is right when something was inserted. -/
  posOk : xs ≠ [] → PosOk True t.base
  /-- So are the vectors. -/
  shown : sh → t.Shown s.conf.iovMinOffset

/-- The callbacks are told of what was inserted. -/
theorem Done.told {sh : Prop} {P'' : Own} {t : St}
    (ht : ∀ b, b.core = t.base.core → Took E P s pos xs P'' ⟨t.heap, b⟩)
    (hok : PosOk True (cacheAdd t.base pos xs.length)) (h0 : xs = [] → PosOk False t.base)
    (hs : sh → t.Shown s.conf.iovMinOffset) :
    Done E P s pos xs sh P'' (if xs.length ≠ 0 then
      { t with base := cacheAdd t.base pos xs.length } else t) := by
  split
  · exact ⟨ht _ (core_cacheAdd _ _ _), hok.weaken, fun _ => hok, fun h => (hs h).cacheAdd _ _⟩
  · rename_i hl
    have hnil : xs = [] := List.length_eq_zero_iff.mp (by simpa using hl)
    exact ⟨ht _ rfl, h0 hnil, fun hne => absurd hnil hne, hs⟩

/-- Nothing goes into spare nodes. -/
theorem Begun.took (bg : Begun s' (h₁.writeSpare bufSz ids w) pos vec a a' ns u q b vec' scan)
    (g : Grew E P' s' pos a ns h₁ a' xs) (c : Cut E P s pos P' s' a ns m)
    (hids : ∀ id ∈ ids, id ∈ s'.conf.spare .buf) (hu : u = s'.base.nodeUsed)
    (hsize : vec.off + (a.length + ns.length + m) ≤ vec.sz)
    (hmin : s'.conf.iovMinOffset ≤ vec.sz) (start : Nat) :
    Done E P' s' pos xs True P' (iovecBufRest ⟨h₁.writeSpare bufSz ids w, b⟩ pos xs.length 0
      a.length start scan) := by
  obtain ⟨d, e, hb, hscan, -, pu, pk⟩ := bg.base
  obtain ⟨hheap, hno, hflag, hvec, hroom⟩ := iovecBufNone_spec (h₁.writeSpare bufSz ids w)
    { b with len := b.len + xs.length } a.length start scan
  have hno' : (iovecBufNone ⟨h₁.writeSpare bufSz ids w, { b with len := b.len + xs.length }⟩
      a.length start scan).base.noVec = { s'.base with
        nodeUsed := u, posData := d, nodes := a' ++ ns, len := s'.base.len + xs.length }.noVec := by
    have hstep : { b with
        len := b.len + xs.length
        endNode := if b.endNode = none then scan else b.endNode }.noVec = { b.noVec with
          len := b.noVec.len + xs.length
          endNode := if b.noVec.endNode = none then scan else b.noVec.endNode }.noVec := rfl
    rw [hno]
    refine hstep.trans ?_
    rw [hb]
    unfold Base.noVec
    dsimp only
    rw [hscan]
  unfold iovecBufRest
  dsimp only
  rw [if_pos rfl]
  generalize iovecBufNone ⟨h₁.writeSpare bufSz ids w, { b with len := b.len + xs.length }⟩
    a.length start scan = t at hheap hno' hflag hvec hroom ⊢
  obtain ⟨h, b₁⟩ := t
  dsimp only at hheap hno' hflag hvec hroom
  subst hheap
  have hns : b₁.nodes = a' ++ ns := (congrArg Base.nodes hno' :)
  have hused : b₁.used = s'.base.used := (congrArg Base.used hno' :)
  apply Done.told
  · intro b₂ hb₂
    apply g.took c hids w
    rw [hb₂, core_of_noVec hno', hu]
    rfl
  · exact Begun.posOk [] g c pu (congrArg Base.posData hno' :) hused
      (congrArg Base.cacheAvailable hno' :) (by rw [hns, List.append_nil])
  · intro hnil
    refine pk.congr (congrArg Base.posData hno' :) ?_ hused (congrArg Base.cacheAvailable hno' :)
    rw [hns, g.same hnil]
    exact c.nodes.symm
  · refine fun _ => ⟨fun v hv => ?_, fun hup => ?_⟩
    · obtain ⟨v', hv', ho, hz⟩ := hroom v hv
      obtain rfl := Option.some_inj.mp (bg.iovecs.symm.trans hv')
      rw [ho, hz, bg.arrays.1, bg.arrays.2]
      exact ⟨hmin, by omega⟩
    · rw [hflag] at hup
      have hnil := bg.last hup
      refine ⟨vec', (hvec hup).trans bg.iovecs, ?_, ?_⟩
      · dsimp only
        rw [hns, hnil, List.append_nil, g.length, bg.arrays.1, bg.arrays.2]
        omega
      · dsimp only
        rw [hns, hnil, List.append_nil, hused]
        exact bg.front (.inl hnil)

/-- Nodes in front and new nodes behind them. -/
theorem shows_link {vec'' : IovecData} {new : List Node} {used : Nat}
    (hfront : Shows h vec' vec'.off used a')
    (hnew : Shows h vec'' (vec'.off + a'.length) 0 new) (hu : a' = [] → used = 0)
    (hsame : ∀ j < vec'.off + a'.length, vec''.v j = vec'.v j ∧ vec''.t j = vec'.t j) :
    Shows h vec'' vec'.off used (a' ++ new) := by
  rw [shows_append]
  refine ⟨hfront.move (fun k hk => hsame _ (by omega)) fun _ _ _ _ => rfl, ?_⟩
  have : firstUsed used a' = 0 := by
    unfold firstUsed
    split
    · rename_i hnil
      exact hu hnil
    · rfl
  rw [this]
  exact hnew

/-- New nodes are shown, and those behind them again if they were not. -/
theorem shows_relink {V : IovecData} {ms : List Node} {used : Nat} {up : Bool}
    (hsh : Shows h V V.off used ms) (hne : ms ≠ []) (hup : up = true → ns = []) :
    ∃ V', (if up then V else V.setNodes h (V.off + ms.length) ns) = V' ∧ V'.off = V.off ∧
      V'.sz = V.sz ∧ Shows h V' V'.off used (ms ++ ns) := by
  split
  · rename_i hyes
    rw [hup hyes, List.append_nil]
    exact ⟨V, rfl, rfl, rfl, hsh⟩
  · obtain ⟨ho, hz, hj⟩ := setNodes_rest h V (V.off + ms.length) ns
    refine ⟨_, rfl, ho, hz, ?_⟩
    rw [ho, shows_append]
    refine ⟨hsh.move (fun k hk => hj _ (by omega)) fun _ _ _ _ => rfl, ?_⟩
    rw [show firstUsed used ms = 0 from if_neg hne]
    exact shows_setNodes _ _ _ _

/-- The vectors handed out for spare nodes are still there. -/
theorem Begun.offers (bg : Begun s' h pos vec a a' ns u q b vec' scan)
    (ho : Offers vec bufSz (vec.off + a.length) m ids) :
    Offers vec' bufSz (vec.off + a.length) m ids := by
  intro k hk id hid
  obtain ⟨hv, ht⟩ := bg.behind k
  obtain ⟨hv', ht'⟩ := ho k hk id hid
  exact ⟨hv.trans hv', ht.trans ht'⟩

/-- The vectors once nodes are linked behind the place. -/
theorem Begun.shows {new : List Node} {iov : Iovec}
    (bg : Begun s' h pos vec a a' ns u q b vec' scan) (hfree : ns = [] ∨ q)
    (hlen : a'.length = a.length) (hused : a' = [] → s'.base.used = 0) (hne : new ≠ [])
    (hnew : Shows h (vec'.setIov (vec.off + a.length + (new.length - 1)) iov)
      (vec.off + a.length) 0 new) :
    ∃ V, (if b.iovecUptoDate then vec'.setIov (vec.off + a.length + (new.length - 1)) iov
        else (vec'.setIov (vec.off + a.length + (new.length - 1)) iov).setNodes h
          (vec.off + a.length + new.length) ns) = V ∧ V.off = vec.off ∧ V.sz = vec.sz ∧
      Shows h V V.off s'.base.used (a' ++ new ++ ns) := by
  obtain ⟨hoff, hsz⟩ := bg.arrays
  have hlink : Shows h (vec'.setIov (vec.off + a.length + (new.length - 1)) iov) vec'.off
      s'.base.used (a' ++ new) := by
    refine shows_link (bg.front hfree) ?_ hused fun j hj => ?_
    · rw [hoff, hlen]
      exact hnew
    · rw [hoff, hlen] at hj
      exact ⟨Function.update_of_ne (by omega) _ _, rfl⟩
  have hlast : vec.off + a.length + new.length =
      (vec'.setIov (vec.off + a.length + (new.length - 1)) iov).off + (a' ++ new).length := by
    rw [List.length_append, hlen, ← Nat.add_assoc]
    exact congrArg (· + a.length + new.length) hoff.symm
  obtain ⟨V, e, ho, hz, hsh⟩ := shows_relink hlink
    (fun hnil => hne (List.append_eq_nil_iff.mp hnil).2) bg.last
  rw [hlast]
  exact ⟨V, e, ho.trans hoff, hz.trans hsz, hsh⟩

/-- The base once nodes are linked behind the place, caches apart. -/
theorem core_linked {d : PosData} {e : Option Nat} {new : List Node} {left : Nat}
    (hb : b.noVec = { s'.base with
      nodeUsed := Function.update s'.base.nodeUsed .buf true
      posData := d
      nodes := a' ++ ns
      endNode := e }.noVec)
    (hkept : ns ≠ [] → e = s'.base.endNode) (hbytes : bytes = xs.length + left) (a₀ : Addr)
    (v : Option IovecData) (up : Bool) :
    { b with
      len := b.len + bytes
      nodes := a' ++ new ++ ns
      endNode := if ns = [] then new.getLast?.map Node.id else b.endNode
      num := b.num + new.length
      vec := v
      iovecUptoDate := up }.core =
    (linkBase { s'.base with nodes := a' ++ ns, len := s'.base.len + xs.length } (.buf a₀) left a'
      new ns).core := by
  have hstep : { b with
      len := b.len + bytes
      nodes := a' ++ new ++ ns
      endNode := if ns = [] then new.getLast?.map Node.id else b.endNode
      num := b.num + new.length
      vec := v
      iovecUptoDate := up }.core = { b.noVec with
        len := b.noVec.len + bytes
        nodes := a' ++ new ++ ns
        endNode := if ns = [] then new.getLast?.map Node.id else b.noVec.endNode
        num := b.noVec.num + new.length }.core := rfl
  have hend : (if ns = [] then new.getLast?.map Node.id else e) =
      if ns = [] then new.getLast?.map Node.id else s'.base.endNode := by
    split
    · rfl
    · rename_i hne
      exact hkept hne
  rw [hstep, hb, hbytes]
  unfold Base.noVec Base.core linkBase
  dsimp only
  rw [hend, Nat.add_assoc]
  rfl

/-- What is left goes into spare nodes. -/
theorem Begun.linked {left : Nat}
    (bg : Begun s' (h₁.writeSpare s'.conf.bufSz ((s'.conf.spare .buf).take m) w) pos vec a a' ns u
      q b vec' scan)
    (g : Grew E P' s' pos a ns h₁ a' xs) (c : Cut E P s pos P' s' a ns m)
    (ho : Offers vec s'.conf.bufSz (vec.off + a.length) m (s'.conf.spare .buf))
    (hu : u = Function.update s'.base.nodeUsed .buf true)
    (hsize : vec.off + (a.length + ns.length + m) ≤ vec.sz)
    (hmin : s'.conf.iovMinOffset ≤ vec.sz) (h1 : 0 < left) (hle : left ≤ m * s'.conf.bufSz)
    (hw : left ≤ w.length) (hbytes : bytes = xs.length + left) :
    ∃ P'', Done E P' s' pos (xs ++ w.take left) (ns = [] ∨ q) P''
      (iovecBufRest ⟨h₁.writeSpare s'.conf.bufSz ((s'.conf.spare .buf).take m) w, b⟩ pos bytes
        left a.length (vec.off + a.length) scan) := by
  obtain ⟨d, e, hb, -, hkept, pu, pk⟩ := bg.base
  have hids := c.spares
  have ho' := bg.offers ho
  have hlens := ho'.lens hids
  have hbns : b.nodes = a' ++ ns := (congrArg Base.nodes hb :)
  have hbconf : b.conf = s'.base.conf := (congrArg Base.conf hb :)
  have hused : b.used = s'.base.used := (congrArg Base.used hb :)
  obtain ⟨mem, hh⟩ := g.heap
  have hspare : ((h₁.writeSpare s'.conf.bufSz ((s'.conf.spare .buf).take m) w).confs
      b.conf).spare .buf = s'.conf.spare .buf := by
    rw [hbconf, hh]
    rfl
  have hlink := iovecBufLink_spec (h₁.writeSpare s'.conf.bufSz ((s'.conf.spare .buf).take m) w)
    { b with len := b.len + bytes } (vec.off + a.length) left bg.iovecs hbns rfl
  dsimp only at hlink
  rw [hspare, g.length] at hlink
  obtain ⟨hc, hlen⟩ := iovecBufNodes_spec c.sound.bufSz_pos ⟨.node 0, 0⟩ (s'.conf.spare .buf) hids
    hlens h1 hle
  have hlinked := fun b' hb' => g.linked (b := b') c ⟨.node 0, 0⟩ hlens h1 hle hw hb'
  have hshows := shows_iovecBufNodes (h := h₁.writeSpare s'.conf.bufSz
    ((s'.conf.spare .buf).take m) w) (s'.conf.spare .buf) ho' hids hlens h1 hle
  generalize iovecBufNodes vec' (s'.conf.spare .buf) (vec.off + a.length) left = new
    at hlink hc hlen hlinked hshows
  have htotal : bytes = (xs ++ w.take left).length := by
    rw [hbytes, List.length_append, List.length_take, Nat.min_eq_left hw]
  refine ⟨P'.give (new.map Node.id) (.base E.me), ?_⟩
  unfold iovecBufRest
  dsimp only
  rw [if_neg (Nat.ne_of_gt h1), hlink, htotal]
  apply Done.told
  · intro b₂ hb₂
    dsimp only
    rw [hbconf]
    apply hlinked
    rw [hb₂, ← htotal]
    exact core_linked (hu ▸ hb) hkept hbytes _ _ _
  · refine Begun.posOk new g c pu (congrArg Base.posData hb :) hused
      (congrArg Base.cacheAvailable hb :) rfl
  · intro hnil
    rw [hnil, List.length_nil] at htotal
    omega
  · intro hfree
    obtain ⟨V, hV, hoff, hsz, hsh⟩ :=
      bg.shows hfree g.length (g.used_eq_zero c) hc.ne_nil hshows
    rw [hV]
    refine ⟨fun v hv => ?_, fun _ => ⟨V, rfl, ?_, ?_⟩⟩
    · obtain rfl := Option.some_inj.mp hv
      rw [hoff, hsz]
      exact ⟨hmin, by omega⟩
    · dsimp only
      rw [hoff, hsz, List.length_append, List.length_append, g.length]
      omega
    · dsimp only
      rw [hused]
      exact hsh.heap fun _ _ _ _ => rfl

end Finish

/-! ## Both calls -/

/-- The caller wrote a byte string across the vectors that were handed out. -/
def St.written (s : St) (r : IovecBuf) (w : List UInt8) : St :=
  { s with heap := s.heap.setMem (writeIovecs s.heap.mem (r.iovs s.base) w) }

/-- The place is in front of other nodes, the first vector is the tail of the node in front of
it, and more is added than fits there. -/
def IovecBuf.Spills (r : IovecBuf) (s : St) (pos bytes : Nat) : Prop :=
  pos < s.base.len ∧
    ∃ iov, (r.iovs s.base).head? = some iov ∧ iov.len < s.conf.bufSz ∧ iov.len < bytes

/-- Spare nodes are all there is. -/
theorem OffersSpare.iovs (c : Cut E P s pos P' s' a ns m) (hv : s'.base.vec = some vec)
    (ho : Offers vec s'.conf.bufSz (vec.off + a.length) m (s'.conf.spare .buf))
    (os : OffersSpare s' vec a ns m r) :
    r.iovs s'.base = spareIovs s'.conf.bufSz ((s'.conf.spare .buf).take m) := by
  rw [IovecBuf.iovs, hv, os.result]
  exact ho.iovs c.spares

/-- The tail of the node in front comes first. -/
theorem OffersTail.iovs (c : Cut E P s pos P' s' (pre ++ [n]) ns m) (hv : s'.base.vec = some vec)
    (ho : Offers vec s'.conf.bufSz (vec.off + (pre ++ [n]).length) m (s'.conf.spare .buf))
    (ot : OffersTail s' vec pre n m r) :
    r.iovs s'.base = ⟨some ⟨.node n.id, n.len⟩, s'.conf.bufSz - n.len⟩ ::
      spareIovs s'.conf.bufSz ((s'.conf.spare .buf).take m) := by
  rw [IovecBuf.iovs, hv, ot.result]
  dsimp only
  rw [List.range_succ_eq_map, List.map_cons, List.map_map, Nat.add_zero, ot.tail,
    ← ho.iovs c.spares]
  congr 1
  apply List.map_congr_left
  intro k _
  rw [Function.comp_apply, List.length_append, List.length_singleton]
  congr 1
  omega

/-- The second call when spare nodes are all there is. -/
theorem OffersSpare.done (c : Cut E P s pos P' s' a ns m) (hv : s'.base.vec = some vec)
    (ho : Offers vec s'.conf.bufSz (vec.off + a.length) m (s'.conf.spare .buf))
    (os : OffersSpare s' vec a ns m r)
    (hsize : vec.off + (a.length + ns.length + m) ≤ vec.sz)
    (hmin : s'.conf.iovMinOffset ≤ vec.sz) (hb : bytes ≤ m * s'.conf.bufSz)
    (hw : bytes ≤ w.length) :
    ∃ P'', Done E P' s' pos (w.take bytes) True P''
      (addIovecBufEnd (s'.written r w) pos bytes) := by
  have hids : ∀ id ∈ (s'.conf.spare .buf).take m, id ∈ s'.conf.spare .buf :=
    fun id hid => List.mem_of_mem_take hid
  have hwr : s'.written r w =
      ⟨s'.heap.writeSpare s'.conf.bufSz ((s'.conf.spare .buf).take m) w, s'.base⟩ := by
    unfold St.written
    rw [os.iovs c hv ho]
    rfl
  rw [hwr]
  obtain ⟨b, scan, e, bg⟩ := os.begun (h := s'.heap.writeSpare s'.conf.bufSz
    ((s'.conf.spare .buf).take m) w) c hv rfl rfl (endFlags s'.base bytes) bytes
  rw [addIovecBufEnd_eq hv e]
  rcases Nat.eq_zero_or_pos bytes with rfl | h1
  · exact ⟨P', bg.took c.grewNot c hids rfl hsize hmin _⟩
  · obtain ⟨P'', d⟩ := bg.linked c.grewNot c ho (if_pos (Nat.ne_of_gt h1)) hsize hmin h1 hb hw
      (Nat.zero_add _).symm
    exact ⟨P'', d.took, d.startOk, d.posOk, fun _ => d.shown (.inr trivial)⟩

/-- The second call when the node in front has room. -/
theorem OffersTail.done (c : Cut E P s pos P' s' (pre ++ [n]) ns m)
    (hv : s'.base.vec = some vec)
    (ho : Offers vec s'.conf.bufSz (vec.off + (pre ++ [n]).length) m (s'.conf.spare .buf))
    (ot : OffersTail s' vec pre n m r)
    (hsize : vec.off + ((pre ++ [n]).length + ns.length + m) ≤ vec.sz)
    (hmin : s'.conf.iovMinOffset ≤ vec.sz)
    (hb : bytes ≤ s'.conf.bufSz - n.len + m * s'.conf.bufSz) (hw : bytes ≤ w.length) :
    ∃ P'', Done E P' s' pos (w.take bytes) (ns = [] ∨ bytes ≤ s'.conf.bufSz - n.len) P''
      (addIovecBufEnd (s'.written r w) pos bytes) := by
  have hids : ∀ id ∈ (s'.conf.spare .buf).take m, id ∈ s'.conf.spare .buf :=
    fun id hid => List.mem_of_mem_take hid
  have hlt := ot.lt
  generalize hroom : s'.conf.bufSz - n.len = room at hb ⊢
  have hwr : s'.written r w = ⟨(s'.heap.setMem (write s'.heap.mem ⟨.node n.id, n.len⟩
      (w.take room))).writeSpare s'.conf.bufSz ((s'.conf.spare .buf).take m) (w.drop room),
        s'.base⟩ := by
    unfold St.written
    rw [ot.iovs c hv ho, ← hroom]
    rfl
  rw [hwr]
  obtain ⟨b, vec', e, bg⟩ := ot.begun (h := (s'.heap.setMem (write s'.heap.mem
    ⟨.node n.id, n.len⟩ (w.take room))).writeSpare s'.conf.bufSz ((s'.conf.spare .buf).take m)
      (w.drop room)) c hv rfl rfl (endFlags s'.base bytes) bytes
  rw [addIovecBufEnd_eq hv e]
  rw [hroom] at bg ⊢
  have hx : (w.take (min room bytes)).length = min room bytes := by
    rw [List.length_take]
    omega
  have hgrew := c.grew ot.buf (w.take room) (w.take (min room bytes))
    ⟨min room bytes, by rw [List.take_take, Nat.min_eq_left (Nat.min_le_left room bytes)]⟩
    (by rw [hx]; omega)
  rw [hx] at hgrew
  by_cases hle : bytes ≤ room
  · rw [Nat.min_eq_right hle] at hx hgrew bg ⊢
    have hu : endFlags s'.base bytes = s'.base.nodeUsed := by
      have hflag := c.sound.valid.flags n (by rw [c.nodes]; simp)
      rw [ot.buf] at hflag
      unfold endFlags
      split
      · conv_rhs => rw [← Function.update_eq_self NodeType.buf s'.base.nodeUsed, hflag]
      · rfl
    have d := bg.took hgrew c hids hu hsize hmin (vec.off + (pre ++ [n]).length)
    rw [hx] at d
    rw [Nat.sub_self]
    exact ⟨P', d.took, d.startOk, d.posOk, fun _ => d.shown trivial⟩
  · have hgt : room < bytes := Nat.lt_of_not_le hle
    rw [Nat.min_eq_left (Nat.le_of_lt hgt)] at hx hgrew bg ⊢
    obtain ⟨P'', d⟩ := bg.linked hgrew c ho (if_pos (by omega)) hsize hmin
      (show 0 < bytes - room by omega) (by omega) (by rw [List.length_drop]; omega)
      (show bytes = _ by rw [hx]; omega)
    rw [← List.take_add, Nat.add_sub_cancel' (Nat.le_of_lt hgt)] at d
    exact ⟨P'', d.took, d.startOk, d.posOk, fun hsh => d.shown (.inl (hsh.resolve_right hle))⟩

theorem spareIovs_bytes (bufSz : Nat) (ids : List Nat) :
    ((spareIovs bufSz ids).map Iovec.len).sum = ids.length * bufSz := by
  induction ids with
  | nil => rw [spareIovs, List.map_nil, List.map_nil, List.sum_nil, List.length_nil, Nat.zero_mul]
  | cons id ids ih =>
    rw [spareIovs, List.map_cons, List.map_cons, List.sum_cons, List.length_cons, Nat.succ_mul]
    rw [spareIovs] at ih
    rw [ih, Nat.add_comm]

/-- What was handed out: buffers of different nodes in the arrays, with the length that was
returned. -/
structure Room (s : St) (r : IovecBuf) : Prop where
  /-- The vectors are in the arrays. -/
  size : ∃ vec, s.base.vec = some vec ∧ r.start + r.num ≤ vec.sz
  /-- No buffer is handed out twice. -/
  nodup : ((r.iovs s.base).map fun iov => iov.base.map Memory.Ptr.blk).Nodup
  /-- The length. -/
  bytes : ((r.iovs s.base).map Iovec.len).sum = r.bytes

theorem spareIovs_nodup {ids : List Nat} (hd : ids.Nodup) (bufSz : Nat) :
    ((spareIovs bufSz ids).map fun iov => iov.base.map Memory.Ptr.blk).Nodup := by
  rw [spareIovs, List.map_map]
  exact List.Pairwise.map _ (fun x y hne e => hne (by simpa using e)) hd

theorem Offered.room (of : Offered E P s pos P' s' vec a ns m r) : Room s' r := by
  have c := of.cut
  have hsp := c.spares
  have hd : ((s'.conf.spare .buf).take m).Nodup :=
    (c.sound.owned.heap.spareNodup s'.base.conf .buf).sublist (List.take_sublist _ _)
  have hlen : ((s'.conf.spare .buf).take m).length = m := by
    rw [List.length_take, Nat.min_eq_left hsp]
  have hsize := of.size
  rcases of.result with os | ⟨pre, n, rfl, ot⟩
  · refine ⟨⟨vec, of.iovecs, ?_⟩, ?_, ?_⟩
    · rw [os.result]
      dsimp only
      omega
    · rw [os.iovs c of.iovecs of.offers]
      exact spareIovs_nodup hd _
    · rw [os.iovs c of.iovecs of.offers, spareIovs_bytes, hlen, os.result]
  · rw [List.length_append, List.length_singleton] at hsize
    refine ⟨⟨vec, of.iovecs, ?_⟩, ?_, ?_⟩
    · rw [ot.result]
      dsimp only
      omega
    · rw [ot.iovs c of.iovecs of.offers, List.map_cons, List.nodup_cons]
      refine ⟨fun hmem => ?_, spareIovs_nodup hd _⟩
      rw [spareIovs, List.map_map] at hmem
      obtain ⟨id, hid, e⟩ := List.mem_map.mp hmem
      have he : id = n.id := by simpa using e
      have hmine := c.sound.owned.nodes.own n (by rw [c.nodes]; simp)
      have hspare := c.sound.owned.heap.spareOwn s'.base.conf .buf id (List.mem_of_mem_take hid)
      rw [he, hmine] at hspare
      cases hspare
    · rw [ot.iovs c of.iovecs of.offers, List.map_cons, List.sum_cons, spareIovs_bytes, hlen,
        ot.result]

/-- The second call after the first. -/
theorem Offered.done (of : Offered E P s pos P' s' vec a ns m r) (hb : bytes ≤ r.bytes)
    (hw : bytes ≤ w.length) :
    ∃ P'', Done E P' s' pos (w.take bytes) (¬ r.Spills s' pos bytes) P''
      (addIovecBufEnd (s'.written r w) pos bytes) := by
  have c := of.cut
  rcases of.result with os | ⟨pre, n, rfl, ot⟩
  · obtain ⟨P'', d⟩ := os.done c of.iovecs of.offers of.size of.minOffset
      (by rw [os.result] at hb; exact hb) hw
    exact ⟨P'', d.took, d.startOk, d.posOk, fun _ => d.shown trivial⟩
  · obtain ⟨P'', d⟩ := ot.done c of.iovecs of.offers of.size of.minOffset
      (by rw [ot.result] at hb; exact hb) hw
    refine ⟨P'', d.took, d.startOk, d.posOk, fun hsp => d.shown ?_⟩
    by_contra hno
    rw [not_or] at hno
    obtain ⟨hne, hgt⟩ := hno
    have hlt := ot.lt
    have hpos := c.sound.valid.pos n (by rw [c.nodes]; simp)
    refine hsp ⟨?_, _, by rw [ot.iovs c of.iovecs of.offers]; rfl, by dsimp only; omega,
      by dsimp only; omega⟩
    have hl := c.sound.valid.len
    have hp := c.place
    have hns := lens_pos (fun x hx => c.sound.valid.pos x (by rw [c.nodes]; simp [hx])) hne
    rw [c.nodes, lens_append] at hl
    omega

end Vstr
