import Vstr.Model.Scan
import Vstr.Parse.Srch

/-!
# Walking over a slice

An iterator meets the stretches of a slice from the first to the last, a scan of the vectors
from the last to the first. A loop over either is followed by induction on the walk.
-/

namespace Vstr

open Memory Splice Query

variable {E : Env} {P : Own} {s : St} {h : Heap} {b : Base} {pos len : Nat}
  {xs : List (Option UInt8)} {its : List Iter} {it : Iter}

/-- The stretches of an iteration over `xs`. -/
inductive Walk (h : Heap) : List Iter → List (Option UInt8) → Prop
  | nil : Walk h [] []
  | non {it : Iter} {its : List Iter} {xs : List (Option UInt8)} (ptr : it.ptr h = none)
      (pos : 0 < it.len) (rest : it.remaining = xs.length) (walk : Walk h its xs) :
      Walk h (it :: its) (List.replicate it.len none ++ xs)
  | data {it : Iter} {its : List Iter} {xs : List (Option UInt8)} {p : Addr}
      (ptr : it.ptr h = some p) (pos : 0 < it.len) (rest : it.remaining = xs.length)
      (walk : Walk h its xs) : Walk h (it :: its) ((read h.mem p it.len).map some ++ xs)

/-- Stretches of nodes that know what is behind them are a walk. -/
theorem walk_of_on (hon : ∀ it ∈ its, ∃ pre post, it.On b pre post) (hpos : ∀ it ∈ its, 0 < it.len)
    (hrest : ∀ pre it post, its = pre ++ it :: post →
      it.remaining = (post.map Iter.len).sum) : Walk h its (its.flatMap (Iter.bytes h)) := by
  induction its with
  | nil => exact .nil
  | cons it its ih =>
    obtain ⟨pre, post, on⟩ := hon it List.mem_cons_self
    have hlen : (its.flatMap (Iter.bytes h)).length = (its.map Iter.len).sum := by
      rw [List.length_flatMap]
      congr 1
      refine List.map_congr_left fun it' hit => ?_
      obtain ⟨pre', post', on'⟩ := hon it' (List.mem_cons_of_mem _ hit)
      exact Iter.length_bytes h on'
    have hw := ih (fun it' hit => hon it' (List.mem_cons_of_mem _ hit))
      (fun it' hit => hpos it' (List.mem_cons_of_mem _ hit))
      (fun pre' it' post' e => hrest (it :: pre') it' post' (by rw [e, List.cons_append]))
    have hr := (hrest [] it its rfl).trans hlen.symm
    rw [List.flatMap_cons, Iter.bytes_eq h on]
    cases hp : it.ptr h with
    | none => exact .non hp (hpos it List.mem_cons_self) hr hw
    | some p => exact .data hp (hpos it List.mem_cons_self) hr hw

/-- `vstr_iter_fwd_beg` starts a walk over the slice. -/
theorem Window.walk (w : Window E P s pos len xs) (hl : 0 < len) :
    ∃ it t, iterFwdBeg s pos len = (some it, t) ∧ Reads s t ∧ it.len + it.remaining = len ∧
      Walk s.heap (iterAll t.base t.base.nodes.length it) xs := by
  have u := w.usable
  obtain ⟨it, b', pre, post, e, rfl, on, hsum, hlen, -, -, hslice⟩ :=
    iterFwdBeg_spec u.sound u.posOk w.one_le w.le_len hl
  have hns := nodes_of_core (core_basePos s.base pos true)
  have hd : ((basePos s.base pos true).2.nodes.map Node.id).Nodup := by
    rw [hns]
    exact u.sound.owned.nodes.nodup
  have hfuel : post.length ≤ (basePos s.base pos true).2.nodes.length := by
    rw [on.nodes]
    simp
    omega
  have c := iterAll_covers s.heap on hd hfuel
  have hall := iterAll_remaining on hd hfuel
  have hle := w.le_len
  refine ⟨it, _, e, reads_basePos u w.one_le (by omega), hsum, ?_⟩
  have hbytes := c.bytes
  rw [hsum, ← hslice, w.bytes] at hbytes
  rw [← hbytes]
  refine walk_of_on c.on (iterAll_pos (by rw [hns]; exact u.sound.valid.pos) hlen)
    fun pre' it' post' e' => ?_
  have h1 := iterAll_sum _ pre' it' post' e'
  rw [e', List.map_append, List.sum_append, List.map_cons, List.sum_cons] at hall
  omega

/-- `vstr_iter_fwd_beg` on a slice that may be empty. -/
theorem Window.walk_cases (w : Window E P s pos len xs) :
    (xs = [] ∧ iterFwdBeg s pos len = (none, s)) ∨
      ∃ it t, iterFwdBeg s pos len = (some it, t) ∧ Reads s t ∧
        Walk s.heap (iterAll t.base t.base.nodes.length it) xs := by
  rcases Nat.eq_zero_or_pos len with rfl | hl
  · exact .inl ⟨List.length_eq_zero_iff.1 w.length, iterFwdBeg_zero s pos⟩
  · obtain ⟨it, t, e, hr, -, hw⟩ := w.walk hl
    exact .inr ⟨it, t, e, hr, hw⟩

/-! ## Backwards -/

/-- The stretches of a scan over `xs`, the last first. -/
inductive ScanWalk (h : Heap) : List Scan → List (Option UInt8) → Prop
  | nil : ScanWalk h [] []
  | non {sc : Scan} {scs : List Scan} {xs : List (Option UInt8)} (str : sc.str = none)
      (pos : 0 < sc.scanLen) (rest : sc.len = xs.length) (walk : ScanWalk h scs xs) :
      ScanWalk h (sc :: scs) (xs ++ List.replicate sc.scanLen none)
  | data {sc : Scan} {scs : List Scan} {xs : List (Option UInt8)} {p : Addr}
      (str : sc.str = some p) (pos : 0 < sc.scanLen) (rest : sc.len = xs.length)
      (walk : ScanWalk h scs xs) :
      ScanWalk h (sc :: scs) (xs ++ (read h.mem p sc.scanLen).map some)

/-- The stretch of a scan lies in the node `n` behind the nodes `pre`; the scan ends with
the byte at `a`, counted from the first node on. -/
structure Scan.On (h : Heap) (b : Base) (a : Nat) (sc : Scan) (pre : List Node) (n : Node) :
    Prop where
  /-- The list around the node. -/
  nodes : ∃ post, b.nodes = pre ++ n :: post
  /-- The number of the node. -/
  num : sc.num = pre.length + 1
  /-- The address of the stretch. -/
  str : sc.str = (exportNodePtr h n).map (·.add (a + sc.len - lens pre))
  /-- The stretch begins in the node. -/
  lo : lens pre ≤ a + sc.len
  /-- The stretch ends in the node. -/
  hi : a + sc.len + sc.scanLen ≤ lens pre + n.len
  /-- The stretch is not empty. -/
  pos : 0 < sc.scanLen
  /-- If something is in front, the stretch goes to the beginning of the node. -/
  full : sc.len ≠ 0 → a + sc.len = lens pre

variable {a : Nat} {sc : Scan} {pre : List Node} {n : Node}

/-- The bytes of a stretch. -/
theorem Scan.On.stretch (on : sc.On h b a pre n) :
    ((flat h b.nodes).drop (a + sc.len)).take sc.scanLen = match sc.str with
      | none => List.replicate sc.scanLen none
      | some p => (read h.mem p sc.scanLen).map some := by
  obtain ⟨post, hns⟩ := on.nodes
  have hlo := on.lo
  have hhi := on.hi
  obtain ⟨k, hk⟩ : ∃ k, a + sc.len = lens pre + k := ⟨a + sc.len - lens pre, by omega⟩
  rw [on.str, hns, flat_append, flat_cons, hk, ← length_flat h pre, List.drop_length_add_append,
    List.drop_append_of_le_length (by rw [length_nodeBytes]; omega),
    List.take_append_of_le_length (by rw [List.length_drop, length_nodeBytes]; omega),
    length_flat, Nat.add_sub_cancel_left]
  unfold nodeBytes
  cases exportNodePtr h n with
  | none =>
    dsimp only [Option.map_none]
    rw [List.drop_replicate, List.take_replicate, Nat.min_eq_left (by omega)]
  | some p =>
    dsimp only [Option.map_some]
    rw [← List.map_drop, ← List.map_take, drop_read, take_read _ _ (by omega)]

/-- A stretch in front of which a scan goes on. -/
theorem Scan.On.cons (on : sc.On h b a pre n) {scs : List Scan} {ys : List (Option UInt8)}
    (hr : sc.len = ys.length) (w : ScanWalk h scs ys) : ScanWalk h (sc :: scs)
      (ys ++ ((flat h b.nodes).drop (a + sc.len)).take sc.scanLen) := by
  rw [on.stretch]
  cases hs : sc.str with
  | none => exact .non hs on.pos hr w
  | some p => exact .data hs on.pos hr w

theorem type_eq_non (h : Heap) (n : Node) : n.type = .non ↔ exportNodePtr h n = none := by
  unfold Node.type exportNodePtr
  cases n.data <;> simp

/-- `vstr__base_scan_rev_nxt`. -/
theorem baseScanRevNxt_on {bufSz : Nat} (v : Valid bufSz b) (iv : IovecOk ⟨h, b⟩)
    (hup : b.iovecUptoDate = true) (on : sc.On h b a pre n) (ha : b.used ≤ a) (h0 : sc.len ≠ 0) :
    ∃ sc' pre' m, baseScanRevNxt b sc = some sc' ∧ pre = pre' ++ [m] ∧
      sc'.len + sc'.scanLen = sc.len ∧ sc'.On h b a pre' m := by
  obtain ⟨post, hns⟩ := on.nodes
  have hfull := on.full h0
  have hpre : pre ≠ [] := by
    rintro rfl
    rw [lens_nil] at hfull
    omega
  obtain ⟨pre', m, rfl⟩ : ∃ pre' m, pre = pre' ++ [m] :=
    ⟨pre.dropLast, pre.getLast hpre, (List.dropLast_append_getLast hpre).symm⟩
  have hm : b.nodes[pre'.length]? = some m := by
    rw [hns]
    simp
  obtain ⟨vec, hvec, -, hall⟩ := iv hup (by rw [hns]; simp)
  obtain ⟨hv, ht⟩ := hall _ m hm
  have hnum := on.num
  rw [List.length_append, List.length_singleton] at hnum
  rw [lens_append, lens_cons, lens_nil] at hfull
  have hmpos := v.pos m (by rw [hns]; simp)
  generalize hu : (if pre'.length = 0 then b.used else 0) = u at hv
  have hum : u < m.len := by
    rw [← hu]
    split
    · rename_i e
      obtain rfl := List.length_eq_zero_iff.1 e
      by_cases hb : b.used = 0
      · omega
      · obtain ⟨k, ks, hk, -, hlt⟩ := v.used hb
        rw [hns] at hk
        rw [(List.cons.inj hk).1]
        exact hlt
    · exact hmpos
  have hua : u ≤ a ∧ (u ≠ 0 → lens pre' = 0) := by
    rw [← hu]
    split
    · rename_i e
      obtain rfl := List.length_eq_zero_iff.1 e
      exact ⟨ha, fun _ => rfl⟩
    · exact ⟨Nat.zero_le _, fun hne => absurd rfl hne⟩
  have hstr : ∀ k, (if m.type = .non then none
      else ((exportNodePtr h m).map (·.add u)).map (·.add k)) =
      (exportNodePtr h m).map (·.add (u + k)) := by
    intro k
    cases hp : exportNodePtr h m with
    | none => simp
    | some p =>
      rw [if_neg (by rw [type_eq_non h, hp]; simp)]
      simp
  refine ⟨⟨sc.len - (if m.len - u > sc.len then sc.len else m.len - u), pre'.length + 1,
    (exportNodePtr h m).map (·.add (u + if m.len - u > sc.len then m.len - u - sc.len else 0)),
    if m.len - u > sc.len then sc.len else m.len - u⟩, pre', m, ?_, rfl, ?_, ?_⟩
  · unfold baseScanRevNxt
    rw [if_neg (by omega), hvec, Option.map_some]
    dsimp only
    rw [show sc.num - 1 = pre'.length + 1 by omega, Nat.add_sub_cancel, hv, ht]
    dsimp only [nodeIovec]
    rw [hstr]
    rfl
  · dsimp only
    split <;> omega
  · refine ⟨⟨n :: post, by rw [hns, List.append_assoc]; rfl⟩, rfl, ?_, ?_, ?_, ?_, ?_⟩
    · dsimp only
      congr 2
      funext p
      congr 1
      split <;> omega
    all_goals
      dsimp only
      split <;> omega

/-- A whole scan. -/
theorem scanRevAll_walk {bufSz : Nat} (v : Valid bufSz b) (iv : IovecOk ⟨h, b⟩)
    (hup : b.iovecUptoDate = true) (ha : b.used ≤ a) {fuel : Nat} (on : sc.On h b a pre n)
    (hfuel : pre.length ≤ fuel) : ScanWalk h (scanRevAll b fuel sc)
      (((flat h b.nodes).drop a).take (sc.len + sc.scanLen)) := by
  have hone : ∀ (sc : Scan) (pre : List Node) (n : Node), sc.On h b a pre n → sc.len = 0 →
      ScanWalk h [sc] (((flat h b.nodes).drop a).take (sc.len + sc.scanLen)) := by
    intro sc pre n on h0
    have hw : ScanWalk h [sc] ([] ++ _) := on.cons h0 .nil
    rw [h0, Nat.add_zero, List.nil_append] at hw
    rwa [h0, Nat.zero_add]
  induction fuel generalizing sc pre n with
  | zero =>
    obtain rfl : pre = [] := List.length_eq_zero_iff.1 (by omega)
    have hfull := on.full
    rw [lens_nil] at hfull
    exact hone sc [] n on (by omega)
  | succ fuel ih =>
    rw [scanRevAll]
    by_cases h0 : sc.len = 0
    · have hn : baseScanRevNxt b sc = none := by
        rw [baseScanRevNxt, if_pos (.inl h0)]
      rw [hn]
      exact hone sc pre n on h0
    · obtain ⟨sc', pre', m, hn, rfl, hsum, on'⟩ := baseScanRevNxt_on v iv hup on ha h0
      rw [hn]
      have hw := ih on' (by simpa using hfuel)
      rw [hsum] at hw
      obtain ⟨post, hns⟩ := on.nodes
      have hl : sc.len ≤ ((flat h b.nodes).drop a).length := by
        have hhi := on.hi
        rw [List.length_drop, length_flat, hns, lens_append, lens_cons]
        omega
      have hc := on.cons (by rw [List.length_take]; omega) hw
      rwa [← List.drop_drop, ← List.take_add] at hc

/-- Nodes of one list lie one behind the other. -/
theorem lens_le_of_lt {ns pre₁ post₁ pre₂ post₂ : List Node} {n₁ n₂ : Node}
    (h₁ : ns = pre₁ ++ n₁ :: post₁) (h₂ : ns = pre₂ ++ n₂ :: post₂)
    (hlt : pre₁.length < pre₂.length) : lens pre₁ + n₁.len ≤ lens pre₂ := by
  rcases List.append_eq_append_iff.1 (h₁.symm.trans h₂) with ⟨as, rfl, e⟩ | ⟨as, rfl, -⟩
  · cases as with
    | nil =>
      rw [List.append_nil] at hlt
      omega
    | cons x as =>
      rw [(List.cons.inj e).1, lens_append, lens_cons]
      omega
  · rw [List.length_append] at hlt
    omega

theorem basePos_false (b : Base) (pos : Nat) : (basePos b pos false).2 = b := by
  unfold basePos
  dsimp only
  split
  · rfl
  · split <;> rfl

/-- `vstr__base_scan_rev_beg` starts a scan of the slice. -/
theorem Window.scanWalk (w : Window E P s pos len xs) (pk : PosOk True s.base) (iv : IovecOk s)
    (hup : s.base.iovecUptoDate = true) (hl : 0 < len) :
    ∃ sc t, baseScanRevBeg s pos len = (some sc, t) ∧ Reads s t ∧ sc.len + sc.scanLen = len ∧
      ScanWalk s.heap (scanRevAll t.base sc.num sc) xs := by
  have u := w.usable
  have h1 := w.one_le
  have hle := w.le_len
  have v := u.sound.valid
  have hd := u.sound.owned.nodes.nodup
  have hr := reads_basePos u h1 (show pos ≤ s.base.len by omega)
  have pk' := posOk_basePos v hd pk h1 (show pos ≤ s.base.len by omega) true
  obtain ⟨pre₁, n₁, post₁, hat₁, -, -⟩ := basePos_at v hd pk h1
    (show pos ≤ s.base.len by omega) true
  obtain ⟨d, hb⟩ := basePos_base s.base pos true
  generalize hf₁ : (basePos s.base pos true).1 = f₁ at hat₁
  generalize hb₁ : (basePos s.base pos true).2 = b₁ at hr pk' hb
  have hns : b₁.nodes = s.base.nodes := by rw [hb]
  have hu : b₁.used = s.base.used := by rw [hb]
  have hbl : b₁.len = s.base.len := by rw [hb]
  have v₁ : Valid s.conf.bufSz b₁ := by
    rw [hb]
    exact ⟨v.len, v.num, v.endNode, v.pos, v.used, v.flags, v.buf, v.max⟩
  have iv₁ : IovecOk ⟨s.heap, b₁⟩ := by
    rw [hb]
    exact iv
  have hup₁ : b₁.iovecUptoDate = true := by
    rw [hb]
    exact hup
  obtain ⟨pre, n, post, hat, hnum, -⟩ := basePos_at v₁ (by rw [hns]; exact hd) pk'
    (show 1 ≤ pos + (len - 1) by omega) (by omega) false
  replace hnum := hnum trivial
  have hnode : b₁.node (basePos b₁ (pos + (len - 1)) false).1.idx = n := by
    rw [hat.idx]
    exact node_of_eq hat.nodes
  generalize hf : (basePos b₁ (pos + (len - 1)) false).1 = f at hat hnum hnode
  have hp₁ := hat₁.pos
  have ho₁ := hat₁.one_le
  have hl₁ := hat₁.le_len
  have hp := hat.pos
  have ho := hat.one_le
  have hln := hat.le_len
  have hns₁ := hat₁.nodes
  rw [← hns] at hns₁
  have hge : pre₁.length ≤ pre.length := by
    by_contra hlt
    have := lens_le_of_lt hat.nodes hns₁ (by omega)
    omega
  obtain ⟨sc, e, hsum, on⟩ : ∃ sc : Scan, baseScanRevBeg s pos len = (some sc, ⟨s.heap, b₁⟩) ∧
      sc.len + sc.scanLen = len ∧ sc.On s.heap b₁ (pos - 1 + b₁.used) pre n := by
    unfold baseScanRevBeg St.pos
    have hmod := Nat.mod_le (pos + len - 1) (2 ^ 64)
    rw [if_neg (by omega)]
    dsimp only
    rw [hb₁, basePos_false, hf₁, hf, hnode]
    by_cases hidx : f₁.idx ≠ f.idx
    · have hlt : lens pre₁ + n₁.len ≤ lens pre :=
        lens_le_of_lt hns₁ hat.nodes (by rw [hat₁.idx, hat.idx] at hidx; omega)
      rw [if_pos hidx]
      refine ⟨_, rfl, ?_, ⟨⟨post, hat.nodes⟩, hnum, ?_, ?_, ?_, ?_, fun _ => ?_⟩⟩
      · dsimp only
        omega
      · dsimp only
        rw [show pos - 1 + b₁.used + (len - f.pos) - lens pre = 0 by omega]
      all_goals
        dsimp only
        omega
    · rw [if_neg hidx]
      rw [hat₁.idx, hat.idx] at hidx
      have hpre : lens pre₁ = lens pre := by
        rw [(List.append_inj (hns₁.symm.trans hat.nodes) (by omega)).1]
      refine ⟨_, rfl, Nat.zero_add _, ⟨⟨post, hat.nodes⟩, hnum, ?_, ?_, ?_, hl, fun h0 => ?_⟩⟩
      · dsimp only
        rw [show pos - 1 + b₁.used + 0 - lens pre = f₁.pos - 1 by omega]
      · dsimp only
        omega
      · dsimp only
        omega
      · exact absurd rfl h0
  refine ⟨sc, _, e, hr, hsum, ?_⟩
  have hw := scanRevAll_walk v₁ iv₁ hup₁ (show b₁.used ≤ pos - 1 + b₁.used by omega) on
    (show pre.length ≤ sc.num by rw [on.num]; omega)
  rwa [hsum, hns, hu, Nat.add_comm (pos - 1), ← List.drop_drop,
    show ((flat s.heap s.base.nodes).drop
    s.base.used).drop (pos - 1) = (content s).drop (pos - 1) from rfl,
    show ((content s).drop (pos - 1)).take len = xs from w.bytes] at hw

/-- `vstr__base_scan_rev_beg` on a slice that may be empty. -/
theorem Window.scanWalk_cases (w : Window E P s pos len xs) (pk : PosOk True s.base)
    (iv : IovecOk s) (hup : s.base.iovecUptoDate = true) :
    (xs = [] ∧ baseScanRevBeg s pos len = (none, s)) ∨
      ∃ sc t, baseScanRevBeg s pos len = (some sc, t) ∧ Reads s t ∧
        ScanWalk s.heap (scanRevAll t.base sc.num sc) xs := by
  rcases Nat.eq_zero_or_pos len with rfl | hl
  · exact .inl ⟨List.length_eq_zero_iff.1 w.length, if_pos (.inl rfl)⟩
  · obtain ⟨sc, t, e, hr, -, hw⟩ := w.scanWalk pk iv hup hl
    exact .inr ⟨sc, t, e, hr, hw⟩

/-! ## A string with vectors -/

/-- The string with vectors that are up to date. -/
def St.vectored (s : St) : St :=
  { s with base := { s.base with
      posData := { s.base.posData with node := none }
      iovecUptoDate := true
      vec := some ⟨fun i => nodeIovec s.heap (if i = 0 then s.base.used else 0) (s.base.node i),
        fun i => (s.base.node i).type, 0, s.base.num⟩ } }

theorem iovecOk_vectored (s : St) : IovecOk s.vectored := by
  intro _ _
  refine ⟨_, rfl, Nat.le_refl _, fun i m hm => ?_⟩
  have hn : s.base.node i = m := by
    rw [Base.node, List.getD_eq_getElem?_getD, show s.base.nodes[i]? = some m from hm]
    rfl
  dsimp only [St.vectored]
  rw [Nat.zero_add, hn]
  exact ⟨rfl, rfl⟩

theorem Window.vectored (w : Window E P s pos len xs) : Window E P s.vectored pos len xs where
  usable :=
    { sound := (w.usable.sound.congr rfl : Sound E P ⟨s.heap, s.vectored.base⟩)
      posOk := posOk_of_none rfl
      ptrSafe := w.usable.ptrSafe }
  one_le := w.one_le
  le_len := w.le_len
  bytes := w.bytes

end Vstr
