import Vstr.Edit.Shown
import Vstr.Export.Cstr
import Vstr.Export.Vectors

/-!
# Exporting all vectors

`vstr_export_iovec_ptr_all` hands out the vectors that the cache holds, and makes them anew
when they are not up to date. Either way they are the vectors of the content.
-/

namespace Vstr

open Memory Fwd

variable {E : Env} {P P' : Own} {s s' : St} {h : Heap} {b : Base} {vec : IovecData}
variable {n : Node} {ns : List Node} {i used room : Nat}

/-! ## Making the vectors -/

/-- Storing vectors from an index on leaves those in front of it. -/
theorem setNodes_rest (h : Heap) (vec : IovecData) (i : Nat) (ns : List Node) :
    (vec.setNodes h i ns).off = vec.off ∧ (vec.setNodes h i ns).sz = vec.sz ∧
      ∀ j < i, (vec.setNodes h i ns).v j = vec.v j ∧ (vec.setNodes h i ns).t j = vec.t j := by
  induction ns generalizing vec i with
  | nil => exact ⟨rfl, rfl, fun _ _ => ⟨rfl, rfl⟩⟩
  | cons n ns ih =>
    rw [IovecData.setNodes]
    obtain ⟨ho, hs, hj⟩ := ih (vec.set i (nodeIovec h 0 n) n.type) (i + 1)
    refine ⟨ho, hs, fun j hlt => ?_⟩
    obtain ⟨hv, ht⟩ := hj j (by omega)
    exact ⟨hv.trans (Function.update_of_ne (by omega) _ _),
      ht.trans (Function.update_of_ne (by omega) _ _)⟩

/-- The vectors stored are those of the nodes. -/
theorem shows_setNodes (h : Heap) (vec : IovecData) (i : Nat) (ns : List Node) :
    Shows h (vec.setNodes h i ns) i 0 ns := by
  induction ns generalizing vec i with
  | nil => trivial
  | cons n ns ih =>
    rw [IovecData.setNodes]
    obtain ⟨-, -, hj⟩ := setNodes_rest h (vec.set i (nodeIovec h 0 n) n.type) (i + 1) ns
    obtain ⟨hv, ht⟩ := hj i (Nat.lt_succ_self i)
    exact ⟨⟨hv.trans (Function.update_self _ _ _), ht.trans (Function.update_self _ _ _)⟩,
      ih _ _⟩

/-- An `unsigned int` counts the entries of the arrays for `sz` vectors. -/
def St.RoomFor (s : St) (sz : Nat) : Prop :=
  sz + s.conf.iovMinAlloc + s.conf.iovMinOffset < 2 ^ 32

/-- The room depends on the parameters only. -/
theorem St.RoomFor.frame {sz sz' : Nat} (hr : s.RoomFor sz)
    (fr : Frame E P s.heap P' s'.heap) (hc : s'.base.conf = s.base.conf) (hle : sz' ≤ sz) :
    s'.RoomFor sz' := by
  have h1 := fr.iovMinAlloc s.base.conf
  have h2 := fr.iovMinOffset s.base.conf
  unfold St.RoomFor St.conf at hr ⊢
  rw [hc]
  omega

/-- What making the vectors leaves: only the vector cache changes. -/
structure Revalid (E : Env) (P : Own) (s s' : St) : Prop where
  /-- The rest of the string is as it was. -/
  base : s'.base.noVec = s.base.noVec
  /-- Memory is asked for, and nothing else. -/
  makes : Makes E P s.heap P s'.heap
  /-- The parameters are as they were. -/
  conf : s'.conf.iovMinOffset = s.conf.iovMinOffset
  /-- The vectors are those of the nodes. -/
  shown : s'.Shown s.conf.iovMinOffset

theorem Revalid.of_stale {h' : Heap} {b' : Base} (mk : Makes E P s.heap P h')
    (hb : b'.noVec = s.base.noVec) (hup : b'.iovecUptoDate = false)
    (hroom : ∀ vec, b'.vec = some vec → s.conf.iovMinOffset ≤ vec.sz ∧ vec.off ≤ vec.sz) :
    Revalid E P s ⟨h', b'⟩ where
  base := hb
  makes := mk
  conf := by
    have hc : b'.conf = s.base.conf := (congrArg Base.conf hb :)
    unfold St.conf
    dsimp only
    rw [hc]
    exact mk.frame.iovMinOffset _
  shown := by
    refine ⟨hroom, fun hup' => ?_⟩
    rw [show (St.mk h' b').base.iovecUptoDate = b'.iovecUptoDate from rfl, hup] at hup'
    cases hup'

/-- The end of `vstr__cache_iovec_alloc`: arrays that are too small grow. -/
def cacheIovecGrow (s : St) (sz : Nat) (vec : IovecData) : Bool × St :=
  let s := { s with base := { s.base with vec := some vec } }
  if sz > uintSub vec.sz vec.off then
    match s.heap.mallocs 2 with
    | (false, h) => (false, { s with heap := h.mallocBad s.base.conf })
    | (true, h) =>
      (true, ⟨h, { s.base with
        vec := some { vec with sz := (sz + s.conf.iovMinOffset) % 2 ^ 32 } }⟩)
  else (true, s)

theorem cacheIovecGrow_spec {t : St} (rv : Makes E P s.heap P t.heap)
    (hb : t.base.noVec = s.base.noVec) (hup : t.base.iovecUptoDate = false)
    (hconf : t.conf.iovMinOffset = s.conf.iovMinOffset) (sz : Nat)
    (hsz : sz + s.conf.iovMinOffset < 2 ^ 32) (hoff : vec.off = s.conf.iovMinOffset)
    (hle : s.conf.iovMinOffset ≤ vec.sz) :
    Revalid E P s (cacheIovecGrow t sz vec).2 ∧ ((cacheIovecGrow t sz vec).1 = true →
      (cacheIovecGrow t sz vec).2.base.iovecUptoDate = false ∧
      ∃ vec', (cacheIovecGrow t sz vec).2.base.vec = some vec' ∧
        vec'.off = s.conf.iovMinOffset ∧ vec'.off + sz ≤ vec'.sz) := by
  have put : ∀ {h : Heap} {vec' : IovecData}, Makes E P s.heap P h →
      vec'.off = s.conf.iovMinOffset → s.conf.iovMinOffset ≤ vec'.sz →
      Revalid E P s ⟨h, { t.base with vec := some vec' }⟩ := by
    intro h vec' mk ho hz
    refine Revalid.of_stale mk hb hup fun w hw => ?_
    obtain rfl := Option.some_inj.mp hw
    exact ⟨hz, ho ▸ hz⟩
  have ho : (St.conf ⟨t.heap, { t.base with vec := some vec }⟩).iovMinOffset =
      s.conf.iovMinOffset := hconf
  unfold cacheIovecGrow
  dsimp only
  rw [uintSub_of_le (hoff ▸ hle), ho, Nat.mod_eq_of_lt hsz]
  split
  · have mk := rv.trans (makes_mallocs rv.ok 2)
    split
    · rename_i h e
      rw [e] at mk
      refine ⟨put (mk.trans (makes_mallocBad mk.ok _)) hoff hle, fun hf => ?_⟩
      cases hf
    · rename_i h e
      rw [e] at mk
      exact ⟨put mk hoff (Nat.le_add_left _ _),
        fun _ => ⟨hup, _, rfl, hoff, by dsimp only; omega⟩⟩
  · exact ⟨put rv hoff hle, fun _ => ⟨hup, _, rfl, hoff, by omega⟩⟩

/-- `vstr__cache_iovec_alloc`: there is room for the vectors, or memory ran out. -/
theorem cacheIovecAlloc_spec (ok : HeapOk P s.heap) (hup : s.base.iovecUptoDate = false)
    (hs : s.Shown s.conf.iovMinOffset) {sz : Nat} (hsz : s.RoomFor sz) :
    Revalid E P s (cacheIovecAlloc s sz).2 ∧ ((cacheIovecAlloc s sz).1 = true →
      (cacheIovecAlloc s sz).2.base.iovecUptoDate = false ∧
      ∃ vec, (cacheIovecAlloc s sz).2.base.vec = some vec ∧ vec.off = s.conf.iovMinOffset ∧
        vec.off + sz ≤ vec.sz) := by
  have same : Revalid E P s s :=
    ⟨rfl, Makes.refl ok, rfl, hs⟩
  unfold St.RoomFor at hsz
  unfold cacheIovecAlloc
  by_cases hav : s.base.cacheAvailable = true
  · rw [if_neg (by simpa using hav)]
    have align : ∀ (t : St) (vec : IovecData), t.base.iovecUptoDate = false →
        t.conf.iovMinOffset = s.conf.iovMinOffset →
        cacheIovecAlign t sz vec = { vec with off := s.conf.iovMinOffset } := by
      intro t vec ht hc
      unfold cacheIovecAlign
      rw [if_pos (by simp [ht]), hc]
    cases hv : s.base.vec with
    | some vec =>
      have hmake : cacheIovecMake s sz = (true, s) := by
        unfold cacheIovecMake
        rw [hv]
      rw [hmake]
      dsimp only
      rw [hv]
      dsimp only
      rw [align s vec hup rfl]
      exact cacheIovecGrow_spec (Makes.refl ok) rfl hup rfl sz (by omega) rfl (hs.room vec hv).1
    | none =>
      have mk := makes_mallocs (E := E) ok 4
      generalize hm : s.heap.mallocs 4 = r at mk
      obtain ⟨got, h⟩ := r
      cases got with
      | false =>
        have hmake : cacheIovecMake s sz =
            (false, { s with heap := h.mallocBad s.base.conf }) := by
          unfold cacheIovecMake
          rw [hv]
          dsimp only
          rw [hm]
        rw [hmake]
        refine ⟨Revalid.of_stale (mk.trans (makes_mallocBad mk.ok _)) rfl hup fun vec hvec => ?_,
          fun hf => by cases hf⟩
        rw [hv] at hvec
        cases hvec
      | true =>
        have hmake : cacheIovecMake s sz = (true, ⟨h, { s.base with
            vec := some (.fresh (sz + s.conf.iovMinAlloc + s.conf.iovMinOffset)) }⟩) := by
          unfold cacheIovecMake
          rw [hv]
          dsimp only
          rw [hm, Nat.mod_eq_of_lt hsz]
        rw [hmake]
        dsimp only
        have ho : (St.conf ⟨h, { s.base with
            vec := some (.fresh (sz + s.conf.iovMinAlloc + s.conf.iovMinOffset)) }⟩).iovMinOffset =
              s.conf.iovMinOffset := mk.frame.iovMinOffset _
        rw [align ⟨h, { s.base with
            vec := some (.fresh (sz + s.conf.iovMinAlloc + s.conf.iovMinOffset)) }⟩ _ hup ho]
        refine cacheIovecGrow_spec (t := ⟨h, { s.base with
          vec := some (.fresh (sz + s.conf.iovMinAlloc + s.conf.iovMinOffset)) }⟩) mk rfl hup ho
            sz (by omega) rfl ?_
        exact Nat.le_add_left _ _
  · rw [if_pos (by simpa using hav)]
    exact ⟨same, fun hf => by cases hf⟩

/-- `vstr__cache_iovec_valid`: the vectors are made if they are not up to date. -/
theorem cacheIovecValid_spec (ok : HeapOk P s.heap) (hn : s.base.num = s.base.nodes.length)
    (hs : s.Shown s.conf.iovMinOffset) (hroom : s.RoomFor s.base.num) :
    Revalid E P s (cacheIovecValid s).2 ∧ ((cacheIovecValid s).1 = true → s.base.nodes ≠ [] →
      (cacheIovecValid s).2.base.iovecUptoDate = true) := by
  have same : Revalid E P s s := ⟨rfl, Makes.refl ok, rfl, hs⟩
  unfold cacheIovecValid
  by_cases hup : s.base.iovecUptoDate = true
  · rw [if_pos hup]
    exact ⟨same, fun _ _ => hup⟩
  · rw [if_neg hup]
    have hup' : s.base.iovecUptoDate = false := by simpa using hup
    cases hns : s.base.nodes with
    | nil =>
      cases hv : s.base.vec with
      | none => exact ⟨same, fun _ h => absurd rfl h⟩
      | some vec =>
        dsimp only
        split
        · refine ⟨⟨rfl, Makes.refl ok, rfl, hs.room, fun _ => ⟨vec, hv, ?_, ?_⟩⟩,
            fun _ h => absurd rfl h⟩
          · rw [show (St.mk s.heap { s.base with iovecUptoDate := true }).base.nodes = [] from hns,
              List.length_nil]
            exact (hs.room vec hv).2
          · rw [show (St.mk s.heap { s.base with iovecUptoDate := true }).base.nodes = [] from hns]
            trivial
        · exact ⟨same, fun _ h => absurd rfl h⟩
    | cons n ns =>
      obtain ⟨rv, hroom⟩ := cacheIovecAlloc_spec (E := E) ok hup' hs hroom
      generalize cacheIovecAlloc s s.base.num = r at rv hroom
      obtain ⟨got, t⟩ := r
      cases got with
      | false => exact ⟨rv, fun hf => by cases hf⟩
      | true =>
        obtain ⟨-, vec, hvec, hoff, hle⟩ := hroom rfl
        dsimp only at rv hvec ⊢
        have hns' : t.base.nodes = n :: ns := (congrArg Base.nodes rv.base :).trans hns
        rw [hn, hns, List.length_cons] at hle
        obtain ⟨ho, hz, hj⟩ := setNodes_rest t.heap
          (vec.set t.conf.iovMinOffset (nodeIovec t.heap t.base.used n) n.type)
          (t.conf.iovMinOffset + 1) ns
        obtain ⟨hv, ht⟩ := hj t.conf.iovMinOffset (Nat.lt_succ_self _)
        have hshows := shows_setNodes t.heap
          (vec.set t.conf.iovMinOffset (nodeIovec t.heap t.base.used n) n.type)
          (t.conf.iovMinOffset + 1) ns
        generalize hw : (vec.set t.conf.iovMinOffset (nodeIovec t.heap t.base.used n)
          n.type).setNodes t.heap (t.conf.iovMinOffset + 1) ns = w at ho hz hj hv ht hshows
        have hwv : (t.base.mapVec fun vec => (vec.set t.conf.iovMinOffset
            (nodeIovec t.heap t.base.used n) n.type).setNodes t.heap (t.conf.iovMinOffset + 1)
              ns).vec = some w := by
          unfold Base.mapVec
          dsimp only
          rw [hvec, ← hw]
          rfl
        have hwo : w.off = s.conf.iovMinOffset := ho.trans hoff
        have hwz : w.sz = vec.sz := hz
        refine ⟨⟨rv.base, rv.makes, rv.conf, fun w' hw' => ?_, fun _ => ⟨w, hwv, ?_, ?_⟩⟩,
          fun _ _ => rfl⟩
        · obtain rfl := Option.some_inj.mp (hwv.symm.trans hw')
          rw [hwz, hwo]
          omega
        · change w.off + t.base.nodes.length ≤ w.sz
          rw [hns', List.length_cons, hwz, hwo]
          omega
        · change Shows t.heap w w.off t.base.used t.base.nodes
          rw [hns', hwo, ← rv.conf]
          exact ⟨⟨hv.trans (Function.update_self _ _ _), ht.trans (Function.update_self _ _ _)⟩,
            hshows⟩

/-! ## Handing them out -/

theorem iovecBytes_nodeIovec (h : Heap) (used : Nat) (n : Node) :
    iovecBytes h (nodeIovec h used n) = (nodeBytes h n).drop used := by
  rw [iovecBytes, nodeIovec, nodeBytes_eq]
  unfold exportNodePtr
  cases hd : n.data with
  | non =>
    dsimp only [Option.map_none]
    rw [List.drop_replicate]
  | _ =>
    dsimp only [Option.map_some]
    rw [← List.map_drop, drop_read]

/-- The vectors of some nodes; of the first of them `used` bytes are consumed. -/
def nodeVecs (h : Heap) (used : Nat) : List Node → List Iovec
  | [] => []
  | n :: ns => nodeIovec h used n :: nodeVecs h 0 ns

/-- Their bytes. -/
theorem flatMap_nodeVecs (h : Heap) (hu : ∀ m ms, ns = m :: ms → used ≤ m.len) :
    (nodeVecs h used ns).flatMap (iovecBytes h) = (flat h ns).drop used := by
  induction ns generalizing used with
  | nil => simp [nodeVecs]
  | cons n ns ih =>
    have := ih fun m _ _ => Nat.zero_le m.len
    rw [List.drop_zero] at this
    rw [nodeVecs, List.flatMap_cons, this, iovecBytes_nodeIovec, flat_cons,
      List.drop_append_of_le_length (by rw [length_nodeBytes]; exact hu n ns rfl)]

/-- No more of the vector of a node is there than of the node. -/
theorem nodeVecs_each (hpos : ∀ n ∈ ns, 0 < n.len) (hu : ∀ m ms, ns = m :: ms → used < m.len) :
    ∀ v ∈ nodeVecs h used ns, 0 < v.len ∧ ∃ n ∈ ns, v.len ≤ n.len := by
  induction ns generalizing used with
  | nil => intro v hv; cases hv
  | cons n ns ih =>
    intro v hv
    have hn := hu n ns rfl
    rcases List.mem_cons.mp hv with rfl | hv
    · refine ⟨?_, n, List.mem_cons_self, ?_⟩
      · exact Nat.sub_pos_of_lt hn
      · exact Nat.sub_le _ _
    · obtain ⟨h0, m, hm, hle⟩ := ih (fun m hm => hpos m (List.mem_cons_of_mem _ hm))
        (fun m ms e => hpos m (by rw [e]; simp)) v hv
      exact ⟨h0, m, List.mem_cons_of_mem _ hm, hle⟩

/-- The entries from an index on are the vectors of the nodes. -/
theorem Shows.vecs (hs : Shows h vec i used ns) :
    ((List.range ns.length).map fun j => vec.v (i + j)) = nodeVecs h used ns := by
  induction ns generalizing i used with
  | nil => rfl
  | cons n ns ih =>
    obtain ⟨⟨hv, -⟩, hs⟩ := hs
    rw [List.length_cons, List.range_succ_eq_map, List.map_cons, List.map_map, Nat.add_zero, hv,
      nodeVecs, ← ih hs]
    congr 1
    refine List.map_congr_left fun j _ => ?_
    dsimp only [Function.comp_apply]
    congr 1
    omega

/-- What exporting all vectors returns: no vectors, when the string is empty or memory ran
out, or the length and the vectors of the content, one for each node. -/
structure AllVectors (s : St) (r : Nat × List Iovec × St) : Prop where
  /-- Nothing, or everything. -/
  len : r.1 = 0 ∧ r.2.1 = [] ∨ r.1 = s.base.len ∧ r.2.1.length = s.base.num
  /-- The vectors are those of the nodes. -/
  vecs : r.1 ≠ 0 → r.2.1 = nodeVecs r.2.2.heap s.base.used s.base.nodes
  /-- The bytes of the vectors. -/
  bytes : r.1 ≠ 0 → r.2.1.flatMap (iovecBytes r.2.2.heap) = content s
  /-- The content stays. -/
  content : content r.2.2 = content s

/-- `vstr_export_iovec_ptr_all`. -/
theorem exportIovecPtrAll_spec (sd : Sound E P s) (hs : s.Shown s.conf.iovMinOffset)
    (hroom : s.RoomFor s.base.num) :
    Revalid E P s (exportIovecPtrAll s).2.2 ∧ AllVectors s (exportIovecPtrAll s) := by
  have hn := sd.valid.num
  unfold exportIovecPtrAll
  split
  · exact ⟨⟨rfl, Makes.refl sd.owned.heap, rfl, hs⟩, .inl ⟨rfl, rfl⟩, fun h => absurd rfl h,
      fun h => absurd rfl h, rfl⟩
  · rename_i hne
    obtain ⟨rv, hvalid⟩ := cacheIovecValid_spec (E := E) sd.owned.heap hn hs hroom
    generalize cacheIovecValid s = r at rv hvalid
    obtain ⟨got, t⟩ := r
    have hcore := core_of_noVec rv.base
    have hnodes : t.base.nodes = s.base.nodes := nodes_of_core hcore
    have hflat : flat t.heap t.base.nodes = flat s.heap s.base.nodes := by
      rw [hnodes]
      exact flat_congr fun m _ => nodeBytes_congr (rv.makes.quiet.exportNodePtr m) fun p _ => by
        rw [rv.makes.mem]
    have hcont : content t = content s := by
      unfold Vstr.content
      rw [hflat, used_of_core hcore]
    cases got with
    | false =>
      exact ⟨rv, .inl ⟨rfl, rfl⟩, fun h => absurd rfl h, fun h => absurd rfl h, hcont⟩
    | true =>
      have hns : s.base.nodes ≠ [] := fun e => hne (by rw [hn, e]; rfl)
      obtain ⟨vec, hvec, -, hsh⟩ := rv.shown.entries (hvalid rfl hns)
      have hnum : t.base.num = s.base.num := (congrArg Base.num rv.base :)
      dsimp only at rv hvec hsh hcont ⊢
      rw [hvec]
      have hvecs : ((List.range t.base.num).map fun j => vec.v (vec.off + j)) =
          nodeVecs t.heap s.base.used s.base.nodes := by
        rw [hnum, hn, ← hnodes, hsh.vecs, used_of_core hcore]
      refine ⟨rv, .inr ⟨len_of_core hcore, ?_⟩, fun _ => hvecs, fun _ => ?_, hcont⟩
      · rw [List.length_map, List.length_range, hnum]
      · dsimp only
        rw [hvecs, flatMap_nodeVecs]
        · rw [← hcont, Vstr.content, hnodes, used_of_core hcore]
        · intro m ms hm
          have hfirst : s.base.nodes = [] ++ m :: ms := hm
          have hu := sd.valid.firstUsed_le hfirst
          rw [firstUsed, if_pos rfl] at hu
          exact hu

end Vstr
