import Vstr.Spec.Valid
import Vstr.Model.Add
import Vstr.Model.Del

/-!
# What the cache code leaves alone

The callbacks change nothing but the caches they are for, and the patches of the
vector cache nothing but the vectors. The position cache survives an edit that keeps
the nodes in front of it where they are.
-/

namespace Vstr

/-- A base without its vectors. -/
def Base.noVec (b : Base) : Base := { b with iovecUptoDate := false, vec := none }

theorem core_of_noVec {b b' : Base} (h : b'.noVec = b.noVec) : b'.core = b.core :=
  (congrArg Base.core h :)

theorem posData_of_noVec {b b' : Base} (h : b'.noVec = b.noVec) : b'.posData = b.posData :=
  (congrArg Base.posData h :)

theorem cstr_of_noVec {b b' : Base} (h : b'.noVec = b.noVec) : b'.cstr = b.cstr :=
  (congrArg Base.cstr h :)

theorem nodes_of_core {b b' : Base} (h : b'.core = b.core) : b'.nodes = b.nodes :=
  (congrArg Base.nodes h :)

theorem used_of_core {b b' : Base} (h : b'.core = b.core) : b'.used = b.used :=
  (congrArg Base.used h :)

theorem len_of_core {b b' : Base} (h : b'.core = b.core) : b'.len = b.len :=
  (congrArg Base.len h :)

theorem conf_of_core {b b' : Base} (h : b'.core = b.core) : b'.conf = b.conf :=
  (congrArg Base.conf h :)

theorem cacheAvailable_of_core {b b' : Base} (h : b'.core = b.core) :
    b'.cacheAvailable = b.cacheAvailable := (congrArg Base.cacheAvailable h :)

/-! ## Callbacks -/

theorem core_cacheAdd (b : Base) (pos len : Nat) : (cacheAdd b pos len).core = b.core := by
  unfold cacheAdd
  split <;> rfl

theorem core_cacheDel (b : Base) (pos len : Nat) : (cacheDel b pos len).core = b.core := by
  unfold cacheDel
  split <;> rfl

theorem core_cacheCbSub (b : Base) (pos len : Nat) : (cacheCbSub b pos len).core = b.core := by
  unfold cacheCbSub
  split <;> rfl

theorem core_cachePos (b : Base) (node pos num : Nat) :
    (cachePos b node pos num).core = b.core := by
  unfold cachePos
  split <;> rfl

theorem core_basePos (b : Base) (pos : Nat) (cache : Bool) :
    (basePos b pos cache).2.core = b.core := by
  unfold basePos
  dsimp only
  split
  · rfl
  · split
    · rfl
    · dsimp only
      split
      · exact core_cachePos b _ _ _
      · rfl

/-! ## Vectors -/

theorem noVec_cacheIovecAddNodeEnd (b : Base) (num len : Nat) :
    (cacheIovecAddNodeEnd b num len).noVec = b.noVec := by
  unfold cacheIovecAddNodeEnd
  split <;> rfl

theorem noVec_cacheIovecMaybeAdd (h : Heap) (b : Base) (n : Node) (atEnd : Bool) (len : Nat) :
    (cacheIovecMaybeAdd h b n atEnd len).noVec = b.noVec := by
  unfold cacheIovecMaybeAdd
  split
  · rfl
  · split
    · split
      · rfl
      · split <;> rfl
    · rfl

theorem noVec_cacheIovecResetNode (h : Heap) (b : Base) (n : Node) (num : Nat) :
    (cacheIovecResetNode h b n num).noVec = b.noVec := by
  unfold cacheIovecResetNode
  split <;> rfl

theorem noVec_cacheIovecReset (conf : Conf) (b : Base) :
    (cacheIovecReset conf b).noVec = b.noVec := by
  unfold cacheIovecReset
  split
  · rfl
  · split <;> rfl

theorem noVec_cacheIovecDelNodeEnd (b : Base) (num len : Nat) :
    (cacheIovecDelNodeEnd b num len).noVec = b.noVec := by
  unfold cacheIovecDelNodeEnd
  split <;> rfl

theorem noVec_cacheIovecDelNodeBeg (b : Base) (n : Node) (num len : Nat) :
    (cacheIovecDelNodeBeg b n num len).noVec = b.noVec := by
  unfold cacheIovecDelNodeBeg
  split <;> rfl

theorem noVec_cacheIovecDelBeg (b : Base) (num : Nat) :
    (cacheIovecDelBeg b num).noVec = b.noVec := by
  unfold cacheIovecDelBeg
  split <;> rfl

theorem noVec_cacheIovecDelNodes (b : Base) (savedNum num : Nat) :
    (cacheIovecDelNodes b savedNum num).noVec = b.noVec := by
  unfold cacheIovecDelNodes
  split <;> rfl

theorem noVec_addKillIovec (b : Base) (idx : Nat) : (addKillIovec b idx).noVec = b.noVec := by
  unfold addKillIovec
  split <;> rfl

/-! ## Structure does not see the caches -/

theorem Valid.congr {bufSz : Nat} {b b' : Base} (v : Valid bufSz b) (h : b'.core = b.core) :
    Valid bufSz b' := by
  have hns : b'.nodes = b.nodes := nodes_of_core h
  have hu : b'.used = b.used := used_of_core h
  have hl : b'.len = b.len := len_of_core h
  have hn : b'.num = b.num := (congrArg Base.num h :)
  have he : b'.endNode = b.endNode := (congrArg Base.endNode h :)
  have hf : b'.nodeUsed = b.nodeUsed := (congrArg Base.nodeUsed h :)
  refine ⟨?_, ?_, ?_, ?_, ?_, ?_, ?_, ?_⟩
  · rw [hl, hu, hns]; exact v.len
  · rw [hn, hns]; exact v.num
  · rw [he, hns]; exact v.endNode
  · rw [hns]; exact v.pos
  · rw [hu, hns]; exact v.used
  · rw [hns, hf]; exact v.flags
  · rw [hns]; exact v.buf
  · rw [hns]; exact v.max

theorem content_congr {h : Heap} {b b' : Base} (hc : b'.core = b.core) :
    content ⟨h, b'⟩ = content ⟨h, b⟩ := by
  unfold content
  dsimp only
  rw [nodes_of_core hc, used_of_core hc]

/-! ## The C string cache -/

/-- The callbacks leave the cache its reference. -/
theorem cacheCstrCb_ref (pos len : Nat) (type : CacheType) (data : CstrData) :
    (cacheCstrCb pos len type data).ref = data.ref := by
  unfold cacheCstrCb
  dsimp only
  repeat' split
  all_goals rfl

/-- An empty cache stays empty. -/
theorem cacheCstrCb_of_zero {data : CstrData} (h : data.len = 0) (pos len : Nat)
    (type : CacheType) : cacheCstrCb pos len type data = data := by
  unfold cacheCstrCb
  dsimp only
  rw [if_pos (.inr h)]

/-! ## The position cache -/

variable {q : Prop} {b b' : Base}

/-- Nodes that start before `p` stay where they are. -/
def KeepsTo (p : Nat) (ns ns' : List Node) : Prop :=
  ∀ id k i, Sits ns id k i → k < p → Sits ns' id k i

theorem KeepsTo.refl (p : Nat) (ns : List Node) : KeepsTo p ns ns := fun _ _ _ h _ => h

/-- An edit behind the beginning of a node keeps what starts there or earlier. -/
theorem keepsTo_edit {p : Nat} (pre : List Node) {n n' : Node} (post post' : List Node)
    (hid : n'.id = n.id) (hp : p ≤ lens pre + n.len) :
    KeepsTo p (pre ++ n :: post) (pre ++ n' :: post') := by
  intro id k i hs hk
  simp only [sits_append, sits_cons] at hs ⊢
  rcases hs with hs | ⟨k', i', rfl, rfl, ⟨he, rfl, rfl⟩ | ⟨k'', i'', rfl, -, -⟩⟩
  · exact .inl hs
  · exact .inr ⟨0, 0, rfl, rfl, .inl ⟨hid.trans he, rfl, rfl⟩⟩
  · omega

theorem PosOk.weaken (pk : PosOk q b) : PosOk False b := by
  intro id hid hc
  obtain ⟨h1, k, i, hk, hs, -⟩ := pk id hid hc
  exact ⟨h1, k, i, hk, hs, False.elim⟩

theorem PosOk.congr (pk : PosOk q b) (hp : b'.posData = b.posData) (hns : b'.nodes = b.nodes)
    (hu : b'.used = b.used) (hc : b'.cacheAvailable = b.cacheAvailable) : PosOk q b' := by
  unfold PosOk
  rw [hp, hns, hu, hc]
  exact pk

theorem PosOk.of_noVec (pk : PosOk q b) (h : b'.noVec = b.noVec) : PosOk q b' :=
  pk.congr (posData_of_noVec h) (congrArg Base.nodes h :) (congrArg Base.used h :)
    (congrArg Base.cacheAvailable h :)

/-- Nothing is cached. -/
theorem posOk_of_none (h : b.posData.node = none) : PosOk q b := by
  intro id hid
  rw [h] at hid
  cases hid

/-- The position cache is right if the cached node starts before `p`. -/
def PosUpTo (q : Prop) (p : Nat) (b : Base) : Prop :=
  ∀ id, b.posData.node = some id → b.cacheAvailable = true → 1 ≤ b.posData.pos ∧
    ∃ k i, b.posData.pos + b.used = k + 1 ∧
      (k < p → Sits b.nodes id k i ∧ (q → b.posData.num = i + 1))

theorem PosOk.upTo (pk : PosOk q b) (p : Nat) : PosUpTo q p b := by
  intro id hid hc
  obtain ⟨h1, k, i, hk, hs, hq⟩ := pk id hid hc
  exact ⟨h1, k, i, hk, fun _ => ⟨hs, hq⟩⟩

/-- An edit that keeps what starts before `p`. -/
theorem PosUpTo.edit {p : Nat} (pk : PosUpTo q p b) (hp : b'.posData = b.posData)
    (hu : b'.used = b.used) (hc : b'.cacheAvailable = b.cacheAvailable)
    (hk : KeepsTo p b.nodes b'.nodes) : PosUpTo q p b' := by
  unfold PosUpTo
  rw [hp, hu, hc]
  intro id hid hav
  obtain ⟨h1, k, i, hk', hs⟩ := pk id hid hav
  exact ⟨h1, k, i, hk', fun hlt => ⟨hk id k i (hs hlt).1 hlt, (hs hlt).2⟩⟩

theorem PosUpTo.of_noVec {p : Nat} (pk : PosUpTo q p b) (h : b'.noVec = b.noVec) :
    PosUpTo q p b' := by
  have hns : b'.nodes = b.nodes := (congrArg Base.nodes h :)
  apply pk.edit (posData_of_noVec h) (congrArg Base.used h :) (congrArg Base.cacheAvailable h :)
  rw [hns]
  exact KeepsTo.refl p b.nodes

/-- The callback drops a cached node that does not start before `p`. -/
private theorem PosUpTo.cbs {p pos len : Nat} {type : CacheType} (pk : PosUpTo q p b)
    (hkeep : ∀ id, (cachePosCb pos type b.posData).node = some id →
      cachePosCb pos type b.posData = b.posData ∧
      (1 ≤ b.posData.pos → b.posData.pos + b.used ≤ p)) :
    PosOk q (cacheCbs b pos len type) := by
  intro id hid hav
  change (cachePosCb pos type b.posData).node = some id at hid
  change b.cacheAvailable = true at hav
  obtain ⟨he, hlt⟩ := hkeep id hid
  rw [he] at hid
  obtain ⟨h1, k, i, hk', hs⟩ := pk id hid hav
  have hk := hs (by have := hlt h1; omega)
  simp only [cacheCbs, he]
  exact ⟨h1, k, i, hk', hk⟩

/-- Only what starts at or before the position of an insertion stays cached. -/
theorem PosUpTo.cacheAdd {pos : Nat} (pk : PosUpTo q (pos + b.used) b) (len : Nat) :
    PosOk q (cacheAdd b pos len) := by
  unfold Vstr.cacheAdd
  split
  · apply pk.cbs
    intro id hid
    unfold cachePosCb at hid ⊢
    split at hid
    · rename_i hn
      rw [hn] at hid
      cases hid
    · rename_i hn
      rw [if_neg hn]
      split at hid
      · rename_i hle
        rw [if_pos hle]
        exact ⟨rfl, fun _ => by omega⟩
      · simp at hid
  · rename_i hav
    intro id _ hav'
    exact absurd hav' hav

/-- Only what starts before the position of a deletion stays cached. -/
theorem PosUpTo.cacheDel {pos : Nat} (pk : PosUpTo q (pos + b.used) b) (len : Nat) :
    PosOk q (cacheDel b (pos + 1) len) := by
  unfold Vstr.cacheDel
  split
  · apply pk.cbs
    intro id hid
    unfold cachePosCb at hid ⊢
    split at hid
    · rename_i hn
      rw [hn] at hid
      cases hid
    · rename_i hn
      rw [if_neg (by simp)] at hid
      rw [if_neg hn, if_neg (by simp)]
      split at hid
      · rename_i hle
        rw [if_pos hle]
        exact ⟨rfl, fun _ => by omega⟩
      · simp at hid
  · rename_i hav
    intro id _ hav'
    exact absurd hav' hav

/-- A deletion from the first byte on leaves nothing cached. -/
theorem PosOk.cacheDel_front (pk : PosOk q b) (len : Nat) (hp : b'.posData = b.posData)
    (hc : b'.cacheAvailable = b.cacheAvailable) : PosOk q (cacheDel b' 1 len) := by
  unfold Vstr.cacheDel
  split
  · rename_i hav
    rw [hc] at hav
    intro id hid _
    exfalso
    change (cachePosCb 1 .del b'.posData).node = some id at hid
    rw [hp] at hid
    unfold cachePosCb at hid
    split at hid
    · rename_i hn
      rw [hn] at hid
      cases hid
    · rw [if_neg (by simp)] at hid
      split at hid
      · rename_i hle
        have := (pk id hid hav).1
        omega
      · simp at hid
  · rename_i hav
    intro id _ hav'
    exact absurd hav' hav

/-- Remembering the node that was found. -/
theorem posOk_cachePos {bufSz : Nat} {pos : Nat} {f : Found} {pre post : List Node} {n : Node}
    (pk : PosOk q b) (v : Valid bufSz b) (hat : At b pos f pre n post) (hpre : pre ≠ [])
    (hq : q → f.num = pre.length + 1) : PosOk q (cachePos b n.id (pos - f.pos + 1) f.num) := by
  unfold cachePos
  split
  · intro id hid _
    simp only [Option.some.injEq] at hid
    have hpos := hat.pos
    have hused : b.used < lens pre := by
      obtain ⟨m, ms, rfl⟩ := List.exists_cons_of_ne_nil hpre
      have hns := hat.nodes
      rw [List.cons_append] at hns
      have hm : 0 < m.len := v.pos m (by rw [hns]; exact List.mem_cons_self)
      rw [lens_cons]
      by_cases hu : b.used = 0
      · omega
      · obtain ⟨k, ks, hk, -, hlt⟩ := v.used hu
        rw [hns, List.cons.injEq] at hk
        rw [hk.1]
        omega
    refine ⟨Nat.le_add_left 1 _, lens pre, pre.length, ?_,
      ⟨pre, n, post, hat.nodes, hid, rfl, rfl⟩, hq⟩
    dsimp only
    omega
  · exact pk

/-- Finding a position keeps the position cache right. -/
theorem posOk_basePos {bufSz : Nat} {pos : Nat} (v : Valid bufSz b)
    (hd : (b.nodes.map Node.id).Nodup) (pk : PosOk q b) (h1 : 1 ≤ pos) (h2 : pos ≤ b.len)
    (cache : Bool) : PosOk q (basePos b pos cache).2 := by
  obtain ⟨pre, n, post, hat, hnum, e | ⟨hpre, e⟩⟩ := basePos_at v hd pk h1 h2 cache
  · rw [e]; exact pk
  · rw [e]; exact posOk_cachePos pk v hat hpre hnum

/-! ## The vectors -/

/-- `vstr__cache_iovec_check`: vectors that are up to date are those of the nodes. -/
def IovecOk (s : St) : Prop :=
  s.base.iovecUptoDate = true → s.base.nodes ≠ [] → ∃ vec, s.base.vec = some vec ∧
    s.base.num ≤ vec.sz ∧ ∀ (i : Nat) (m : Node), s.base.nodes[i]? = some m →
      vec.v (vec.off + i) = nodeIovec s.heap (if i = 0 then s.base.used else 0) m ∧
      vec.t (vec.off + i) = m.type

end Vstr
