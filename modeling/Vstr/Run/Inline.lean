import Vstr.Run.Calls

/-!
# The inline paths and the functions behind them

`vstr_add_buf`, `vstr_add_rep_chr` and `vstr_del` handle the common cases in the header:
appending into the last node, and deleting inside the first or the last one. They patch
the vectors and the caches by hand. The state they leave is the one that the function
behind them leaves, but for a cached node that they forget.
-/

namespace Vstr

open Memory

/-- The calls that have an inline path. -/
inductive InlineCall where
  | addBuf (pos : Nat) (buffer : Addr) (len : Nat)
  | addRepChr (pos : Nat) (chr : UInt8) (len : Nat)
  | del (pos len : Nat)

/-- The guard of the inline deletion from the beginning of the first node. -/
def DelFastBegOk (b : Base) (pos len : Nat) : Prop := pos = 1 ∧ len + b.used < (b.node 0).len

/-- The guard of the inline deletion from the end of the last node. -/
def DelFastEndOk (b : Base) (pos len : Nat) : Prop :=
  pos > sizeSub b.len ((b.node (b.indexOf (b.endNode.getD 0))).len +
    (if (b.nodes.head?.map Node.id) = b.endNode then b.used else 0) - 1) ∧
    len = scPosdiff pos b.len

namespace InlineCall

/-- The function of the header. -/
def inlined (s : St) : InlineCall → Bool × St
  | addBuf pos buffer len => Vstr.addBuf s pos buffer len
  | addRepChr pos chr len => Vstr.addRepChr s pos chr len
  | del pos len => Vstr.del s pos len

/-- The function behind it. -/
def behind (s : St) : InlineCall → Bool × St
  | addBuf pos buffer len => externAddBuf s pos buffer len
  | addRepChr pos chr len => externAddRepChr s pos chr len
  | del pos len => externDel s pos len

/-- The arguments are in range, and there is something to do. -/
def InRange (b : Base) : InlineCall → Prop
  | addBuf pos _ len => pos ≤ b.len ∧ 0 < len
  | addRepChr pos _ len => pos ≤ b.len ∧ 0 < len
  | del pos len => 1 ≤ pos ∧ pos + len ≤ b.len + 1 ∧ 0 < len

/-- The header does not call the function behind it. -/
def Guard (s : St) : InlineCall → Prop
  | addBuf pos _ len => addFastOk s pos len = true
  | addRepChr pos _ len => addFastOk s pos len = true
  | del pos len => (s.base.cacheAvailable = false ∨ s.base.cacheInternal = true) ∧
      (DelFastBegOk s.base pos len ∨ DelFastEndOk s.base pos len)

end InlineCall

/-- The cached C string is a slice of the string. -/
def CstrIn (b : Base) : Prop :=
  ∀ data, b.cacheAvailable = true → b.cstr = some data → data.ref ≠ none → data.len ≠ 0 →
    1 ≤ data.pos ∧ data.pos + data.len ≤ b.len + 1

/-- The same state, but for a cached node that `t` may have forgotten. -/
structure Forgets (t u : St) : Prop where
  /-- Memory, references and configurations. -/
  heap : t.heap = u.heap
  /-- Everything in the base but the position cache. -/
  base : { t.base with posData := u.base.posData } = u.base
  /-- The position cache. -/
  posData : t.base.posData = u.base.posData ∨
    t.base.posData = { u.base.posData with node := none }

theorem Forgets.refl (t : St) : Forgets t t := ⟨rfl, rfl, .inl rfl⟩

variable {s : St} {b : Base} {pre : List Node} {n : Node} {bufSz pos len : Nat} {q : Prop}

/-! ## The caches -/

/-- The cached node starts in the string. -/
theorem PosOk.pos_le (pk : PosOk q b) (v : Valid bufSz b) {id : Nat}
    (hid : b.posData.node = some id) (hc : b.cacheAvailable = true) :
    1 ≤ b.posData.pos ∧ b.posData.pos ≤ b.len := by
  obtain ⟨h1, k, i, hk, ⟨p, m, r, hns, -, rfl, -⟩, -⟩ := pk id hid hc
  have hlen := v.len
  have hm := v.pos m (by rw [hns]; simp)
  rw [hns, lens_append, lens_cons] at hlen
  exact ⟨h1, by omega⟩

/-- A cache that is internal stays so. -/
theorem cacheInternal_or (hint : b.cacheInternal = true) :
    (b.cacheInternal || (b.cstr.isNone && !b.userData)) = b.cacheInternal := by
  rw [hint, Bool.true_or]

/-- A callback about something at the end of the string has nothing to do. -/
theorem cacheAdd_end (hi : b.cacheAvailable = false ∨ b.cacheInternal = true)
    (hp : ∀ id, b.posData.node = some id → b.cacheAvailable = true → b.posData.pos ≤ pos)
    (hc : ∀ data, b.cacheAvailable = true → b.cstr = some data → data.ref ≠ none →
      data.len ≠ 0 → scPoslast data.pos data.len ≤ pos) : cacheAdd b pos len = b := by
  unfold cacheAdd
  split
  · rename_i hav
    have hint : b.cacheInternal = true := by
      rcases hi with h | h
      · rw [h] at hav
        cases hav
      · exact h
    have hpos : cachePosCb pos .add b.posData = b.posData := by
      unfold cachePosCb
      split
      · rfl
      · rename_i hne
        obtain ⟨id, hid⟩ := Option.ne_none_iff_exists'.mp hne
        rw [if_pos ⟨rfl, hp id hid hav⟩]
    have hcstr : b.cstr.map (cacheCstrCb pos len .add) = b.cstr := by
      cases hd : b.cstr with
      | none => rfl
      | some data =>
        rw [Option.map_some, Option.some_inj]
        unfold cacheCstrCb
        dsimp only
        split
        · rfl
        · rename_i hne
          have hle := hc data hav hd (fun h => hne (.inl h)) fun h => hne (.inr h)
          split
          · rfl
          · rw [if_pos ⟨rfl, by omega⟩]
    unfold cacheCbs
    rw [hpos, hcstr, cacheInternal_or hint]
  · rfl

/-- The callback of the C string cache for a deletion. -/
theorem cacheCstrCb_del (pos len : Nat) (data : CstrData) : cacheCstrCb pos len .del data =
    if data.ref = none ∨ data.len = 0 then data
    else if scPoslast data.pos data.len < pos then data
    else if data.pos > scPoslast pos len then { data with pos := data.pos - len }
    else if scPoslast data.pos data.len > scPoslast pos len then
      { data with
        len := data.len - scPosdiff data.pos (scPoslast pos len)
        off := data.off + scPosdiff data.pos (scPoslast pos len)
        pos := pos }
    else { data with len := 0 } := by
  unfold cacheCstrCb
  simp only [reduceCtorEq, false_and, if_false, ne_eq, not_false_eq_true, true_and, if_true]

/-- The inline code for a deletion at the beginning is the callback. -/
theorem delFastBegCstr_eq {data : CstrData}
    (hc : data.ref ≠ none → data.len ≠ 0 → 1 ≤ data.pos) :
    delFastBegCstr len data = cacheCstrCb 1 len .del data := by
  rw [cacheCstrCb_del]
  unfold delFastBegCstr
  dsimp only
  by_cases hne : data.ref = none ∨ data.len = 0
  · rw [if_pos hne, if_pos hne]
  · have h1 := hc (fun h => hne (.inl h)) fun h => hne (.inr h)
    have h2 : ¬ scPoslast data.pos data.len < 1 := by
      unfold scPoslast
      omega
    rw [if_neg hne, if_neg hne, if_neg h2]
    by_cases hbeh : data.pos > scPoslast 1 len
    · rw [if_pos hbeh, if_pos hbeh]
    · rw [if_neg hbeh, if_neg hbeh]
      by_cases hall : scPoslast data.pos data.len ≤ scPoslast 1 len
      · rw [if_pos hall, if_neg (Nat.not_lt.mpr hall)]
      · rw [if_neg hall, if_pos (Nat.lt_of_not_le hall)]

/-- The inline code for a deletion at the end is the callback. -/
theorem delFastEndCstr_eq {data : CstrData} (hlen : 0 < len)
    (hc : data.ref ≠ none → data.len ≠ 0 → data.pos + data.len ≤ pos + len) :
    delFastEndCstr pos data = cacheCstrCb pos len .del data := by
  rw [cacheCstrCb_del]
  unfold delFastEndCstr
  by_cases hne : data.ref = none ∨ data.len = 0
  · rw [if_pos hne, if_pos hne]
  · have h1 := hc (fun h => hne (.inl h)) fun h => hne (.inr h)
    have h2 : data.len ≠ 0 := fun h => hne (.inr h)
    rw [if_neg hne, if_neg hne]
    by_cases hin : scPoslast data.pos data.len ≥ pos
    · rw [if_pos hin, if_neg (Nat.not_lt.mpr hin)]
      unfold scPoslast
      rw [if_neg (by omega), if_neg (by omega)]
    · rw [if_neg hin, if_pos (Nat.lt_of_not_le hin)]

/-- The inline code for the caches is the callbacks, but for the position cache. -/
theorem delFastCaches_forgets {h : Heap} {f : CstrData → CstrData}
    (hi : b.cacheAvailable = false ∨ b.cacheInternal = true)
    (hf : ∀ data, b.cacheAvailable = true → b.cstr = some data →
      f data = cacheCstrCb pos len .del data) :
    Forgets ⟨h, delFastCaches b f⟩ ⟨h, cacheDel b pos len⟩ := by
  unfold delFastCaches cacheDel
  split
  · rename_i hav
    have hint : b.cacheInternal = true := by
      rcases hi with h | h
      · rw [h] at hav
        cases hav
      · exact h
    have hcstr : b.cstr.map f = b.cstr.map (cacheCstrCb pos len .del) := by
      cases hd : b.cstr with
      | none => rfl
      | some data => rw [Option.map_some, Option.map_some, hf data hav hd]
    refine ⟨rfl, ?_, ?_⟩
    · unfold cacheCbs
      rw [cacheInternal_or hint, hcstr]
    · have hpos : (cachePosCb pos .del b.posData).pos = b.posData.pos ∧
          (cachePosCb pos .del b.posData).num = b.posData.num := by
        unfold cachePosCb
        repeat' split
        all_goals exact ⟨rfl, rfl⟩
      refine .inr ?_
      change (⟨none, b.posData.pos, b.posData.num⟩ : PosData) =
        ⟨none, (cachePosCb pos .del b.posData).pos, (cachePosCb pos .del b.posData).num⟩
      rw [hpos.1, hpos.2]
  · exact Forgets.refl _

/-- The vectors do not see the other caches. -/
theorem cacheIovecDelNodeBeg_delFastCaches (b : Base) (f : CstrData → CstrData) (n : Node)
    (num len : Nat) : cacheIovecDelNodeBeg (delFastCaches b f) n num len =
      delFastCaches (cacheIovecDelNodeBeg b n num len) f := by
  unfold cacheIovecDelNodeBeg delFastCaches
  cases hc : b.cacheAvailable <;> cases hu : b.iovecUptoDate <;> simp [Base.mapVec, hc, hu]

theorem cacheIovecDelNodeEnd_delFastCaches (b : Base) (f : CstrData → CstrData)
    (num len : Nat) : cacheIovecDelNodeEnd (delFastCaches b f) num len =
      delFastCaches (cacheIovecDelNodeEnd b num len) f := by
  unfold cacheIovecDelNodeEnd delFastCaches
  cases hc : b.cacheAvailable <;> cases hu : b.iovecUptoDate <;> simp [Base.mapVec, hc, hu]

/-! ## Positions in the last node -/

/-- The used bytes are in front of the last node, or in it. -/
theorem Valid.used_lt_lens (v : Valid bufSz b) (hns : b.nodes = pre ++ [n]) (hpre : pre ≠ []) :
    b.used < lens pre := by
  obtain ⟨m, ms, rfl⟩ := List.exists_cons_of_ne_nil hpre
  have hm := v.pos m (by rw [hns]; simp)
  rw [lens_cons]
  by_cases hu : b.used = 0
  · omega
  · obtain ⟨m', ms', hm', -, hlt⟩ := v.used hu
    rw [hns, List.cons_append, List.cons.injEq] at hm'
    rw [hm'.1]
    omega

/-- A position in the last node is found without the cache. -/
theorem basePos_last {keep : Nat} (v : Valid bufSz b) (hd : (b.nodes.map Node.id).Nodup)
    (hns : b.nodes = pre ++ [n]) (hk : lens pre < keep + b.used) (hle : keep ≤ b.len)
    (cache : Bool) :
    basePos b keep cache = (⟨pre.length, keep + b.used - lens pre, b.num⟩, b) := by
  have hlen := v.len
  have hnum := v.num
  have hlast := (v.last hd hns).2
  have hnode : b.node pre.length = n := node_of_eq hns
  rw [hns, lens_append, lens_cons, lens_nil] at hlen
  rw [hns, List.length_append, List.length_singleton] at hnum
  unfold basePos
  by_cases hpre : pre = []
  · subst hpre
    rw [lens_nil] at hlen
    rw [List.length_nil] at hnode hnum
    rw [hnode, if_pos (by omega), hnum, lens_nil, List.length_nil, Nat.sub_zero]
  · have hused := v.used_lt_lens hns hpre
    obtain ⟨m, ms, rfl⟩ := List.exists_cons_of_ne_nil hpre
    rw [node_zero_of_eq hns, if_neg (by rw [lens_cons] at hk; omega)]
    dsimp only
    rw [hlast, hnode, if_pos (by omega)]
    have hpos : keep - (b.len - n.len) = keep + b.used - lens (m :: ms) := by omega
    rw [hpos]

/-! ## The three paths -/

/-- Appending through the slow path. -/
theorem addData_fast {k : AddKind} (v : Valid s.conf.bufSz s.base)
    (hd : (s.base.nodes.map Node.id).Nodup) (pk : PosOk q s.base) (ck : CstrIn s.base)
    (hty : k.type = .buf) (hlen : 0 < len) (hok : addFastOk s pos len = true) :
    addData k s pos len = (true, addFast k s len) := by
  unfold addFastOk at hok
  simp only [decide_eq_true_eq] at hok
  obtain ⟨hne, rfl, hnt, hle, hav⟩ := hok
  obtain ⟨pre, n, hns⟩ := exists_last (v.nodes_ne_nil hne)
  obtain ⟨-, hidx⟩ := v.last hd hns
  have hnode : s.base.node pre.length = n := node_of_eq hns
  rw [hidx, hnode] at hnt hle
  have hall := v.len
  rw [hns, lens_append, lens_cons, lens_nil] at hall
  have hn := v.pos n (by rw [hns]; simp)
  have hcap : len ≤ s.conf.bufSz - n.len := by
    rwa [uintSub_of_le (v.buf n (by rw [hns]; simp) hnt)] at hle
  have hpos : s.base.len + s.base.used - lens pre = n.len := by omega
  have hset : addSetupPos s s.base.len = (some ⟨pre.length, n.len, s.base.num⟩, s) := by
    unfold addSetupPos St.pos
    rw [basePos_last v hd hns (by omega) (Nat.le_refl _), hpos]
    dsimp only
    rw [hnode, if_neg (by simp)]
  have hmax : k.max s.conf = s.conf.bufSz := by
    unfold AddKind.max
    rw [hty]
  have habs : k.absorbs s.conf n = true := by
    have hbuf : n.data = .buf := by
      unfold Node.type at hnt
      split at hnt <;> first | assumption | cases hnt
    unfold AddKind.absorbs
    rw [hbuf]
    cases k with
    | buf a => simp only [decide_eq_true_eq]; omega
    | repChr c => simp only [decide_eq_true_eq]; omega
    | _ => simp [AddKind.type] at hty
  have hmin : min (k.max s.conf - n.len) len = len := by
    rw [hmax]
    exact Nat.min_eq_right hcap
  have hfast : (addAbsorb k s ⟨pre.length, n.len, s.base.num⟩ len) = (len, addFast k s len) := by
    unfold addFast addAbsorb
    dsimp only
    rw [hidx, hnode, hmin]
  have hbase : (addFast k s len).base.noVec = { s.base with
      nodes := s.base.nodes.set pre.length { n with len := n.len + len }
      len := s.base.len + len }.noVec := by
    unfold addFast
    dsimp only
    rw [noVec_cacheIovecAddNodeEnd, hidx, hnode]
  have hcall : cacheAdd (addFast k s len).base s.base.len len = (addFast k s len).base := by
    have hc : (addFast k s len).base.cacheAvailable = s.base.cacheAvailable :=
      (congrArg Base.cacheAvailable hbase :)
    have hint : (addFast k s len).base.cacheInternal = s.base.cacheInternal :=
      (congrArg Base.cacheInternal hbase :)
    apply cacheAdd_end
    · rw [hc, hint]
      simpa using hav
    · intro id hid hc'
      rw [posData_of_noVec hbase] at hid ⊢
      exact (pk.pos_le v hid (hc ▸ hc')).2
    · intro data hc' hdata hr hl
      rw [cstr_of_noVec hbase] at hdata
      have hin := ck data (hc ▸ hc') hdata hr hl
      unfold scPoslast
      omega
  unfold addData
  rw [if_pos ⟨hne, hne⟩, addAfter, hset]
  unfold addAt
  dsimp only
  rw [hnode, if_pos ⟨hty, hnt, hle⟩]
  dsimp only
  rw [if_pos habs, hfast]
  dsimp only
  rw [if_pos (Nat.sub_self len), hcall]

/-- The base of the inline deletion from the beginning, before the caches. -/
def begFastBase (b : Base) (n : Node) (ns : List Node) (len : Nat) : Base :=
  match n.data with
  | .buf => { b with len := b.len - len, used := (b.used + len) % 2 ^ 16, nodes := n :: ns }
  | data => { b with
      len := b.len - len
      nodes := { n with data := shiftPayload data len, len := n.len - len } :: ns }

/-- Only the type of the node matters to its vector. -/
theorem cacheIovecDelNodeBeg_type (b : Base) {n n' : Node} (h : n'.type = n.type)
    (num len : Nat) : cacheIovecDelNodeBeg b n' num len = cacheIovecDelNodeBeg b n num len := by
  unfold cacheIovecDelNodeBeg
  rw [h]

/-- The loop stops at a first node that is only partly deleted. -/
theorem delBegLoop_first (s : St) {n : Node} (ns : List Node) (hlen : len ≠ 0)
    (hlt : len < n.len) : delBegLoop [] (n :: ns) len s =
      (len, { s with base := { (delBegNode s.base n len).2 with
        nodes := (delBegNode s.base n len).1 :: ns } }) := by
  have hrun : endsRun [] n = false := rfl
  rw [delBegLoop, if_neg hlen]
  simp only [hrun, Bool.false_eq_true, if_false, if_pos hlt, delBegCleanup]

/-- What the slow path does to a first node that is only partly deleted. -/
theorem delBeg_first (v : Valid bufSz s.base) {ns : List Node} (hns : s.base.nodes = n :: ns)
    (hlen : 0 < len) (hlt : len + s.base.used < n.len) :
    delBeg s len = ⟨s.heap,
      cacheDel (cacheIovecDelNodeBeg (begFastBase s.base n ns len) n 1 len) 1 len⟩ := by
  unfold delBeg
  dsimp only
  rw [hns]
  dsimp only
  by_cases hu : s.base.used = 0
  · rw [if_neg (by simp [hu]), if_neg (by simp [hu])]
    rw [delBegLoop_first _ ns (by omega) (by omega)]
    unfold delBegNode begFastBase
    dsimp only
    rw [if_pos (by omega)]
    cases hdat : n.data <;> dsimp only <;> congr 2
    · rw [hu, Nat.zero_add]
      exact cacheIovecDelNodeBeg_type _ rfl 1 len
    all_goals
      refine cacheIovecDelNodeBeg_type _ ?_ 1 len
      simp [Base.node, Node.type, shiftPayload, hdat]
  · obtain ⟨m, ms, hm, hbuf, -⟩ := v.used hu
    rw [hns, List.cons.injEq] at hm
    rw [← hm.1] at hbuf
    rw [if_pos ⟨hu, by omega⟩]
    unfold begFastBase
    simp only [hbuf]

/-- Deleting from the beginning of the first node through the slow path. -/
theorem externDel_fastBeg (v : Valid s.conf.bufSz s.base) (ck : CstrIn s.base)
    (hi : s.base.cacheAvailable = false ∨ s.base.cacheInternal = true)
    (hlen : 0 < len) (hle : len ≤ s.base.len) (hok : DelFastBegOk s.base 1 len) :
    ∃ t, externDel s 1 len = (true, t) ∧ Forgets (delFastBeg s len) t := by
  obtain ⟨n, ns, hns⟩ := List.exists_cons_of_ne_nil (v.nodes_ne_nil (by omega))
  have hlt := hok.2
  rw [node_zero_of_eq hns] at hlt
  have hall := v.len
  rw [hns, lens_cons] at hall
  have hmod := Nat.mod_le (scPoslast 1 len) (2 ^ 64)
  unfold externDel
  rw [if_neg (by unfold scPoslast at hmod ⊢; omega), if_pos (Nat.le_refl 1), if_neg (by omega),
    delBeg_first v hns hlen hlt]
  refine ⟨_, rfl, ?_⟩
  have hfast : delFastBeg s len = ⟨s.heap,
      delFastCaches (cacheIovecDelNodeBeg (begFastBase s.base n ns len) n 1 len)
        (delFastBegCstr len)⟩ := by
    unfold delFastBeg begFastBase
    simp only [hns, sizeSub_of_le hle]
    rewrite [cacheIovecDelNodeBeg_delFastCaches]
    cases n.data <;> rfl
  have hvec := noVec_cacheIovecDelNodeBeg (begFastBase s.base n ns len) n 1 len
  have hb : (begFastBase s.base n ns len).cacheAvailable = s.base.cacheAvailable ∧
      (begFastBase s.base n ns len).cacheInternal = s.base.cacheInternal ∧
      (begFastBase s.base n ns len).cstr = s.base.cstr := by
    unfold begFastBase
    split <;> exact ⟨rfl, rfl, rfl⟩
  have hav := (congrArg Base.cacheAvailable hvec :).trans hb.1
  rw [hfast]
  apply delFastCaches_forgets
  · have hint := (congrArg Base.cacheInternal hvec :).trans hb.2.1
    rcases hi with h | h
    · exact .inl (hav.trans h)
    · exact .inr (hint.trans h)
  · intro data hc hdata
    rw [cstr_of_noVec hvec, hb.2.2] at hdata
    exact delFastBegCstr_eq fun hr hl => (ck data (hav.symm.trans hc) hdata hr hl).1

/-- Deleting from the end of the last node through the slow path. -/
theorem externDel_fastEnd (v : Valid s.conf.bufSz s.base)
    (hd : (s.base.nodes.map Node.id).Nodup) (ck : CstrIn s.base)
    (hi : s.base.cacheAvailable = false ∨ s.base.cacheInternal = true) (h1 : 1 ≤ pos)
    (hlen : 0 < len) (hle : pos + len ≤ s.base.len + 1) (hok : DelFastEndOk s.base pos len) :
    ∃ t, externDel s pos len = (true, t) ∧ Forgets (delFastEnd s pos len) t := by
  obtain ⟨pre, n, hns⟩ := exists_last (v.nodes_ne_nil (by omega))
  have hidx := (v.last hd hns).2
  have hnode : s.base.node pre.length = n := node_of_eq hns
  obtain ⟨hg, hl⟩ := hok
  rw [hidx, hnode] at hg
  obtain ⟨hk, hk'⟩ := delFastEnd_guard v hd hns h1 (by omega) hg
  unfold scPosdiff at hl
  have hall := v.len
  rw [hns, lens_append, lens_cons, lens_nil] at hall
  have hmod := Nat.mod_le (scPoslast pos len) (2 ^ 64)
  have hmod' := Nat.mod_le (pos - 1 + len) (2 ^ 64)
  unfold externDel
  rw [if_neg (by unfold scPoslast at hmod ⊢; omega), if_neg (by omega)]
  have hsame : (if (pos - 1 + len) % 2 ^ 64 ≥ s.base.len then s.base.len - (pos - 1) else len) =
      len := by
    split <;> omega
  dsimp only
  rw [hsame]
  unfold delAfter
  rw [basePos_last v hd hns hk' (by omega), sizeSub_of_le (show len ≤ s.base.len by omega)]
  dsimp only
  rw [hnode]
  have hpos : pos - 1 + s.base.used - lens pre = n.len - len := by omega
  have htmp : n.len - (n.len - len) = len := by omega
  have hp : pos - 1 + 1 = pos := by omega
  have hcut : n.len - len ≠ n.len := by omega
  rw [hpos, htmp, if_neg (by omega), if_pos (Nat.sub_self len), if_pos hcut, hp]
  refine ⟨_, rfl, ?_⟩
  have hset : s.base.nodes.set pre.length { n with len := n.len - len } =
      pre ++ [{ n with len := n.len - len }] := by
    rw [hns]
    simp
  have hfast : delFastEnd s pos len = ⟨s.heap, delFastCaches
      { cacheIovecDelNodeEnd { s.base with len := s.base.len - len } s.base.num len with
        nodes := s.base.nodes.set pre.length { n with len := n.len - len } }
      (delFastEndCstr pos)⟩ := by
    unfold delFastEnd
    dsimp only
    rw [hidx, hnode, cacheIovecDelNodeEnd_delFastCaches]
    unfold cacheIovecDelNodeEnd
    split <;> rfl
  rw [hfast]
  have hvec := noVec_cacheIovecDelNodeEnd { s.base with len := s.base.len - len } s.base.num len
  have hav := (congrArg Base.cacheAvailable hvec :)
  apply delFastCaches_forgets
  · rcases hi with h | h
    · exact .inl (hav.trans h)
    · exact .inr ((congrArg Base.cacheInternal hvec :).trans h)
  · intro data hc hdata
    have hdata' : s.base.cstr = some data := (cstr_of_noVec hvec).symm.trans hdata
    refine delFastEndCstr_eq hlen fun hr hl' => ?_
    have := ck data (hav.symm.trans hc) hdata' hr hl'
    omega

/-- Where the header does the work itself, it leaves the state that the function behind it
would have left, but for a cached node that it may forget. -/
theorem inline_forgets (v : Valid s.conf.bufSz s.base) (hd : (s.base.nodes.map Node.id).Nodup)
    (pk : PosOk q s.base) (ck : CstrIn s.base) (c : InlineCall) (hr : c.InRange s.base)
    (hg : c.Guard s) : (c.inlined s).1 = true ∧ (c.behind s).1 = true ∧
      Forgets (c.inlined s).2 (c.behind s).2 := by
  cases c with
  | addBuf pos a len =>
    obtain ⟨hpos, hlen⟩ := hr
    have hok : addFastOk s pos len = true := hg
    have e : externAddBuf s pos a len = (true, addFast (.buf a) s len) := by
      unfold externAddBuf
      rw [if_neg (by omega)]
      exact addData_fast v hd pk ck rfl hlen hok
    simp only [InlineCall.inlined, InlineCall.behind, e]
    unfold addBuf
    rw [if_neg (by omega), if_neg (by omega), if_pos hok]
    exact ⟨rfl, trivial, Forgets.refl _⟩
  | addRepChr pos chr len =>
    obtain ⟨hpos, hlen⟩ := hr
    have hok : addFastOk s pos len = true := hg
    have e : externAddRepChr s pos chr len = (true, addFast (.repChr chr) s len) := by
      unfold externAddRepChr
      rw [if_neg (by omega)]
      exact addData_fast v hd pk ck rfl hlen hok
    simp only [InlineCall.inlined, InlineCall.behind, e]
    unfold addRepChr
    rw [if_neg (by omega), if_neg (by omega), if_pos hok]
    exact ⟨rfl, trivial, Forgets.refl _⟩
  | del pos len =>
    obtain ⟨h1, hle, hlen⟩ := hr
    obtain ⟨hi, hg⟩ := hg
    have hav : ¬ s.base.cacheAvailable = true ∨ s.base.cacheInternal = true := by
      rcases hi with h | h
      · exact .inl (by simp [h])
      · exact .inr h
    simp only [InlineCall.inlined, InlineCall.behind]
    unfold del delSum
    rw [if_neg (by omega), if_neg (by omega), if_pos hav]
    by_cases hb : pos = 1 ∧ len + s.base.used < (s.base.node 0).len
    · obtain ⟨rfl, -⟩ := id hb
      obtain ⟨t, e, hf⟩ := externDel_fastBeg v ck hi hlen (by omega) hb
      rw [if_pos hb, e]
      exact ⟨rfl, rfl, hf⟩
    · have he : DelFastEndOk s.base pos len := hg.resolve_left hb
      obtain ⟨t, e, hf⟩ := externDel_fastEnd v hd ck hi h1 hlen hle he
      rw [if_neg hb, e]
      dsimp only
      unfold DelFastEndOk at he
      rw [if_pos he]
      exact ⟨rfl, rfl, hf⟩

/-- The first byte of a string of two nodes. -/
theorem inline_forgets_abcd : (InlineCall.del 1 1).InRange abcd.base ∧
    (InlineCall.del 1 1).Guard abcd ∧
    Forgets ((InlineCall.del 1 1).inlined abcd).2 ((InlineCall.del 1 1).behind abcd).2 := by
  have hr : (InlineCall.del 1 1).InRange abcd.base := ⟨by decide, by decide, by decide⟩
  have hg : (InlineCall.del 1 1).Guard abcd := ⟨.inr (by decide), .inl ⟨rfl, by decide⟩⟩
  have hc : abcd.base.cstr = none := by decide
  obtain ⟨P, u, -, -⟩ := callRun_abcd.usable usable_blank fun m hm => by cases hm
  have ck : CstrIn abcd.base := by
    intro data _ hdata
    rw [hc] at hdata
    cases hdata
  exact ⟨hr, hg, (inline_forgets u.sound.valid u.sound.owned.nodes.nodup u.posOk ck _ hr hg).2.2⟩

end Vstr
