import Vstr.Export.Ref

/-!
# The C string cache

`vstr_export_cstr_ptr` and its relatives keep the last slice they exported, in memory that
belongs to the cache, and write to it again when nobody else has the reference.
-/

namespace Vstr

open Memory Splice

variable {E : Env} {P P' P'' : Own} {s s' s'' : St} {q : Prop} {b b' : Base} {pos len : Nat}

/-- The cached slice is in memory that came with its reference. -/
def CstrMem (P : Own) (h : Heap) (b : Base) : Prop :=
  ∀ data r, b.cstr = some data → data.ref = some r →
    P (h.refs r).ptr.blk = .lent r ∧
      (h.refs r).ptr.off + data.sz ≤ h.size (h.refs r).ptr.blk

/-- The string is the same, the cached slice may be another one. -/
structure CstrKept (q : Prop) (E : Env) (P : Own) (s : St) (P' : Own) (s' : St) : Prop where
  /-- The state is sound; the cache holds its reference. -/
  sound : Sound (E.hold (cstrHeld s'.base)) P' s'
  /-- Foreign blocks are left alone. -/
  frame : Frame E P s.heap P' s'.heap
  /-- The position cache is right. -/
  posOk : PosOk q s'.base
  /-- The structure is the same. -/
  core : s'.base.core = s.base.core
  /-- The content is the same. -/
  content : content s' = content s
  /-- The memory of the cached slice. -/
  mem : CstrMem P' s'.heap s'.base
  /-- The cache is as coherent as it was. -/
  ok : CstrOk s → CstrOk s'

theorem cstrHeld_none (data : CstrData) (h : b.cstr = some data) (hr : data.ref = none) :
    cstrHeld b = fun _ => 0 := by
  funext r
  simp only [cstrHeld, h, hr, reduceCtorEq, if_false]

theorem cstrHeld_some {data : CstrData} {r : Nat} (h : b.cstr = some data)
    (hr : data.ref = some r) :
    cstrHeld b = oneUse r := by
  funext r'
  simp only [cstrHeld, h, hr, Option.some.injEq, oneUse]

/-- The state with a slice in its C string cache. -/
theorem cstrKept_setCstr {data : CstrData} {r : Nat} (sd : Sound (E.hold (oneUse r)) P' s')
    (fr : Frame E P s.heap P' s'.heap) (pk : PosOk q s'.base) (hcore : s'.base.core = s.base.core)
    (hc : content s' = content s) (hr : data.ref = some r)
    (hmem : P' (s'.heap.refs r).ptr.blk = .lent r)
    (hsz : (s'.heap.refs r).ptr.off + data.sz ≤ s'.heap.size (s'.heap.refs r).ptr.blk)
    (hok : data.len ≠ 0 → data.Ok s' r) : CstrKept q E P s P' (s'.setCstr data) where
  sound := by
    rw [cstrHeld_some (show (s'.setCstr data).base.cstr = some data from rfl) hr]
    exact sd.congr rfl
  frame := fr
  posOk := pk
  core := hcore
  content := hc
  mem := by
    intro d r' hd hr'
    obtain rfl : data = d := Option.some.inj hd
    rw [hr] at hr'
    cases hr'
    exact ⟨hmem, hsz⟩
  ok := by
    intro _ d r' _ hd hr' hne
    obtain rfl : data = d := Option.some.inj hd
    rw [hr] at hr'
    cases hr'
    have ok := hok hne
    exact ⟨ok.one_le, ok.le_len, ok.bytes, ok.bound⟩

/-- `vstr__export_cstr_ref`: a fresh copy with its zero byte. -/
theorem exportCstrMake_spec (sd : Sound E P s) (pk : PosOk q s.base) (ps : PtrSafe E P s.base.nodes)
    (h1 : 1 ≤ pos) (h2 : pos + len ≤ s.base.len + 1) :
    ∃ P' s', (exportCstrMake s pos len = (none, s') ∧ Kept q E P s P' s' ∧ s'.base = s.base) ∨
      (exportCstrMake s pos len = (some s.heap.next, s') ∧ P' = P.lendNext s.heap.next ∧
        Exported q E P s s.heap.next P' s' ∧ Looked s.base pos s'.base ∧
        s'.heap.refs s.heap.next = ⟨⟨.ext s.heap.next, 0⟩, 1, .free⟩ ∧
        s'.heap.size (.ext s.heap.next) = len + 1 ∧
        HoldsAt s'.heap ⟨.ext s.heap.next, 0⟩ (slice (content s) pos len ++ [some 0])) := by
  unfold exportCstrMake
  rcases refMakeMalloc_cases s.heap (len + 1) with e | e
  · rw [e]
    have mk := (makes_malloc (E := E) sd.owned.heap).trans
      (makes_mallocBad sd.owned.heap.malloc s.base.conf)
    exact ⟨P, _, .inl ⟨rfl, Kept.of_heap sd pk (sd.owned.makes mk) mk.frame mk.mem, rfl⟩⟩
  · have hr : (s.heap.lendNext (len + 1)).refs s.heap.next = ⟨⟨.ext s.heap.next, 0⟩, 1, .free⟩ :=
      s.heap.malloc.2.newRef_self _
    obtain ⟨bs, b', e', l, pk', hm⟩ := exportCstrBuf_spec
      (s := ⟨s.heap.lendNext (len + 1), s.base⟩) (sd.lendNext (len + 1)) pk h1 h2
      ⟨.ext s.heap.next, 0⟩
      (sd.apart_lendNext ps (len + 1))
    rw [content_lendNext sd] at hm
    rw [e]
    dsimp only
    rw [hr, e']
    refine ⟨_, _, .inr ⟨rfl, rfl, exported_fresh sd ps l pk' (len + 1) (bs ++ [0]), l, hr, ?_, ?_⟩⟩
    · exact Function.update_self _ _ _
    · have hm' : Matches (slice (content s) pos len ++ [some 0]) (bs ++ [0]) :=
        hm.append (matches_some [0])
      unfold HoldsAt
      rw [← hm'.length]
      change Matches _ (read (write s.heap.mem ⟨.ext s.heap.next, 0⟩ (bs ++ [0])) _ _)
      rw [read_write_self]
      exact hm'

/-- The slice went into the cache. -/
structure CstrExported (q : Prop) (E : Env) (P : Own) (s : St) (pos len : Nat) (P' : Own) (s' : St)
    (r off : Nat) : Prop extends CstrKept q E P s P' s' where
  /-- The cache has the reference. -/
  held : ∃ data, s'.base.cstr = some data ∧ data.ref = some r
  /-- The bytes. -/
  bytes : CstrOk s → HoldsAt s'.heap ((s'.heap.refs r).ptr.add off)
    (slice (Vstr.content s) pos len ++ [some 0])

/-- The end of `vstr__export_cstr_cache`, when the cache holds no reference. -/
theorem exportCstrFresh_spec (sd : Sound E P s) (pk : PosOk q s.base)
    (ps : PtrSafe E P s.base.nodes) {data : CstrData} (hc : s.base.cstr = some data)
    (hr : data.ref = none) (h1 : 1 ≤ pos) (h2 : pos + len ≤ s.base.len + 1) :
    ∃ P' s', (exportCstrFresh s pos len = (none, s') ∧ CstrKept q E P s P' s') ∨
      ∃ r off, exportCstrFresh s pos len = (some (r, off), s') ∧
        CstrExported q E P s pos len P' s' r off := by
  unfold exportCstrFresh
  obtain ⟨P', s', ⟨e, k, hb⟩ | ⟨e, rfl, ex, l, href, hsz, hh⟩⟩ := exportCstrMake_spec sd pk ps h1 h2
  · rw [e]
    refine ⟨P', s', .inl ⟨rfl, ?_, k.frame, k.posOk, by rw [hb], k.content, ?_, ?_⟩⟩
    · rw [hb, cstrHeld_none _ hc hr]
      exact k.sound
    · intro d r hd hr'
      rw [hb, hc] at hd
      cases hd
      rw [hr] at hr'
      cases hr'
    · intro _ d r _ hd hr'
      rw [hb, hc] at hd
      cases hd
      rw [hr] at hr'
      cases hr'
  · rw [e]
    have hlen : s'.base.len = s.base.len := len_of_core l.core
    have k : CstrKept q E P s (P.lendNext s.heap.next)
        (s'.setCstr ⟨pos, len, some s.heap.next, len + 1, 0⟩) := by
      refine cstrKept_setCstr ex.sound ex.frame ex.posOk l.core ex.content rfl ?_ ?_ ?_
      · rw [href]
        exact P.lendNext_self _
      · rw [href]
        change 0 + (len + 1) ≤ s'.heap.size (.ext s.heap.next)
        rw [hsz]
        omega
      · intro _
        refine ⟨h1, by rw [hlen]; exact h2, ?_, ?_⟩
        · rw [href, ex.content]
          exact hh
        · rw [href]
          change 0 + 0 + len + 1 ≤ s'.heap.size (.ext s.heap.next)
          rw [hsz]
          omega
    refine ⟨_, _, .inr ⟨s.heap.next, 0, rfl, k, ⟨_, rfl, rfl⟩, fun _ => ?_⟩⟩
    change HoldsAt s'.heap ((s'.heap.refs s.heap.next).ptr.add 0) _
    rw [href]
    exact hh

theorem CstrKept.refl (sd : Sound (E.hold (cstrHeld s.base)) P s) (pk : PosOk q s.base)
    (cm : CstrMem P s.heap s.base) : CstrKept q E P s P s :=
  ⟨sd, Frame.refl _ _ _, pk, rfl, rfl, cm, fun h => h⟩

theorem CstrKept.trans (f : CstrKept q E P s P' s') (g : CstrKept q E P' s' P'' s'') :
    CstrKept q E P s P'' s'' where
  sound := g.sound
  frame := f.frame.trans g.frame
  posOk := g.posOk
  core := g.core.trans f.core
  content := g.content.trans f.content
  mem := g.mem
  ok h := g.ok (f.ok h)

theorem CstrKept.exported {r off : Nat} (f : CstrKept q E P s P' s')
    (g : CstrExported q E P' s' pos len P'' s'' r off) :
    CstrExported q E P s pos len P'' s'' r off where
  toCstrKept := f.trans g.toCstrKept
  held := g.held
  bytes h := f.content ▸ g.bytes (f.ok h)

theorem makes_mallocs {h : Heap} (ok : HeapOk P h) (n : Nat) : Makes E P h P (h.mallocs n).2 := by
  induction n generalizing h with
  | zero => exact Makes.refl ok
  | succ n ih =>
    unfold Heap.mallocs
    split
    · rename_i h₁ e
      obtain rfl : h₁ = h.malloc.2 := by rw [e]
      exact makes_malloc ok
    · rename_i h₁ e
      obtain rfl : h₁ = h.malloc.2 := by rw [e]
      exact (makes_malloc ok).trans (ih ok.malloc)

/-- Only bookkeeping changed, and the cache slot if it holds nothing. -/
theorem CstrKept.of_makes {h : Heap} (sd : Sound (E.hold (cstrHeld s.base)) P s)
    (pk : PosOk q s.base) (cm : CstrMem P s.heap s.base)
    (mk : Makes (E.hold (cstrHeld s.base)) P s.heap P h) : CstrKept q E P s P ⟨h, s.base⟩ where
  sound := (Kept.of_heap sd pk (sd.owned.makes mk) mk.frame mk.mem).sound
  frame := mk.frame.unhold
  posOk := pk
  core := rfl
  content := (Kept.of_heap sd pk (sd.owned.makes mk) mk.frame mk.mem).content
  mem := by
    intro data r hd hr
    obtain ⟨hp, hsz⟩ := cm data r hd hr
    dsimp only
    rw [mk.refs, mk.frame.size _ (by rw [hp]; simp)]
    exact ⟨hp, hsz⟩
  ok := by
    intro ck data r hav hd hr hne
    have ok := ck data r hav hd hr hne
    have hc := (Kept.of_heap sd pk (sd.owned.makes mk) mk.frame mk.mem).content
    refine ⟨ok.one_le, ok.le_len, ?_, ?_⟩
    · rw [hc]
      unfold HoldsAt
      dsimp only
      rw [mk.refs, mk.mem]
      exact ok.bytes
    · dsimp only
      rw [mk.refs, mk.frame.size _ (by rw [(cm data r hd hr).1]; simp)]
      exact ok.bound

/-- The cache slot of `vstr__export_cstr_cache`. -/
theorem cstrSlot_spec (sd : Sound (E.hold (cstrHeld s.base)) P s) (pk : PosOk q s.base)
    (cm : CstrMem P s.heap s.base) :
    ∃ s', CstrKept q E P s P s' ∧ (cstrSlot s = (none, s') ∨
      ∃ data, cstrSlot s = (some data, s') ∧ s'.base.cstr = some data ∧
        s'.base.cacheAvailable = true) := by
  unfold cstrSlot
  by_cases hav : s.base.cacheAvailable = true
  · rw [if_neg (by simpa using hav)]
    cases hc : s.base.cstr with
    | some data => exact ⟨s, CstrKept.refl sd pk cm, .inr ⟨data, rfl, hc, hav⟩⟩
    | none =>
      dsimp only
      have mk := makes_mallocs (E := E.hold (cstrHeld s.base)) sd.owned.heap 2
      split
      · rename_i h e
        obtain rfl : h = (s.heap.mallocs 2).2 := by rw [e]
        exact ⟨_, CstrKept.of_makes sd pk cm (mk.trans (makes_mallocBad mk.ok _)), .inl rfl⟩
      · rename_i h e
        obtain rfl : h = (s.heap.mallocs 2).2 := by rw [e]
        have k := CstrKept.of_makes sd pk cm mk
        refine ⟨⟨(s.heap.mallocs 2).2, { s.base with cstr := some ⟨0, 0, none, 0, 0⟩ }⟩,
          ⟨?_, k.frame, pk, rfl, k.content, ?_, ?_⟩, .inr ⟨_, rfl, rfl, hav⟩⟩
        · have h0 : cstrHeld s.base = fun _ => 0 := by
            funext r
            simp only [cstrHeld, hc]
          have hsd := k.sound.congr
            (show ({ s.base with cstr := some ⟨0, 0, none, 0, 0⟩ } : Base).core = s.base.core
              from rfl)
          rw [show (St.mk (s.heap.mallocs 2).2 s.base).base = s.base from rfl, h0] at hsd
          exact hsd
        · intro data r hd hr
          cases hd
          cases hr
        · intro _ data r _ hd hr
          cases hd
          cases hr
  · rw [if_pos (by simpa using hav)]
    exact ⟨s, CstrKept.refl sd pk cm, .inl rfl⟩

/-- The cache gives up its reference. -/
theorem cstrKept_refDel (sd : Sound (E.hold (cstrHeld s.base)) P s) (pk : PosOk q s.base)
    {data : CstrData} {r : Nat} (hc : s.base.cstr = some data) (hr : data.ref = some r) :
    ∃ P', CstrKept q E P s P'
      ({ s with heap := refDel s.heap r }.setCstr { data with ref := none }) := by
  have hsd := sd
  rw [cstrHeld_some hc hr] at hsd
  obtain ⟨P', ow, fr⟩ := hsd.owned.refDel
  have k : Sound E P' ⟨refDel s.heap r, s.base⟩ := by
    have hb : (St.mk (refDel s.heap r) s.base).conf.bufSz = s.conf.bufSz := fr.bufSz _
    exact ⟨ow, by rw [hb]; exact sd.valid, by rw [hb]; exact sd.bufSz_pos,
      by rw [hb]; exact sd.bufSz_le⟩
  refine ⟨P', ?_, fr, pk, rfl, ?_, ?_, ?_⟩
  · rw [cstrHeld_none { data with ref := none } rfl rfl]
    exact k.congr rfl
  · change content ⟨refDel s.heap r, s.base⟩ = content s
    unfold content
    dsimp only
    rw [(like_refDel s.heap r).flat]
  · intro d r' hd hr'
    cases hd
    cases hr'
  · intro _ d r' _ hd hr'
    cases hd
    cases hr'

/-- No node has its bytes in memory that only the cache holds. -/
theorem apart_of_lent {E' : Env} {h : Heap} {ns : List Node} (ow : Owned E' P h ns)
    (ps : PtrSafe E P ns) {x : Blk} {r : Nat} (hx : P x = .lent r) (he : E.ext r = 0)
    (hh : heldBy ns r = 0) : Apart h ns x := by
  rintro m hm p hp rfl
  unfold exportNodePtr at hp
  cases hd : m.data with
  | buf =>
    rw [hd] at hp
    cases hp
    rw [ow.nodes.own m hm] at hx
    cases hx
  | non =>
    rw [hd] at hp
    cases hp
  | ptr a =>
    rw [hd] at hp
    cases hp
    rcases ps m hm p hd with hf | ⟨j, -, hf⟩ | ⟨r', hf, hpos⟩
    · rw [hx] at hf
      cases hf
    · rw [hx] at hf
      cases hf
    · rw [hx] at hf
      cases hf
      omega
  | ref r' off =>
    rw [hd] at hp
    cases hp
    have href : m.ref = some r' := by simp only [Node.ref, hd]
    have hne : r' ≠ r := by
      rintro rfl
      have : 0 < heldBy ns r' := List.countP_pos_iff.mpr ⟨m, hm, by simp [href]⟩
      omega
    have hpl := ow.heap.refOwn r' (ow.ref_pos hm href)
    rw [Ptr.add_blk] at hx
    unfold RefPlace at hpl
    split at hpl
    · rw [hx] at hpl
      rcases hpl with hpl | hpl
      · cases hpl
      · cases hpl
        exact hne rfl
    · obtain ⟨-, y, hy, hl⟩ := hpl
      rw [hy, hl] at hx
      cases hx
      exact hne rfl

/-- The cache writes to its memory again. -/
theorem cstrReuse_spec (sd : Sound (E.hold (cstrHeld s.base)) P s) (pk : PosOk q s.base)
    (ps : PtrSafe E P s.base.nodes) (cm : CstrMem P s.heap s.base) {data : CstrData} {r : Nat}
    (hc : s.base.cstr = some data) (hr : data.ref = some r) (hlt : len < data.sz)
    (hone : (s.heap.refs r).ref = 1) (h1 : 1 ≤ pos) (h2 : pos + len ≤ s.base.len + 1) :
    CstrExported q E P s pos len P ((exportCstrBuf s pos len (s.heap.refs r).ptr
    (len + 1)).2.setCstr
      ⟨pos, len, some r, data.sz, 0⟩) r 0 := by
  have hsd := sd
  rw [cstrHeld_some hc hr] at hsd
  obtain ⟨hlent, hsz⟩ := cm data r hc hr
  have hcount := hsd.owned.refs r
  rw [Env.hold_ext, oneUse_self] at hcount
  have hap : Apart s.heap s.base.nodes (s.heap.refs r).ptr.blk :=
    apart_of_lent hsd.owned ps hlent (by omega) (by omega)
  obtain ⟨bs, b', e, l, pk', hm⟩ := exportCstrBuf_spec hsd pk h1 h2 _ hap
  have hm' : Matches (slice (content s) pos len ++ [some 0]) (bs ++ [0]) :=
    hm.append (matches_some [0])
  have hlen : b'.len = s.base.len := len_of_core l.core
  have hcont : content ⟨s.heap.setMem (write s.heap.mem (s.heap.refs r).ptr (bs ++ [0])), b'⟩ =
      content s := by
    unfold content
    dsimp only
    rw [nodes_of_core l.core, used_of_core l.core]
    congr 1
    apply flat_congr
    intro m hm
    have hp : exportNodePtr (s.heap.setMem (write s.heap.mem (s.heap.refs r).ptr (bs ++ [0]))) m =
        exportNodePtr s.heap m := rfl
    apply nodeBytes_congr hp
    intro p hp
    exact read_write_of_ne _ _ _ (hap m hm p hp)
  have hholds : HoldsAt (s.heap.setMem (write s.heap.mem (s.heap.refs r).ptr (bs ++ [0])))
      (s.heap.refs r).ptr (slice (content s) pos len ++ [some 0]) := by
    unfold HoldsAt
    rw [← hm'.length]
    change Matches _ (read (write s.heap.mem (s.heap.refs r).ptr (bs ++ [0])) _ _)
    rw [read_write_self]
    exact hm'
  rw [e]
  refine ⟨cstrKept_setCstr (r := r) ?_ ?_ pk' l.core hcont rfl hlent hsz fun _ => ?_,
    ⟨_, rfl, rfl⟩, fun _ => hholds⟩
  · have hs : Sound (E.hold (oneUse r)) P
        ⟨s.heap.setMem (write s.heap.mem (s.heap.refs r).ptr (bs ++ [0])), s.base⟩ :=
      ⟨hsd.owned.setMem _, hsd.valid, hsd.bufSz_pos, hsd.bufSz_le⟩
    exact hs.congr l.core
  · apply frame_setMem
    rintro (hf | ⟨j, -, hf⟩ | ⟨r', hf, hpos⟩) <;> rw [hlent] at hf <;> cases hf
    omega
  · refine ⟨h1, by rw [hlen]; exact h2, by rw [hcont]; exact hholds, ?_⟩
    change (s.heap.refs r).ptr.off + 0 + len + 1 ≤ s.heap.size (s.heap.refs r).ptr.blk
    omega

/-- `vstr__export_cstr_cache`. -/
theorem exportCstrCache_spec (sd : Sound (E.hold (cstrHeld s.base)) P s) (pk : PosOk q s.base)
    (ps : PtrSafe E P s.base.nodes) (cm : CstrMem P s.heap s.base) (h1 : 1 ≤ pos)
    (h2 : pos + len ≤ s.base.len + 1) (hmax : s.base.len < 2 ^ 64) :
    ∃ P' s', (exportCstrCache s pos len = (none, s') ∧ CstrKept q E P s P' s') ∨
      ∃ r off, exportCstrCache s pos len = (some (r, off), s') ∧
        CstrExported q E P s pos len P' s' r off := by
  unfold exportCstrCache
  rw [rangeOk_of_le h1 h2, if_neg (by simp)]
  obtain ⟨s₁, k, e | ⟨data, e, hc, hav⟩⟩ := cstrSlot_spec sd pk cm
  · rw [e]
    exact ⟨P, s₁, .inl ⟨rfl, k⟩⟩
  · rw [e]
    dsimp only
    have hns : s₁.base.nodes = s.base.nodes := nodes_of_core k.core
    have hlen : s₁.base.len = s.base.len := len_of_core k.core
    have ps₁ : PtrSafe E P s₁.base.nodes := hns ▸ ps
    have h2₁ : pos + len ≤ s₁.base.len + 1 := hlen ▸ h2
    cases hr : data.ref with
    | none =>
      have hsd := k.sound
      rw [cstrHeld_none _ hc hr] at hsd
      obtain ⟨P', s', ⟨e', k'⟩ | ⟨r, off, e', ex⟩⟩ :=
        exportCstrFresh_spec hsd k.posOk ps₁ hc hr h1 h2₁
      · exact ⟨P', s', .inl ⟨e', k.trans k'⟩⟩
      · exact ⟨P', s', .inr ⟨r, off, e', k.exported ex⟩⟩
    | some r =>
      dsimp only
      by_cases hhit : data.len ≠ 0 ∧ pos ≥ data.pos ∧ sizeSub data.len (pos - data.pos) = len
      · rw [if_pos hhit]
        obtain ⟨hne, hge, hsub⟩ := hhit
        refine ⟨P, s₁, .inr ⟨r, _, rfl, k, ⟨data, hc, hr⟩, fun ck => ?_⟩⟩
        have ok := k.ok ck data r hav hc hr hne
        have hle := ok.le_len
        have hone := ok.one_le
        have hin : pos - data.pos + len = data.len := by
          unfold sizeSub at hsub
          split at hsub
          · omega
          · omega
        have hb := ok.bytes.part (pos - data.pos) (len + 1)
        rw [← k.content]
        have hl : (slice (content s₁) data.pos data.len).length = data.len := by
          rw [slice, List.length_take, List.length_drop, length_content k.sound.valid]
          omega
        rw [List.drop_append_of_le_length (by omega), List.take_of_length_le (by simp; omega),
          Ptr.add_add] at hb
        rwa [slice_slice (content s₁) hone hge (Nat.le_of_eq hin),
          List.take_of_length_le (by rw [List.length_drop]; omega)]
      · rw [if_neg hhit]
        by_cases hold : data.sz ≤ len ∨ (s₁.heap.refs r).ref ≠ 1
        · rw [if_pos hold]
          obtain ⟨P₂, k₂⟩ := cstrKept_refDel k.sound k.posOk hc hr
          have hsd := k₂.sound
          rw [cstrHeld_none { data with ref := none } rfl rfl] at hsd
          obtain ⟨P', s', ⟨e', k'⟩ | ⟨r', off, e', ex⟩⟩ :=
            exportCstrFresh_spec hsd k₂.posOk (ps₁.frame k₂.frame) rfl rfl h1 h2₁
          · exact ⟨P', s', .inl ⟨e', k.trans (k₂.trans k')⟩⟩
          · exact ⟨P', s', .inr ⟨r', off, e', k.exported (k₂.exported ex)⟩⟩
        · rw [if_neg hold]
          have hnot := not_or.mp hold
          exact ⟨P, _, .inr ⟨r, 0, rfl, k.exported (cstrReuse_spec k.sound k.posOk ps₁ k.mem hc hr
            (by omega) (by omega) h1 h2₁)⟩⟩

end Vstr
