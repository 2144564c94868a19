import Vstr.Export.Cstr

/-!
# The C string cache follows the edits

Every edit tells the cache. What is left of a cached slice is where the callback, or the
inline code of the deletions, says it is, and its bytes are still those of the string.
-/

namespace Vstr

open Memory Splice

variable {E : Env} {P P' : Own} {s s' : St} {h h' : Heap} {b b' : Base} {data data' : CstrData}
  {c c' xs : List (Option UInt8)} {pos len r off : Nat}

/-- A reference and its memory are what they were. -/
structure SameRef (h h' : Heap) (r : Nat) : Prop where
  /-- It points where it did. -/
  ptr : (h'.refs r).ptr = (h.refs r).ptr
  /-- The same bytes. -/
  mem : h'.mem (h.refs r).ptr.blk = h.mem (h.refs r).ptr.blk
  /-- The same size. -/
  size : h'.size (h.refs r).ptr.blk = h.size (h.refs r).ptr.blk

theorem SameRef.refl (h : Heap) (r : Nat) : SameRef h h r := ⟨rfl, rfl, rfl⟩

theorem SameRef.trans {h'' : Heap} (f : SameRef h h' r) (g : SameRef h' h'' r) :
    SameRef h h'' r where
  ptr := g.ptr.trans f.ptr
  mem := by
    have hm := g.mem
    rw [f.ptr] at hm
    exact hm.trans f.mem
  size := by
    have hs := g.size
    rw [f.ptr] at hs
    exact hs.trans f.size

/-- The memory holds what it did. -/
theorem SameRef.holdsAt (same : SameRef h h' r) (ha : HoldsAt h ((h.refs r).ptr.add off) c) :
    HoldsAt h' ((h'.refs r).ptr.add off) c := by
  unfold HoldsAt at ha ⊢
  rw [same.ptr]
  have e : read h'.mem ((h.refs r).ptr.add off) c.length =
      read h.mem ((h.refs r).ptr.add off) c.length :=
    read_congr fun o _ => by rw [Ptr.add_blk, same.mem]
  rwa [e]

/-- The memory of a reference that is held elsewhere is foreign. -/
theorem HeapOk.foreign_ref (ok : HeapOk P h) (hlive : 0 < (h.refs r).ref) (hext : 0 < E.ext r) :
    Foreign E P (h.refs r).ptr.blk := by
  have hp := ok.refOwn r hlive
  unfold RefPlace at hp
  split at hp
  · rcases hp with hu | hl
    · exact .inl hu
    · exact .inr (.inr ⟨r, hl, hext⟩)
  · obtain ⟨-, x, hx, hl⟩ := hp
    rw [hx]
    exact .inr (.inr ⟨r, hl, hext⟩)

/-- An operation leaves a reference alone that is held elsewhere. -/
theorem Frame.sameRef (fr : Frame E P h P' h') (ok : HeapOk P h) (hlive : 0 < (h.refs r).ref)
    (hext : 0 < E.ext r) : SameRef h h' r where
  ptr := fr.refPtr r (ok.ref_lt hlive)
  mem := fr.mem _ (ok.foreign_ref hlive hext)
  size := fr.size _ (solid_of_foreign (ok.foreign_ref (E := E) hlive hext)).1

/-! ## What is left of a cached slice -/

/-- The cached slice of the content `c` is now a slice of `c'`: what is left of it is its
end. -/
structure CstrData.Moves (c c' : List (Option UInt8)) (data data' : CstrData) : Prop where
  /-- Positions count from one. -/
  one_le : 1 ≤ data'.pos
  /-- It is inside the string. -/
  le_len : data'.pos + data'.len ≤ c'.length + 1
  /-- Where it is. -/
  rest : ∃ d, data'.off = data.off + d ∧ d + data'.len = data.len ∧
    slice c' data'.pos data'.len = (slice c data.pos data.len).drop d

/-- All of the slice is left. -/
theorem CstrData.moves_whole (h1 : 1 ≤ pos) (h2 : pos + data.len ≤ c'.length + 1)
    (hs : slice c' pos data.len = slice c data.pos data.len) :
    data.Moves c c' { data with pos := pos } :=
  ⟨h1, h2, 0, rfl, Nat.zero_add _, hs⟩

/-- The memory of the cache has the size it had. -/
theorem cacheCstrCb_sz (pos len : Nat) (type : CacheType) (data : CstrData) :
    (cacheCstrCb pos len type data).sz = data.sz := by
  unfold cacheCstrCb
  dsimp only
  repeat' split
  all_goals rfl

/-- The cached slice is kept up through an insertion. -/
theorem cacheCstrCb_add_moves (hr : data.ref ≠ none) (h0 : data.len ≠ 0) (h1 : 1 ≤ data.pos)
    (h2 : data.pos + data.len ≤ c.length + 1) (hpos : pos ≤ c.length)
    (hne : (cacheCstrCb pos xs.length .add data).len ≠ 0) :
    data.Moves c (insertAfter c pos xs) (cacheCstrCb pos xs.length .add data) := by
  have hl := length_insertAfter c xs pos
  have before : data.pos + data.len ≤ pos + 1 → data.Moves c (insertAfter c pos xs) data := by
    intro hle
    refine CstrData.moves_whole h1 (by omega) (slice_congr_take (m := pos) ?_ (by omega))
    exact take_insertAfter c xs hpos
  unfold cacheCstrCb scPoslast at hne ⊢
  rw [if_neg (by simp [hr, h0])] at hne ⊢
  by_cases hlt : data.pos + (data.len - 1) < pos
  · rw [if_pos hlt]
    exact before (by omega)
  · rw [if_neg hlt] at hne ⊢
    by_cases hend : data.pos + (data.len - 1) = pos
    · rw [if_pos ⟨rfl, hend⟩]
      exact before (by omega)
    · rw [if_neg (by simp [hend])] at hne ⊢
      by_cases hgt : data.pos > pos
      · rw [if_pos ⟨rfl, hgt⟩]
        refine CstrData.moves_whole (by omega) (by omega) ?_
        have hs := slice_congr_drop (drop_insertAfter c xs hpos) (data.pos - pos - 1) data.len
        rwa [show pos + xs.length + (data.pos - pos - 1) + 1 = data.pos + xs.length by omega,
          show pos + (data.pos - pos - 1) + 1 = data.pos by omega] at hs
      · rw [if_neg (by simp [hgt]), if_neg (by simp), if_neg (by simp)] at hne
        exact absurd rfl hne

/-- The slice is in front of a deletion. -/
theorem moves_before_delete (h1 : 1 ≤ data.pos) (hp : pos + len ≤ c.length + 1)
    (hle : data.pos + data.len ≤ pos) :
    data.Moves c (deleteRange c pos len) data := by
  have hl : (deleteRange c pos len).length = c.length - len := by
    simp only [deleteRange, List.length_append, List.length_take, List.length_drop]
    omega
  refine CstrData.moves_whole h1 (by omega) (slice_congr_take (m := pos - 1) ?_ (by omega))
  exact take_deleteRange c pos len

/-- The slice is behind a deletion. -/
theorem moves_behind_delete (hp1 : 1 ≤ pos) (h2 : data.pos + data.len ≤ c.length + 1)
    (hp : pos + len ≤ c.length + 1) (hle : pos + len ≤ data.pos) :
    data.Moves c (deleteRange c pos len) { data with pos := data.pos - len } := by
  have hl : (deleteRange c pos len).length = c.length - len := by
    simp only [deleteRange, List.length_append, List.length_take, List.length_drop]
    omega
  refine CstrData.moves_whole (by omega) (by omega) ?_
  have hd : (deleteRange c pos len).drop (pos - 1) = c.drop (pos - 1 + len) :=
    drop_deleteRange c (by omega)
  have hs := slice_congr_drop hd (data.pos - (pos + len)) data.len
  rwa [show pos - 1 + (data.pos - (pos + len)) + 1 = data.pos - len by omega,
    show pos - 1 + len + (data.pos - (pos + len)) + 1 = data.pos by omega] at hs

/-- The slice reaches over the end of a deletion. -/
theorem moves_over_delete (hp1 : 1 ≤ pos) (h1 : 1 ≤ data.pos)
    (h2 : data.pos + data.len ≤ c.length + 1) (hlt : data.pos < pos + len)
    (hle : pos + len < data.pos + data.len) :
    data.Moves c (deleteRange c pos len)
      { data with len := data.len - (pos + len - data.pos)
                  off := data.off + (pos + len - data.pos)
                  pos := pos } := by
  have hl : (deleteRange c pos len).length = c.length - len := by
    simp only [deleteRange, List.length_append, List.length_take, List.length_drop]
    omega
  refine ⟨hp1, by dsimp only; omega, pos + len - data.pos, rfl, by dsimp only; omega, ?_⟩
  have hd : (deleteRange c pos len).drop (pos - 1) = c.drop (pos - 1 + len) :=
    drop_deleteRange c (by omega)
  have hs := slice_congr_drop hd 0 (data.len - (pos + len - data.pos))
  rw [show pos - 1 + 0 + 1 = pos by omega,
    show pos - 1 + len + 0 + 1 = pos + len by omega] at hs
  dsimp only
  rw [hs, slice, slice, List.drop_take, List.drop_drop,
    show data.pos - 1 + (pos + len - data.pos) = pos + len - 1 by omega]

/-- The cached slice is kept up through a deletion. -/
theorem cacheCstrCb_del_moves (hr : data.ref ≠ none) (h0 : data.len ≠ 0) (h1 : 1 ≤ data.pos)
    (h2 : data.pos + data.len ≤ c.length + 1) (hp1 : 1 ≤ pos) (hp : pos + len ≤ c.length + 1)
    (hlen : 0 < len) (hne : (cacheCstrCb pos len .del data).len ≠ 0) :
    data.Moves c (deleteRange c pos len) (cacheCstrCb pos len .del data) := by
  unfold cacheCstrCb scPoslast scPosdiff at hne ⊢
  rw [if_neg (by simp [hr, h0])] at hne ⊢
  by_cases hlt : data.pos + (data.len - 1) < pos
  · rw [if_pos hlt]
    exact moves_before_delete h1 hp (by omega)
  · rw [if_neg hlt, if_neg (by simp), if_neg (by simp)] at hne ⊢
    by_cases hgt : data.pos > pos + (len - 1)
    · rw [if_pos ⟨by simp, hgt⟩, if_pos rfl]
      exact moves_behind_delete hp1 h2 hp (by omega)
    · rw [if_neg (by simp [hgt])] at hne ⊢
      by_cases hover : data.pos + (data.len - 1) > pos + (len - 1)
      · rw [if_pos ⟨rfl, hover⟩]
        have m := moves_over_delete hp1 h1 h2 (show data.pos < pos + len by omega) (by omega)
        rwa [show pos + len - data.pos = pos + (len - 1) - data.pos + 1 by omega] at m
      · rw [if_neg (by simp [hover])] at hne
        exact absurd rfl hne

/-- The inline deletion of the beginning. -/
theorem delFastBegCstr_moves (hr : data.ref ≠ none) (h0 : data.len ≠ 0) (h1 : 1 ≤ data.pos)
    (h2 : data.pos + data.len ≤ c.length + 1) (hp : 1 + len ≤ c.length + 1) (hlen : 0 < len)
    (hne : (delFastBegCstr len data).len ≠ 0) :
    data.Moves c (deleteRange c 1 len) (delFastBegCstr len data) := by
  unfold delFastBegCstr scPoslast scPosdiff at hne ⊢
  dsimp only at hne ⊢
  rw [if_neg (by simp [hr, h0])] at hne ⊢
  by_cases hgt : data.pos > 1 + (len - 1)
  · rw [if_pos hgt]
    exact moves_behind_delete (Nat.le_refl 1) h2 hp (by omega)
  · rw [if_neg hgt] at hne ⊢
    by_cases hin : data.pos + (data.len - 1) ≤ 1 + (len - 1)
    · rw [if_pos hin] at hne
      exact absurd rfl hne
    · rw [if_neg hin]
      have m := moves_over_delete (Nat.le_refl 1) h1 h2 (show data.pos < 1 + len by omega)
        (by omega)
      rwa [show 1 + len - data.pos = 1 + (len - 1) - data.pos + 1 by omega] at m

/-- The inline deletion of the end. -/
theorem delFastEndCstr_moves (hr : data.ref ≠ none) (h0 : data.len ≠ 0) (h1 : 1 ≤ data.pos)
    (hp : pos + len ≤ c.length + 1)
    (hne : (delFastEndCstr pos data).len ≠ 0) :
    data.Moves c (deleteRange c pos len) (delFastEndCstr pos data) := by
  unfold delFastEndCstr scPoslast at hne ⊢
  rw [if_neg (by simp [hr, h0])] at hne ⊢
  by_cases hge : data.pos + (data.len - 1) ≥ pos
  · rw [if_pos hge] at hne
    exact absurd rfl hne
  · rw [if_neg hge]
    exact moves_before_delete h1 hp (by omega)

/-! ## The string and its cache -/

/-- The C string cache of `s'` is that of `s`, told what happened to the content. -/
structure CstrFollows (s s' : St) : Prop where
  /-- The cache is there or not. -/
  available : s'.base.cacheAvailable = s.base.cacheAvailable
  /-- What the cache holds was in it before. -/
  data : ∀ data', s'.base.cstr = some data' → ∃ data, s.base.cstr = some data ∧
    data'.ref = data.ref ∧ data'.sz = data.sz ∧
    (s.base.cacheAvailable = true → data.ref ≠ none → data'.len ≠ 0 → data.len ≠ 0 ∧
      (1 ≤ data.pos → data.pos + data.len ≤ (content s).length + 1 →
        data.Moves (content s) (content s') data'))

/-- The string with its cache is as it was. -/
theorem cstrFollows_same (hav : s'.base.cacheAvailable = s.base.cacheAvailable)
    (hb : s'.base.cstr = s.base.cstr) (hc : content s' = content s) : CstrFollows s s' where
  available := hav
  data d hd := by
    rw [hb] at hd
    refine ⟨d, hd, rfl, rfl, fun _ _ hne => ⟨hne, fun h1 h2 => ?_⟩⟩
    rw [hc]
    exact CstrData.moves_whole h1 h2 rfl

/-- The cached slice is still what the cache says. -/
theorem CstrData.Ok.moves (ok : data.Ok s r) (same : SameRef s.heap s'.heap r)
    (hlen : (content s).length = s.base.len) (hlen' : (content s').length = s'.base.len)
    (m : data.Moves (content s) (content s') data') : data'.Ok s' r := by
  obtain ⟨d, hoff, hsum, hs⟩ := m.rest
  have hle := ok.le_len
  have hone := ok.one_le
  have hb := ok.bound
  have hl : (slice (content s) data.pos data.len).length = data.len := by
    rw [slice, List.length_take, List.length_drop]
    omega
  have hpart := ok.bytes.part d (data'.len + 1)
  rw [List.drop_append_of_le_length (by omega), List.take_of_length_le (by simp; omega),
    Ptr.add_add, ← hs, ← hoff] at hpart
  refine ⟨m.one_le, hlen' ▸ m.le_len, same.holdsAt hpart, ?_⟩
  rw [same.ptr, same.size]
  omega

/-- The cache is as coherent as it was. -/
theorem CstrFollows.ok (fo : CstrFollows s s') (hlen : (content s).length = s.base.len)
    (hlen' : (content s').length = s'.base.len)
    (same : ∀ r, 0 < cstrHeld s.base r → SameRef s.heap s'.heap r) (ck : CstrOk s) :
    CstrOk s' := by
  intro data' r hav hd hr hne
  rw [fo.available] at hav
  obtain ⟨data, hd₀, hr₀, -, hm⟩ := fo.data data' hd
  rw [hr₀] at hr
  obtain ⟨h0, hm⟩ := hm hav (by rw [hr]; simp) hne
  have ok := ck data r hav hd₀ hr h0
  have hheld : 0 < cstrHeld s.base r := by
    rw [cstrHeld_some hd₀ hr, oneUse_self]
    exact Nat.one_pos
  exact ok.moves (same r hheld) hlen hlen' (hm ok.one_le (by rw [hlen]; exact ok.le_len))

/-- The memory of the cache stays its own. -/
theorem CstrFollows.mem (fo : CstrFollows s s')
    (same : ∀ r, 0 < cstrHeld s.base r → SameRef s.heap s'.heap r ∧
      (P (s.heap.refs r).ptr.blk = .lent r → P' (s.heap.refs r).ptr.blk = .lent r))
    (cm : CstrMem P s.heap s.base) : CstrMem P' s'.heap s'.base := by
  intro data' r hd hr
  obtain ⟨data, hd₀, hr₀, hsz, -⟩ := fo.data data' hd
  rw [hr₀] at hr
  have hheld : 0 < cstrHeld s.base r := by
    rw [cstrHeld_some hd₀ hr, oneUse_self]
    exact Nat.one_pos
  obtain ⟨hsame, hplace⟩ := same r hheld
  obtain ⟨hlent, hle⟩ := cm data r hd₀ hr
  rw [hsame.ptr, hsame.size, hsz]
  exact ⟨hplace hlent, hle⟩

variable {q : Prop} {kind : AddKind}

/-- The cache follows an insertion. -/
theorem Inserted.follows (i : Inserted q E P s kind pos len P' s')
    (hlen : (Vstr.content s).length = s.base.len) (hpos : pos ≤ s.base.len)
    (hxs : xs.length = len) (hc : Vstr.content s' = insertAfter (Vstr.content s) pos xs) :
    CstrFollows s s' := by
  obtain ⟨b', g, e | ⟨e, hend⟩⟩ := i.base
  · refine ⟨?_, fun data' hd => ?_⟩
    · rw [e, cacheAvailable_of_core (core_cacheAdd b' pos len)]
      exact g.cacheAvailable
    · rw [e] at hd
      unfold cacheAdd at hd
      rw [g.cacheAvailable] at hd
      split at hd
      · simp only [cacheCbs, g.cstr, Option.map_eq_some_iff] at hd
        obtain ⟨data, hd, rfl⟩ := hd
        refine ⟨data, hd, cacheCstrCb_ref .., cacheCstrCb_sz .., fun _ hr hne => ?_⟩
        have h0 : data.len ≠ 0 := fun h0 => hne ((cacheCstrCb_of_zero h0 pos len .add).symm ▸ h0)
        refine ⟨h0, fun h1 h2 => ?_⟩
        rw [hc, ← hxs]
        exact cacheCstrCb_add_moves hr h0 h1 h2 (by omega) (by rw [hxs]; exact hne)
      · rename_i hav
        rw [g.cstr] at hd
        exact ⟨data', hd, rfl, rfl, fun h => absurd h (by simpa using hav)⟩
  · refine ⟨by rw [e]; exact g.cacheAvailable, fun data hd => ?_⟩
    rw [e, g.cstr] at hd
    refine ⟨data, hd, rfl, rfl, fun _ _ hne => ⟨hne, fun h1 h2 => ?_⟩⟩
    have hl := length_insertAfter (Vstr.content s) xs pos
    rw [hc]
    refine CstrData.moves_whole h1 (by omega) (slice_congr_take (m := pos) ?_ (by omega))
    exact take_insertAfter (Vstr.content s) xs (by omega)

/-- What the cache is told of a deletion keeps the reference. -/
theorem CstrDel.ref {f : CstrData → CstrData} (cd : CstrDel b pos len f) (data : CstrData) :
    (f data).ref = data.ref ∧ (f data).sz = data.sz ∧ (data.len = 0 → f data = data) := by
  cases cd with
  | callback => exact ⟨cacheCstrCb_ref .., cacheCstrCb_sz .., fun h => cacheCstrCb_of_zero h ..⟩
  | front _ =>
    unfold delFastBegCstr
    dsimp only
    repeat' split
    all_goals simp_all
  | back _ =>
    unfold delFastEndCstr
    repeat' split
    all_goals simp_all

/-- The cache follows a deletion. -/
theorem Deleted.follows (d : Deleted q E P s pos len P' s')
    (hlen : (Vstr.content s).length = s.base.len) (h1 : 1 ≤ pos) (h2 : pos + len ≤ s.base.len + 1)
    (h0 : 0 < len) (hc : Vstr.content s' = deleteRange (Vstr.content s) pos len) :
    CstrFollows s s' := by
  obtain ⟨f, cd, e⟩ := d.cstr
  refine ⟨d.cacheAvailable, fun data' hd => ?_⟩
  rw [e] at hd
  split at hd
  · rw [Option.map_eq_some_iff] at hd
    obtain ⟨data, hd, rfl⟩ := hd
    obtain ⟨hr', hsz, hz⟩ := cd.ref data
    refine ⟨data, hd, hr', hsz, fun _ hr hne => ?_⟩
    have hne₀ : data.len ≠ 0 := fun h => hne ((hz h).symm ▸ h)
    refine ⟨hne₀, fun hp hle => ?_⟩
    have h2' : pos + len ≤ (Vstr.content s).length + 1 := by omega
    rw [hc]
    cases cd with
    | callback => exact cacheCstrCb_del_moves hr hne₀ hp hle h1 h2' h0 hne
    | front hpos =>
      subst hpos
      exact delFastBegCstr_moves hr hne₀ hp hle h2' h0 hne
    | back _ => exact delFastEndCstr_moves hr hne₀ hp h2' hne
  · rename_i hav
    exact ⟨data', hd, rfl, rfl, fun h => absurd h (by simpa using hav)⟩

end Vstr
