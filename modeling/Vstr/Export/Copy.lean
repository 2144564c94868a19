import Vstr.Export.Iter
import Vstr.Own.Lend

/-!
# Copying a slice out

`vstr_export_buf` and `vstr_export_cstr_buf` copy a slice to memory that no node has its
bytes in. Unknown bytes are not written.
-/

namespace Vstr

open Memory Splice

variable {E : Env} {P : Own} {s : St} {q : Prop} {b : Base} {pos len : Nat}

/-- No node has its bytes in this block. -/
def Apart (h : Heap) (ns : List Node) (x : Blk) : Prop :=
  ∀ m ∈ ns, ∀ p, exportNodePtr h m = some p → p.blk ≠ x

/-- The bytes of the nodes are in blocks that were handed out, so a fresh block is apart. -/
theorem Firm.apart {h : Heap} {ns : List Node} (fm : Firm P h ns) {x : Blk} (hx : P x = .none) :
    Apart h ns x := by
  rintro m hm p hp rfl
  exact (fm m hm p hp).1 hx

/-- What is stored of bytes that are not all known is what was there for the others. -/
theorem patch_writes (m : Mem Blk UInt8) (p : Addr) (xs : List (Option UInt8)) :
    ∃ bs, patch m p xs = write m p bs ∧ Matches xs bs := by
  induction xs generalizing m p with
  | nil =>
    refine ⟨[], ?_, .nil⟩
    rw [patch_nil]
    exact (write_read m p 0).symm
  | cons x xs ih =>
    obtain ⟨c, hc, hx⟩ : ∃ c, patch m p [x] = write m p [c] ∧ Matches [x] [c] := by
      cases x with
      | none =>
        refine ⟨m p.blk p.off, ?_, matches_none [_]⟩
        have hp : patch m p [none] = m := patch_replicate_none m p 1
        rw [hp]
        exact (write_read m p 1).symm
      | some c => exact ⟨c, patch_map_some m p [c], matches_some [c]⟩
    obtain ⟨bs, hbs, hm⟩ := ih (patch m p [x]) (p.add 1)
    refine ⟨c :: bs, ?_, hx.append hm⟩
    have hp := patch_append m p [x] xs
    have hw := write_append m p [c] bs
    rw [List.length_singleton] at hp hw
    rw [← List.singleton_append, ← hp, hbs, hc, hw]
    rfl

/-- The copying loop of `vstr_export_buf`: unknown bytes are not stored. -/
theorem exportLoop_patch {its : List Iter} (h : Heap) (buf : Addr)
    (hon : ∀ it ∈ its, ∃ pre post, it.On b pre post)
    (hb : ∀ it ∈ its, ∀ p, it.ptr h = some p → p.blk ≠ buf.blk) :
    exportLoop h buf its = h.setMem (patch h.mem buf (its.flatMap (Iter.bytes h))) := by
  induction its generalizing h buf with
  | nil =>
    rw [List.flatMap_nil, patch_nil]
    rfl
  | cons it its ih =>
    obtain ⟨pre, post, on⟩ := hon it List.mem_cons_self
    have hstep : exportLoop h buf (it :: its) =
        exportLoop (h.setMem (patch h.mem buf (it.bytes h))) (buf.add it.len) its := by
      rw [it.bytes_eq h on, exportLoop]
      cases it.ptr h with
      | none =>
        dsimp only
        rw [patch_replicate_none]
        rfl
      | some p =>
        dsimp only
        rw [patch_map_some]
        rfl
    have hsame : ∀ it' ∈ its,
        it'.bytes (h.setMem (patch h.mem buf (it.bytes h))) = it'.bytes h := by
      intro it' hit
      obtain ⟨pre', post', on'⟩ := hon it' (List.mem_cons_of_mem _ hit)
      rw [it'.bytes_eq _ on', it'.bytes_eq _ on']
      have hp : it'.ptr (h.setMem (patch h.mem buf (it.bytes h))) = it'.ptr h := rfl
      rw [hp]
      split
      · rfl
      · rename_i p hp
        have hmem : (h.setMem (patch h.mem buf (it.bytes h))).mem =
            patch h.mem buf (it.bytes h) := rfl
        rw [hmem, read_patch_of_ne _ _ _ (hb it' (List.mem_cons_of_mem _ hit) p hp)]
    have hrest := ih (h.setMem (patch h.mem buf (it.bytes h))) (buf.add it.len)
      (fun it' hit => hon it' (List.mem_cons_of_mem _ hit))
      (fun it' hit => hb it' (List.mem_cons_of_mem _ hit))
    have hflat : its.flatMap (Iter.bytes (h.setMem (patch h.mem buf (it.bytes h)))) =
        its.flatMap (Iter.bytes h) := List.flatMap_congr hsame
    have hp := patch_append h.mem buf (it.bytes h) (its.flatMap (Iter.bytes h))
    rw [Iter.length_bytes h on] at hp
    rw [hstep, hrest, hflat, List.flatMap_cons, ← hp]
    rfl

/-- `vstr_export_buf`: the slice is copied, as far as there is room; unknown bytes are not
stored. -/
theorem exportBuf_patch (sd : Sound E P s) (pk : PosOk q s.base) (h1 : 1 ≤ pos)
    (h2 : pos + len ≤ s.base.len + 1) (buf : Addr) {bufLen : Nat} (hlen : 0 < len)
    (hbuf : 0 < bufLen) (ha : Apart s.heap s.base.nodes buf.blk) :
    exportBuf s pos len buf bufLen = (min len bufLen,
      ⟨s.heap.setMem (patch s.heap.mem buf (slice (content s) pos (min len bufLen))),
        (basePos s.base pos true).2⟩) := by
  obtain ⟨it, b', pre, post, e, rfl, on, hsum, -, -, -, hslice⟩ :=
    iterFwdBeg_spec sd pk h1 (show pos + min len bufLen ≤ s.base.len + 1 by omega) (by omega)
  have hns := nodes_of_core (core_basePos s.base pos true)
  have hd : ((basePos s.base pos true).2.nodes.map Node.id).Nodup := by
    rw [hns]
    exact sd.owned.nodes.nodup
  have c := iterAll_covers s.heap on hd
    (show post.length ≤ (basePos s.base pos true).2.nodes.length by rw [on.nodes]; simp; omega)
  have hb : ∀ it' ∈ iterAll (basePos s.base pos true).2 (basePos s.base pos true).2.nodes.length it,
      ∀ p, it'.ptr s.heap = some p → p.blk ≠ buf.blk := by
    intro it' hit p hp
    obtain ⟨pre', post', on'⟩ := c.on it' hit
    unfold Iter.ptr at hp
    rw [Option.map_eq_some_iff] at hp
    obtain ⟨p', hp', rfl⟩ := hp
    refine ha it'.node ?_ p' hp'
    rw [← hns, on'.nodes]
    simp
  have hcopy := exportLoop_patch s.heap buf c.on hb
  rw [c.bytes, hsum, ← hslice] at hcopy
  unfold exportBuf
  rw [rangeOk_of_le h1 h2, if_neg (by simp; omega), e]
  dsimp only
  rw [hcopy]

/-- `vstr_export_buf`: the slice is copied, as far as there is room. -/
theorem exportBuf_spec (sd : Sound E P s) (pk : PosOk q s.base) (h1 : 1 ≤ pos)
    (h2 : pos + len ≤ s.base.len + 1) (buf : Addr) {bufLen : Nat} (hlen : 0 < len)
    (hbuf : 0 < bufLen) (ha : Apart s.heap s.base.nodes buf.blk) :
    ∃ bs, exportBuf s pos len buf bufLen =
        (min len bufLen, ⟨s.heap.setMem (write s.heap.mem buf bs), (basePos s.base pos true).2⟩) ∧
      Matches (slice (content s) pos (min len bufLen)) bs := by
  obtain ⟨bs, hbs, hm⟩ := patch_writes s.heap.mem buf (slice (content s) pos (min len bufLen))
  refine ⟨bs, ?_, hm⟩
  rw [exportBuf_patch sd pk h1 h2 buf hlen hbuf ha, hbs]

/-- A lookup changes the position cache only. -/
def Looked (b : Base) (pos : Nat) (b' : Base) : Prop := b' = b ∨ b' = (basePos b pos true).2

theorem Looked.core {b' : Base} (l : Looked b pos b') : b'.core = b.core := by
  rcases l with rfl | rfl
  · rfl
  · exact core_basePos b pos true

/-- `vstr_export_cstr_buf` with room for the slice and the final zero byte. -/
theorem exportCstrBuf_spec (sd : Sound E P s) (pk : PosOk q s.base) (h1 : 1 ≤ pos)
    (h2 : pos + len ≤ s.base.len + 1) (buf : Addr) (ha : Apart s.heap s.base.nodes buf.blk) :
    ∃ bs b', exportCstrBuf s pos len buf (len + 1) =
        (len + 1, ⟨s.heap.setMem (write s.heap.mem buf (bs ++ [0])), b'⟩) ∧
      Looked s.base pos b' ∧ PosOk q b' ∧ Matches (slice (content s) pos len) bs := by
  have hcpy : (if len ≥ len + 1 then len + 1 - 1 else len) = len := if_neg (by omega)
  unfold exportCstrBuf
  rw [rangeOk_of_le h1 h2, if_neg (by simp), hcpy]
  by_cases hl : len = 0
  · subst hl
    refine ⟨[], s.base, ?_, .inl rfl, pk, ?_⟩
    · have e : exportBuf s pos 0 buf 0 = (0, s) := if_pos (.inr rfl)
      dsimp only
      rw [e]
      rfl
    · rw [slice, List.take_zero]
      exact .nil
  · obtain ⟨bs, e, hm⟩ := exportBuf_spec sd pk h1 h2 buf (show 0 < len by omega)
      (show 0 < len by omega) ha
    rw [Nat.min_self] at e hm
    have hlen : bs.length = len := by
      rw [hm.length, slice, List.length_take, List.length_drop, length_content sd.valid]
      omega
    refine ⟨bs, _, ?_, .inr rfl,
      posOk_basePos sd.valid sd.owned.nodes.nodup pk h1 (by omega) true, hm⟩
    dsimp only
    rw [e]
    dsimp only
    rw [← write_append, hlen]
    rfl

end Vstr
