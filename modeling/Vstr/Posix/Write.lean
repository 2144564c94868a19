import Vstr.Edit.Grant
import Vstr.Model.Posix
import Vstr.Run.Vectors

/-!
# What a write moves

Whatever `writev` answers, `vstr_sc_write_fd` gives the file the front of the slice, in order
and once, and deletes it from the string: no byte is lost and none is written twice. What is
handed to `writev` is within the limits of the system, and each round hands out something, so
that the loop ends.
-/

namespace Vstr

open Memory Splice Fwd

variable {E : Env} {P P' : Own} {h h' : Heap} {s s' t : St} {pos len n maxIov : Nat}
variable {xs : List (Option UInt8)} {v : Iovec} {vs : List Iovec} {r : Nat × List Iovec}

/-! ## Vectors within the limits -/

/-- Vectors that are the front of some bytes, and their length. -/
structure Handed (h : Heap) (xs : List (Option UInt8)) (r : Nat × List Iovec) : Prop where
  /-- There is a vector. -/
  ne : r.2 ≠ []
  /-- The length is that of the vectors. -/
  len : r.1 = (r.2.map Iovec.len).sum
  /-- They are the front. -/
  bytes : r.2.flatMap (iovecBytes h) = xs.take r.1
  /-- No vector is empty, and each is in one node. -/
  each : ∀ v ∈ r.2, 0 < v.len ∧ v.len ≤ maxNodeAll

@[simp] theorem length_iovecBytes (h : Heap) (v : Iovec) : (iovecBytes h v).length = v.len := by
  unfold iovecBytes
  split
  · exact List.length_replicate
  · rw [List.length_map, length_read]

theorem length_flatMap_iovecBytes (h : Heap) (vs : List Iovec) :
    (vs.flatMap (iovecBytes h)).length = (vs.map Iovec.len).sum := by
  rw [List.length_flatMap]
  congr 1
  exact List.map_congr_left fun v _ => length_iovecBytes h v

theorem sum_take_le (vs : List Iovec) (k : Nat) :
    ((vs.take k).map Iovec.len).sum ≤ (vs.map Iovec.len).sum := by
  conv_rhs => rw [← List.take_append_drop k vs, List.map_append, List.sum_append]
  exact Nat.le_add_right _ _

theorem Handed.length_pos (hd : Handed h xs r) : 0 < r.1 := by
  obtain ⟨v, vs, hr⟩ := List.exists_cons_of_ne_nil hd.ne
  have := (hd.each v (by rw [hr]; exact List.mem_cons_self)).1
  rw [hd.len, hr, List.map_cons, List.sum_cons]
  omega

theorem Handed.le (hd : Handed h xs r) : r.1 ≤ xs.length := by
  have := congrArg List.length hd.bytes
  rw [length_flatMap_iovecBytes, ← hd.len, List.length_take] at this
  omega

/-- The first of some vectors are the front as well. -/
theorem Handed.take (hd : Handed h xs r) {k : Nat} (hk : 0 < k) :
    Handed h xs (((r.2.take k).map Iovec.len).sum, r.2.take k) where
  ne := by
    obtain ⟨v, vs, hr⟩ := List.exists_cons_of_ne_nil hd.ne
    rw [hr, ← Nat.succ_pred_eq_of_pos hk]
    exact List.cons_ne_nil _ _
  len := rfl
  bytes := by
    have hb := hd.bytes
    rw [← List.take_append_drop k r.2, List.flatMap_append] at hb
    have hl := length_flatMap_iovecBytes h (r.2.take k)
    have := congrArg (List.take ((r.2.take k).map Iovec.len).sum) hb
    rw [← hl, List.take_left, List.take_take, hl, Nat.min_eq_left] at this
    · exact this
    · rw [hd.len]
      exact sum_take_le _ _
  each := fun v hv => hd.each v (List.mem_of_mem_take hv)

/-- The loop over the vectors that are too long together stops in front of the first of
them. -/
theorem capData_take (vs : List Iovec) (hvs : vs ≠ []) (hle : ∀ v ∈ vs, v.len ≤ maxNodeAll) :
    ∃ k, 0 < k ∧ capData (vs.map Iovec.len).sum vs.reverse =
        (((vs.take k).map Iovec.len).sum, vs.take k) ∧
      ((vs.take k).map Iovec.len).sum ≤ uioMaxdata := by
  induction vs using List.reverseRecOn with
  | nil => exact absurd rfl hvs
  | append_singleton vs v ih =>
    have hsum : ((vs ++ [v]).map Iovec.len).sum = (vs.map Iovec.len).sum + v.len := by
      rw [List.map_append, List.sum_append, List.map_singleton, List.sum_singleton]
    rw [List.reverse_concat, capData]
    split
    · rename_i hgt
      have hne : vs ≠ [] := by
        rintro rfl
        have := hle v (List.mem_append_right _ List.mem_cons_self)
        have hmax : maxNodeAll ≤ uioMaxdata := by decide
        rw [hsum, List.map_nil, List.sum_nil] at hgt
        omega
      obtain ⟨k, hk, e, hmax⟩ := ih hne fun v hv => hle v (List.mem_append_left _ hv)
      rw [hsum, Nat.add_sub_cancel, e]
      have htake : (vs ++ [v]).take (min k vs.length) = vs.take k := by
        rw [List.take_append_of_le_length (Nat.min_le_right _ _), ← List.take_take,
          List.take_length]
      have hlen := List.length_pos_iff.mpr hne
      refine ⟨min k vs.length, by omega, ?_, ?_⟩
      · rw [htake]
      · rw [htake]
        exact hmax
    · rename_i hgt
      have htake : (vs ++ [v]).take (vs ++ [v]).length = vs ++ [v] := List.take_length
      refine ⟨(vs ++ [v]).length, ?_, ?_, ?_⟩
      · rw [List.length_append]
        exact Nat.succ_pos _
      · rw [htake, List.reverse_cons, List.reverse_reverse]
      · rw [htake]
        omega

/-- What one `writev` is handed is within its limits. -/
theorem Handed.cap (hd : Handed h xs r) (hm : 0 < maxIov) :
    Handed h xs (capVecs maxIov r) ∧ (capVecs maxIov r).2.length ≤ maxIov ∧
      (capVecs maxIov r).1 ≤ uioMaxdata := by
  have ht := hd.take hm
  have hsum : r.1 - ((r.2.drop maxIov).map Iovec.len).sum =
      ((r.2.take maxIov).map Iovec.len).sum := by
    rw [hd.len]
    conv_lhs => rw [← List.take_append_drop maxIov r.2, List.map_append, List.sum_append]
    rw [List.take_append_drop, Nat.add_sub_cancel]
  obtain ⟨k, hk, e, hmax⟩ := capData_take _ ht.ne fun v hv => (ht.each v hv).2
  rw [capVecs, hsum, e]
  refine ⟨ht.take hk, ?_, hmax⟩
  dsimp only
  rw [List.length_take, List.length_take]
  omega

/-! ## A round -/

/-- What handing out vectors leaves. -/
structure Round (E : Env) (P : Own) (s : St) (pos len : Nat) (P' : Own)
    (r : Option (Nat × List Iovec) × St) : Prop where
  /-- Both caches stay right. -/
  cached : Cached E P' r.2
  /-- Foreign blocks are left alone. -/
  frame : Frame E P s.heap P' r.2.heap
  /-- The content stays. -/
  content : content r.2 = Vstr.content s
  /-- So does the length. -/
  length : r.2.base.len = s.base.len
  /-- The arrays of vectors still have room. -/
  room : s.RoomFor s.base.num → r.2.RoomFor r.2.base.num
  /-- Only at the front is memory asked for. -/
  heap : pos ≠ 1 → r.2.heap = s.heap
  /-- The vectors are the front of the slice. -/
  handed : ∀ v, r.1 = some v → Handed r.2.heap (slice (Vstr.content s) pos len) v

/-- The vectors of a slice. -/
theorem cpyPtr_round (cd : Cached E P s) (h1 : 1 ≤ pos) (h0 : 0 < len)
    (hle : pos + len ≤ s.base.len + 1) : Round E P s pos len P
      (some (exportIovecCpyPtr s pos len scVecSz).1, (exportIovecCpyPtr s pos len scVecSz).2) := by
  have u := cd.usable
  have w : Window E P s pos len (slice (Vstr.content s) pos len) := ⟨u, h1, hle, rfl⟩
  obtain ⟨it, b', pre, post, e, hns, wk, on, rest, hpos⟩ := begins w h0
  have hb : b' = (basePos s.base pos true).2 := by
    obtain ⟨_, b'', _, _, e', rfl, -⟩ := iterFwdBeg_spec u.sound u.posOk h1 hle h0
    exact congrArg (fun r => r.2.base) (e.symm.trans e')
  have hfuel : post.length ≤ b'.nodes.length := by
    rw [on.nodes]
    simp
    omega
  have hvs := iovecCpyPtrLoop_eq s.heap scVecSz on wk.nodup hfuel
  have c := iterAll_covers s.heap on wk.nodup hfuel
  obtain ⟨hspec, -⟩ := exportIovecCpyPtr_spec w scVecSz
  have hrun : exportIovecCpyPtr s pos len scVecSz =
      ((((iovecCpyPtrLoop b' s.heap scVecSz it).map Iovec.len).sum,
        iovecCpyPtrLoop b' s.heap scVecSz it), ⟨s.heap, b'⟩) := by
    rw [exportIovecCpyPtr, if_neg (by decide), e]
  rw [hrun] at hspec ⊢
  have hcore : b'.core = s.base.core := by
    rw [hb]
    exact core_basePos s.base pos true
  obtain ⟨d, hd⟩ := basePos_base s.base pos true
  refine ⟨?_, Frame.refl _ _ _, content_congr hcore, len_of_core hcore, fun hr => ?_,
    fun _ => rfl, ?_⟩
  · rw [hb]
    exact cd.basePos h1 (by omega) true
  · rw [hb, hd]
    exact hr
  · rintro v hv
    obtain rfl := Option.some_inj.mp hv
    refine ⟨?_, rfl, hspec.bytes, ?_⟩
    · dsimp only
      rw [show scVecSz = 31 + 1 from rfl, iovecCpyPtrLoop]
      exact List.cons_ne_nil _ _
    · dsimp only
      rw [hvs]
      intro v hv
      obtain ⟨it', hit, rfl⟩ := List.mem_map.mp hv
      have hmem := List.mem_of_mem_take hit
      obtain ⟨pre', post', on'⟩ := c.on it' hmem
      have hlen := on'.len
      have hmax : it'.node.len ≤ maxNodeAll := by
        apply u.sound.valid.max
        rw [← hns, on'.nodes]
        simp
      have := iterAll_pos wk.pos hpos it' hmem
      show 0 < it'.len ∧ it'.len ≤ maxNodeAll
      omega

/-- All vectors. -/
theorem ptrAll_round (cd : Cached E P s) (h0 : 0 < s.base.len) (hroom : s.RoomFor s.base.num) :
    Round E P s 1 s.base.len P
      (if (exportIovecPtrAll s).1 = 0 then (none, (exportIovecPtrAll s).2.2)
        else (some ((exportIovecPtrAll s).1, (exportIovecPtrAll s).2.1),
          (exportIovecPtrAll s).2.2)) := by
  have sd := cd.usable.sound
  have v := sd.valid
  obtain ⟨rv, al⟩ := exportIovecPtrAll_spec sd cd.shown hroom
  have hkeep : (exportIovecPtrAll s).2.2.RoomFor (exportIovecPtrAll s).2.2.base.num :=
    hroom.frame rv.makes.frame (congrArg Base.conf rv.base :)
      (Nat.le_of_eq (congrArg Base.num rv.base :))
  have hcd := rv.cached cd
  have hlen := len_of_core (core_of_noVec rv.base)
  have hslice : slice (Vstr.content s) 1 s.base.len = Vstr.content s := by
    rw [slice, Nat.sub_self, List.drop_zero, ← length_content v, List.take_length]
  split
  · exact ⟨hcd, rv.makes.frame, al.content, hlen, fun _ => hkeep, fun h => absurd rfl h,
      fun _ h => by cases h⟩
  · rename_i hne
    refine ⟨hcd, rv.makes.frame, al.content, hlen, fun _ => hkeep, fun h => absurd rfl h, ?_⟩
    rintro _ hv
    obtain rfl := Option.some_inj.mp hv
    have hvecs := al.vecs hne
    have hbytes := al.bytes hne
    have hl : (exportIovecPtrAll s).1 = s.base.len := by
      rcases al.len with ⟨h, -⟩ | ⟨h, -⟩
      · exact absurd h hne
      · exact h
    have hused : ∀ m ms, s.base.nodes = m :: ms → s.base.used < m.len := by
      intro m ms hm
      by_cases hu : s.base.used = 0
      · have := v.pos m (by rw [hm]; exact List.mem_cons_self)
        omega
      · obtain ⟨n, ns, hns, -, hlt⟩ := v.used hu
        obtain ⟨rfl, -⟩ := List.cons.inj (hm.symm.trans hns)
        exact hlt
    rw [hslice]
    refine ⟨?_, ?_, ?_, ?_⟩
    · dsimp only
      intro hnil
      rw [hnil, List.flatMap_nil] at hbytes
      have := length_content v
      rw [← hbytes, List.length_nil] at this
      omega
    · have := congrArg List.length hbytes
      rw [length_flatMap_iovecBytes, length_content v] at this
      exact hl.trans this.symm
    · dsimp only
      rw [hbytes, hl, ← length_content v, List.take_length]
    · dsimp only
      rw [hvecs]
      intro w hw
      obtain ⟨hpos, n, hn, hle⟩ := nodeVecs_each v.pos hused w hw
      exact ⟨hpos, hle.trans (v.max n hn)⟩

/-- The vectors of a round. -/
theorem writeVecs_round (cd : Cached E P s) (h1 : 1 ≤ pos) (h0 : 0 < len)
    (hle : pos + len ≤ s.base.len + 1) (hroom : pos = 1 → s.RoomFor s.base.num) :
    Round E P s pos len P (writeVecs s pos len) := by
  unfold writeVecs
  split
  · rename_i hall
    obtain ⟨rfl, rfl, -⟩ := hall
    exact ptrAll_round cd h0 (hroom rfl)
  · exact cpyPtr_round cd h1 h0 hle

/-! ## The loop -/

/-- What a write leaves: the front of the slice is in the file, and gone from the string. -/
structure Writes (E : Env) (P : Own) (s : St) (pos len : Nat) (as : List Writev) (r : Wrote) :
    Prop where
  /-- Both caches stay right. -/
  cached : StaysCached E P s r.st
  /-- No more than the slice is written. -/
  le : r.out.length ≤ len
  /-- The front of it is. -/
  out : r.out = slice (content s) pos r.out.length
  /-- What is written is deleted. -/
  rest : content r.st = deleteRange (content s) pos r.out.length
  /-- Failure has an error. -/
  err : r.ret = some false ↔ r.err ≠ .zero
  /-- With one answer for each byte, interrupts aside, the call comes back. -/
  back : len ≤ as.countP (· ≠ .eintr) → r.ret ≠ none
  /-- All of it is written when `writev` always takes all it may. -/
  all : (∀ a ∈ as, a = .eintr ∨ ∃ n, a = .took n ∧ uioMaxdata ≤ n) → r.ret = some true →
    r.out.length = len

theorem Writes.nothing {as : List Writev} {ret : Option Bool} {err : WriteErr}
    (st : StaysCached E P s t) (hc : content t = content s)
    (herr : ret = some false ↔ err ≠ .zero)
    (hback : len ≤ as.countP (· ≠ .eintr) → ret ≠ none)
    (hall : (∀ a ∈ as, a = .eintr ∨ ∃ n, a = .took n ∧ uioMaxdata ≤ n) → ret = some true →
      0 = len) : Writes E P s pos len as ⟨ret, err, t, []⟩ where
  cached := st
  le := Nat.zero_le _
  out := List.take_zero.symm
  rest := by
    rw [List.length_nil, deleteRange_zero]
    exact hc
  err := herr
  back := hback
  all := hall

/-- What goes on after a round does so from what the round left. -/
theorem Writes.append {as : List Writev} {a : Writev} {r : Wrote} {m : Nat}
    (fr : Frame E P s.heap P' t.heap) (h1 : pos - 1 ≤ (content s).length)
    (hm : 0 < m) (hle : m ≤ len) (hc : content t = deleteRange (content s) pos m)
    (ha : a ≠ .eintr) (hlen : (slice (content s) pos m).length = m)
    (w : Writes E P' t pos (len - m) as r) :
    Writes E P s pos len (a :: as) { r with out := slice (content s) pos m ++ r.out } where
  cached := by
    obtain ⟨P₂, cd, fr'⟩ := w.cached
    exact ⟨P₂, cd, fr.trans fr'⟩
  le := by
    have := w.le
    rw [List.length_append, hlen]
    omega
  out := by
    have := w.out
    dsimp only
    rw [List.length_append, hlen, ← slice_deleteRange _ _ _ h1, ← hc, ← this]
  rest := by
    dsimp only
    rw [w.rest, hc, deleteRange_deleteRange _ _ _ h1, List.length_append, hlen]
  err := w.err
  back := by
    intro hb
    apply w.back
    rw [List.countP_cons_of_pos (by simpa using ha)] at hb
    omega
  all := by
    intro hall hret
    have := w.all (fun a ha => hall a (List.mem_cons_of_mem _ ha)) hret
    rw [List.length_append, hlen]
    omega

/-- The front of what is handed to `writev`. -/
theorem Handed.front {v : Nat × List Iovec} {bytes : Nat}
    (hd : Handed s.heap (slice (content s) pos len) v) (hb : bytes ≤ v.1) (hle : bytes ≤ len) :
    (v.2.flatMap (iovecBytes s.heap)).take bytes = slice (content s) pos bytes := by
  rw [hd.bytes, List.take_take, Nat.min_eq_left hb, slice, slice, List.take_take,
    Nat.min_eq_left hle]

/-- The string behind a round that took bytes. -/
structure Written (E : Env) (P : Own) (s : St) (pos bytes : Nat) (P' : Own) (t : St) : Prop where
  /-- Both caches stay right. -/
  cached : Cached E P' t
  /-- The other strings stay. -/
  frame : Frame E P s.heap P' t.heap
  /-- The bytes are gone. -/
  rest : content t = deleteRange (content s) pos bytes
  /-- They count. -/
  length : t.base.len + bytes = s.base.len
  /-- There is room for the vectors of what is left. -/
  room : pos = 1 → t.RoomFor t.base.num
  /-- The next deletion succeeds as well. -/
  granted : pos = 1 ∨ Granted t.heap

/-- The deletion of what was written. -/
theorem Cached.written {bytes : Nat} (cd : Cached E P s) (h1 : 1 ≤ pos)
    (hle : pos + bytes ≤ s.base.len + 1) (hg : pos = 1 ∨ Granted s.heap)
    (hr : pos = 1 → s.RoomFor s.base.num) :
    ∃ P', Written E P s pos bytes P' (Vstr.del s pos bytes).2 := by
  have sd := cd.usable.sound
  obtain ⟨hok, hg'⟩ := del_granted hg h1 hle
  obtain ⟨P₁, cd₁, fr₁⟩ := cd.del h1 hle
  refine ⟨P₁, cd₁, fr₁, ?_, ?_, ?_, hg'⟩
  all_goals
    obtain ⟨P', t, ⟨e, -⟩ | ⟨e, ⟨rfl, -, rfl⟩ | d⟩⟩ := del_spec sd cd.posOk h1 hle
  all_goals
    rw [e] at hok ⊢
  · cases hok
  · exact (deleteRange_zero _ _).symm
  · exact d.content cd.usable.ptrSafe (cd.fits.cutOk _)
  · cases hok
  · rfl
  · exact d.length
  · cases hok
  · exact hr
  · intro hp
    have hn := d.fewer hp
    rw [← d.sound.valid.num, ← sd.valid.num] at hn
    exact (hr hp).frame d.frame d.conf hn

/-- A round after which the call comes back. -/
theorem Written.last {as : List Writev} {P₁ P₂ : Own} {u : St} {n bytes : Nat} {ret : Option Bool}
    {err : WriteErr} (k : Written E P s pos bytes P₁ t)
    (hlen : (slice (content s) pos bytes).length = bytes) (hle : bytes ≤ len)
    (cd : Cached E P₂ u) (fr : Frame E P₁ t.heap P₂ u.heap)
    (hcu : content u = content t) (hret : ret ≠ none) (herr : ret = some false ↔ err ≠ .zero)
    (hall : uioMaxdata ≤ n → ret = some true → bytes = len) :
    Writes E P s pos len (.took n :: as) ⟨ret, err, u, slice (content s) pos bytes⟩ where
  cached := ⟨P₂, cd, k.frame.trans fr⟩
  le := by
    dsimp only
    omega
  out := by
    dsimp only
    rw [hlen]
  rest := by
    dsimp only
    rw [hcu, k.rest, hlen]
  err := herr
  back := fun _ => hret
  all := by
    intro h hr
    obtain h' | ⟨m, h', hm⟩ := h _ List.mem_cons_self
    · cases h'
    · cases h'
      dsimp only
      rw [hlen]
      exact hall hm hr

/-- The loop of `vstr_sc_write_fd`. -/
theorem scWriteLoop_writes (hm : 0 < maxIov) (h1 : 1 ≤ pos) (as : List Writev) :
    ∀ {P : Own} {s : St} {len : Nat} {v : Nat × List Iovec}, Cached E P s → 0 < len →
      pos + len ≤ s.base.len + 1 → (pos = 1 ∨ Granted s.heap) →
      (pos = 1 → s.RoomFor s.base.num) →
      Handed s.heap (slice (content s) pos len) v → v.1 ≤ uioMaxdata →
      Writes E P s pos len as (scWriteLoop maxIov pos as s len v) := by
  induction as with
  | nil =>
    intro P s len v cd h0 hle hg hr hd hmax
    refine Writes.nothing ⟨P, cd, Frame.refl _ _ _⟩ rfl (by simp) (fun h => ?_) (by simp)
    rw [List.countP_nil] at h
    omega
  | cons a as ih =>
    intro P s len v cd h0 hle hg hr hd hmax
    cases a with
    | eintr =>
      obtain ⟨w1, w2, w3, w4, w5, w6, w7⟩ := ih cd h0 hle hg hr hd hmax
      rw [scWriteLoop]
      refine ⟨w1, w2, w3, w4, w5, fun h => w6 ?_,
        fun h => w7 fun a ha => h a (List.mem_cons_of_mem _ ha)⟩
      rw [List.countP_cons_of_neg (by simp)] at h
      exact h
    | error =>
      rw [scWriteLoop]
      refine Writes.nothing ⟨P, cd, Frame.refl _ _ _⟩ rfl (by simp) (by simp) (fun h => ?_)
      obtain h | ⟨n, h, -⟩ := h _ List.mem_cons_self
      · cases h
      · cases h
    | took n =>
      have hcl := length_content cd.usable.sound.valid
      have hxs : (slice (content s) pos len).length = len := by
        rw [slice, List.length_take, List.length_drop, hcl]
        omega
      have hv := hd.le
      have hv0 := hd.length_pos
      rw [hxs] at hv
      rw [scWriteLoop]
      generalize hb : min n v.1 = bytes
      have hlen : (slice (content s) pos bytes).length = bytes := by
        rw [slice, List.length_take, List.length_drop, hcl]
        omega
      obtain ⟨P₁, k⟩ := cd.written h1 (show pos + bytes ≤ s.base.len + 1 by omega) hg hr
      generalize (del s pos bytes).2 = t at k
      have hlt := k.length
      dsimp only
      rw [hd.front (by omega) (show bytes ≤ len by omega)]
      have hle' : bytes ≤ len := by omega
      by_cases hfull : v.1 = bytes
      · rw [if_neg (by simpa using hfull)]
        by_cases hend : len - bytes = 0
        · rw [if_pos hend]
          exact k.last hlen hle' k.cached (Frame.refl _ _ _) rfl (by simp) (by simp)
            fun _ _ => by omega
        · rw [if_neg hend]
          have rd := writeVecs_round k.cached h1 (Nat.pos_of_ne_zero hend)
            (show pos + (len - bytes) ≤ t.base.len + 1 by omega) k.room
          generalize writeVecs t pos (len - bytes) = w at rd
          obtain ⟨o, u⟩ := w
          obtain ⟨cd₂, fr₂, hcu, hlu, hru, hheap, hhd⟩ := rd
          dsimp only at cd₂ fr₂ hcu hlu hru hheap hhd
          cases o with
          | none => exact k.last hlen hle' cd₂ fr₂ hcu (by simp) (by simp) (by simp)
          | some v' =>
            obtain ⟨hcap, -, hmax'⟩ := (hhd v' rfl).cap hm
            rw [← hcu] at hcap
            have hgu : pos = 1 ∨ Granted u.heap := by
              by_cases hp : pos = 1
              · exact .inl hp
              · rw [hheap hp]
                exact k.granted
            have w := ih cd₂ (Nat.pos_of_ne_zero hend) (by omega) hgu (fun h => hru (k.room h))
              hcap hmax'
            exact Writes.append (k.frame.trans fr₂) (by omega) (by omega) (by omega)
              (hcu.trans k.rest) (by simp) hlen w
      · rw [if_pos hfull]
        exact k.last hlen hle' k.cached (Frame.refl _ _ _) rfl (by simp) (by simp)
          fun hn _ => by omega

/-- `vstr_sc_write_fd`, from the front of the string or when there is memory. -/
theorem write_fd_moves (cd : Cached E P s) (hm : 0 < maxIov) (as : List Writev) (h1 : 1 ≤ pos)
    (hle : pos + len ≤ s.base.len + 1) (hg : pos = 1 ∨ Granted s.heap)
    (hr : pos = 1 → s.RoomFor s.base.num) :
    Writes E P s pos len as (scWriteFd maxIov as s pos len) := by
  unfold scWriteFd
  by_cases h0 : len = 0
  · subst h0
    rw [if_neg (by simp; omega), if_pos rfl]
    exact Writes.nothing ⟨P, cd, Frame.refl _ _ _⟩ rfl (by simp) (by simp) (by simp)
  · have hmod : scPoslast pos len % 2 ^ 64 ≤ s.base.len := by
      have := Nat.mod_le (scPoslast pos len) (2 ^ 64)
      unfold scPoslast at this ⊢
      omega
    have hin : pos ≠ 0 ∧ (pos ≤ s.base.len ∧ scPoslast pos len % 2 ^ 64 ≤ s.base.len ∨
      len = 0) := ⟨by omega, .inl ⟨by omega, hmod⟩⟩
    rw [if_neg (not_not_intro hin), if_neg h0]
    have rd := writeVecs_round cd h1 (Nat.pos_of_ne_zero h0) hle hr
    generalize writeVecs s pos len = w at rd
    obtain ⟨o, u⟩ := w
    obtain ⟨cd₂, fr₂, hcu, hlu, hru, hheap, hhd⟩ := rd
    dsimp only at cd₂ fr₂ hcu hlu hru hheap hhd
    cases o with
    | none => exact Writes.nothing ⟨P, cd₂, fr₂⟩ hcu (by simp) (by simp) (by simp)
    | some v =>
      obtain ⟨hcap, -, hmax⟩ := (hhd v rfl).cap hm
      rw [← hcu] at hcap
      have hgu : pos = 1 ∨ Granted u.heap := by
        by_cases hp : pos = 1
        · exact .inl hp
        · rw [hheap hp]
          exact hg
      obtain ⟨w1, w2, w3, w4, w5, w6, w7⟩ :=
        scWriteLoop_writes hm h1 as cd₂ (Nat.pos_of_ne_zero h0) (by omega) hgu
          (fun h => hru (hr h)) hcap hmax
      refine ⟨?_, w2, hcu ▸ w3, hcu ▸ w4, w5, w6, w7⟩
      obtain ⟨P₃, cd₃, fr₃⟩ := w1
      exact ⟨P₃, cd₃, fr₂.trans fr₃⟩

/-- A file that takes a byte, and then two after an interrupt. -/
theorem write_fd_moves_patched : ∃ P, Writes alone P patched 1 3 [.took 1, .eintr, .took 2]
    (scWriteFd 1 [.took 1, .eintr, .took 2] patched 1 3) := by
  obtain ⟨P, cd, -⟩ := VecRun.cached cached_blank vecRun_patched
  exact ⟨P, write_fd_moves cd (by decide) _ (by decide) (by decide) (.inl rfl)
    fun _ => by unfold St.RoomFor; decide⟩

end Vstr
