import Vstr.Run.Calls
import Vstr.Edit.Named
import Vstr.Export.Iter

/-!
# The range checks

`vstr_del` and `vstr_iter_fwd_beg` compute `pos + (len - 1)` and `len + base->used` in a
`size_t`, and a node that is cut takes its new offset in an `unsigned int`. The range that is
checked is the range that goes as long as none of these wraps, and only then.
-/

namespace Vstr

open Memory Splice

/-- The `len` bytes from `pos` on are bytes of the string. -/
def InString (b : Base) (pos len : Nat) : Prop := 1 ≤ pos ∧ pos + len ≤ b.len + 1

/-- `vstr_del` deletes exactly the range it is asked for, if there is such a range. -/
structure DelExact (s : St) (pos len : Nat) : Prop where
  /-- No null pointer is followed. -/
  safe : delFaults s.base pos len = false
  /-- A range that is not inside the string is refused, and nothing changes. -/
  refuses : len ≠ 0 → ¬ InString s.base pos len → delSize s pos len = (false, s)
  /-- The structure holds afterwards. -/
  valid : InString s.base pos len →
    Valid (delSize s pos len).2.conf.bufSz (delSize s pos len).2.base
  /-- A range inside the string is deleted: its bytes go, and those that stay come from where
  they came. -/
  deletes : InString s.base pos len → (delSize s pos len).1 = true →
    (delSize s pos len).2.base.len + len = s.base.len ∧
      content (delSize s pos len).2 = deleteRange (content s) pos len ∧
      sources (delSize s pos len).2.base = deleteRange (sources s.base) pos len
  /-- It is not, when a node had to be split and none was to be had. -/
  keeps : InString s.base pos len → (delSize s pos len).1 = false →
    (delSize s pos len).2.base = s.base ∧ content (delSize s pos len).2 = content s

/-- `vstr_iter_fwd_beg` iterates over exactly the range it is asked for, if there is one. -/
structure IterExact (s : St) (pos len : Nat) : Prop where
  /-- A range that is not inside the string is refused. -/
  refuses : len ≠ 0 → ¬ InString s.base pos len → iterFwdBeg s pos len = (none, s)
  /-- The stretches visited are the range. -/
  visits : len ≠ 0 → InString s.base pos len → ∃ it s', iterFwdBeg s pos len = (some it, s') ∧
    content s' = content s ∧
    (iterAll s'.base s'.base.nodes.length it).flatMap (Iter.bytes s'.heap) =
      slice (content s) pos len

/-- A sum wraps, or `base->end` is followed in vain. -/
inductive Wraps (s : St) (pos len : Nat) : Prop where
  /-- `pos + (len - 1)` wraps. -/
  | poslast (h1 : 2 ≤ pos) (h2 : pos ≤ s.base.len) (h3 : 2 ^ 64 < pos + len)
  /-- `len + base->used` wraps, in the inline path. -/
  | used (hi : ¬ s.base.cacheAvailable = true ∨ s.base.cacheInternal = true) (h1 : pos = 1)
    (h2 : 1 ≤ s.base.len) (h3 : 2 ^ 64 ≤ len + s.base.used)
  /-- There is no last node. -/
  | null (hi : ¬ s.base.cacheAvailable = true ∨ s.base.cacheInternal = true) (h1 : pos = 0)
    (h2 : s.base.len = 0) (h3 : len ≠ 0)
  /-- The offset of the `REF` node that is cut behind the range wraps; when the range is inside
  the node, a node for its second half is to be had. -/
  | offset {pre post : List Node} {n : Node} {r off : Nat} (hin : InString s.base pos len)
    (h0 : len ≠ 0) (hns : s.base.nodes = pre ++ n :: post) (hd : n.data = .ref r off)
    (h1 : lens pre < s.base.used + (pos - 1) + len)
    (h2 : s.base.used + (pos - 1) + len < lens pre + n.len)
    (h3 : 2 ^ 32 ≤ off + (s.base.used + (pos - 1) + len - lens pre))
    (h4 : lens pre < s.base.used + (pos - 1) → (rangeSpare s.heap s.base.conf .ref 1).1 = true)

variable {E : Env} {P : Own} {s : St} {pre post : List Node} {n : Node} {q : Prop}
variable {pos len : Nat}

/-- The value of the sum does not matter behind the first byte. -/
theorem delSize_eq_del (h : (¬ s.base.cacheAvailable = true ∨ s.base.cacheInternal = true) →
    pos = 1 → len + s.base.used < 2 ^ 64) : delSize s pos len = del s pos len := by
  unfold delSize del
  by_cases hi : ¬ s.base.cacheAvailable = true ∨ s.base.cacheInternal = true
  · by_cases h1 : pos = 1
    · rw [Nat.mod_eq_of_lt (h hi h1)]
    · simp only [delSum, h1, false_and, if_false]
  · simp only [delSum, hi, if_false]

/-! ## Ranges inside a `REF` node -/

/-- The `BUF` node with consumed bytes is the first one, so no `REF` node starts in front of
them. -/
theorem two_le_of_ref {bufSz : Nat} {r off : Nat} (v : Valid bufSz s.base)
    (hns : s.base.nodes = pre ++ n :: post) (hd : n.data = .ref r off)
    (h1 : lens pre < s.base.used + (pos - 1)) : 2 ≤ pos := by
  by_contra hlt
  have hu : s.base.used ≠ 0 := by omega
  obtain ⟨m, ms, hm, hbuf, hum⟩ := v.used hu
  rw [hns] at hm
  cases pre with
  | nil =>
    rw [List.nil_append, List.cons.injEq] at hm
    rw [← hm.1, hd] at hbuf
    cases hbuf
  | cons x xs =>
    rw [List.cons_append, List.cons.injEq] at hm
    rw [lens_cons, hm.1] at h1
    omega

/-- A deletion inside a `REF` node succeeds when a node for the second half is to be had. -/
theorem del_inside_ref {r off : Nat} (sd : Sound E P s) (pk : PosOk q s.base)
    (hns : s.base.nodes = pre ++ n :: post) (hd : n.data = .ref r off) (h0 : 0 < len)
    (h1 : lens pre < s.base.used + (pos - 1))
    (h2 : s.base.used + (pos - 1) + len < lens pre + n.len) :
    (del s pos len).1 = (rangeSpare s.heap s.base.conf .ref 1).1 := by
  have hv := sd.valid
  have hpos := two_le_of_ref hv hns hd h1
  have hl := hv.len
  rw [hns, lens_append, lens_cons] at hl
  have hmod := Nat.mod_le (scPoslast pos len) (2 ^ 64)
  unfold scPoslast at hmod
  have hext : (externDel s pos len).1 = (rangeSpare s.heap s.base.conf .ref 1).1 := by
    have hkeep := Nat.mod_le (pos - 1 + len) (2 ^ 64)
    obtain ⟨pre', n', post', hat, -, -⟩ := basePos_at hv sd.owned.nodes.nodup pk
      (show 1 ≤ pos - 1 by omega) (by omega) false
    have hp := hat.pos
    have hone := hat.one_le
    have hle := hat.le_len
    obtain ⟨rfl, rfl, rfl⟩ := node_unique (p := pos - 1 + s.base.used)
      (hns.symm.trans hat.nodes) (by omega) (by omega) (by omega) (by omega)
    have hnode : s.base.node pre'.length = n' := node_of_eq hns
    have htype : n'.type = .ref := by rw [Node.type, hd]
    unfold externDel scPoslast
    rw [if_neg (by omega), if_neg (by omega)]
    dsimp only
    rw [if_neg (by omega)]
    unfold delAfter
    dsimp only
    rw [hat.idx, hnode, sizeSub_of_le (show len ≤ s.base.len by omega), if_pos (by omega),
      delMiddle_split hns hat.idx (by unfold delSplits; rw [htype])]
    unfold baseSplitNode
    dsimp only
    rw [hnode, htype]
    generalize rangeSpare s.heap s.base.conf .ref 1 = a
    obtain ⟨_ | _, h⟩ := a <;> rfl
  have hend : len ≠ scPosdiff pos s.base.len := by
    unfold scPosdiff
    omega
  unfold del delSum
  rw [if_neg (by omega), if_neg (by omega)]
  simp only [show pos ≠ 1 by omega, hend, false_and, and_false, if_false, ite_self]
  exact hext

/-! ## Requests that get through -/

/-- A range whose last position wraps is deleted. -/
theorem externDel_wraps (u : Usable E P s) (h1 : 2 ≤ pos) (h2 : pos ≤ s.base.len)
    (hb : s.base.len < 2 ^ 64) (hlen : len < 2 ^ 64) (h3 : 2 ^ 64 < pos + len) :
    (externDel s pos len).1 = true := by
  have hmod : scPoslast pos len % 2 ^ 64 ≤ s.base.len := by
    unfold scPoslast
    omega
  have hmod' : ¬ (pos - 1 + len) % 2 ^ 64 ≥ s.base.len := by omega
  obtain ⟨pre, n, post, hat, -, -⟩ := basePos_at u.sound.valid u.sound.owned.nodes.nodup u.posOk
    (show 1 ≤ pos - 1 by omega) (by omega) false
  have hall := u.sound.valid.len
  have hpos := hat.pos
  rw [hat.nodes, lens_append, lens_cons] at hall
  have hnode : s.base.node (basePos s.base (pos - 1) false).1.idx = n := by
    rw [hat.idx]
    exact node_of_eq hat.nodes
  unfold externDel
  rw [if_neg (by omega), if_neg (by omega)]
  dsimp only
  rw [if_neg hmod']
  unfold delAfter
  dsimp only
  rw [hnode, if_neg (by omega)]

/-- A range whose last position wraps is iterated over. -/
theorem iterFwdBeg_wraps (h1 : 2 ≤ pos) (h2 : pos ≤ s.base.len) (hb : s.base.len < 2 ^ 64)
    (hlen : len < 2 ^ 64) (h3 : 2 ^ 64 < pos + len) : (iterFwdBeg s pos len).1 ≠ none := by
  have hr : rangeOk s.base pos len = true := by
    unfold rangeOk scPoslast
    simp only [decide_eq_true_eq]
    exact ⟨by omega, .inl ⟨h2, by omega⟩⟩
  unfold iterFwdBeg
  rw [if_neg (by simp [hr]; omega)]
  simp

/-- When `len + base->used` wraps, more than the first node is taken from it. -/
theorem not_exact_used (u : Usable E P s) (hlen : len < 2 ^ 64)
    (hi : ¬ s.base.cacheAvailable = true ∨ s.base.cacheInternal = true) (h2 : 1 ≤ s.base.len)
    (h3 : 2 ^ 64 ≤ len + s.base.used) : ¬ DelExact s 1 len := by
  intro d
  have hv := u.sound.valid
  have hu : s.base.used ≠ 0 := by omega
  obtain ⟨n, ns, hns, hbuf, hlt⟩ := hv.used hu
  have hmax := hv.max n (by rw [hns]; simp)
  have hsmall : maxNodeAll < 2 ^ 28 := by decide
  have hdel : delSize s 1 len = (true, delFastBeg s len) := by
    unfold delSize delSum
    rw [if_neg (by omega), if_neg (by omega), if_pos hi, node_zero_of_eq hns,
      if_pos ⟨rfl, by omega⟩]
  by_cases hin : InString s.base 1 len
  · have hval := d.valid hin
    rw [hdel] at hval
    have hbase : (delFastBeg s len).base.used = (s.base.used + len) % 2 ^ 16 ∧
        (delFastBeg s len).base.nodes = s.base.nodes ∧
          (delFastBeg s len).base.len = sizeSub s.base.len len := by
      unfold delFastBeg cacheIovecDelNodeBeg delFastCaches
      rw [hns]
      dsimp only
      rw [hbuf]
      dsimp only
      split <;> split <;> exact ⟨rfl, hns, rfl⟩
    have hl := hval.len
    have hl' := hv.len
    have hin' := hin.2
    have hmod := Nat.mod_lt (s.base.used + len) (show 0 < 2 ^ 16 by decide)
    rw [hbase.1, hbase.2.1, hbase.2.2, sizeSub_of_le (by omega)] at hl
    omega
  · have := d.refuses (by omega) hin
    rw [hdel] at this
    cases this

/-- When the offset of a node wraps, the bytes that stay are read at the wrong place. -/
theorem not_exact_offset {r off : Nat} (u : Usable E P s) (hlen : len < 2 ^ 64)
    (hin : InString s.base pos len) (h0 : len ≠ 0) (hns : s.base.nodes = pre ++ n :: post)
    (hd : n.data = .ref r off) (h1 : lens pre < s.base.used + (pos - 1) + len)
    (h2 : s.base.used + (pos - 1) + len < lens pre + n.len)
    (h3 : 2 ^ 32 ≤ off + (s.base.used + (pos - 1) + len - lens pre))
    (h4 : lens pre < s.base.used + (pos - 1) →
      (rangeSpare s.heap s.base.conf .ref 1).1 = true) : ¬ DelExact s pos len := by
  intro d
  have e : delSize s pos len = del s pos len := by
    refine delSize_eq_del fun hi hp => ?_
    by_contra hw
    subst hp
    have := hin.2
    exact not_exact_used u hlen hi (by omega) (by omega) d
  obtain ⟨P', s', ⟨es, k⟩ | ⟨es, ⟨hz, -, -⟩ | dd⟩⟩ := del_spec u.sound u.posOk hin.1 hin.2
  · obtain ⟨pre', n', post', hns', hi1, hi2⟩ := k.inside
    obtain ⟨rfl, rfl, rfl⟩ := node_unique (p := s.base.used + (pos - 1) + len)
      (hns.symm.trans hns') h1 (by omega) (by omega) (by omega)
    have hdel := del_inside_ref u.sound u.posOk hns hd (Nat.pos_of_ne_zero h0) hi1 h2
    rw [es, h4 hi1] at hdel
    cases hdel
  · exact h0 hz
  · obtain ⟨-, -, hs⟩ := d.deletes hin (by rw [e, es])
    rw [e, es] at hs
    have := dd.sources.mp hs pre n post r off hns hd h1 h2
    omega

/-- A request that gets through is not what it should be. -/
theorem Wraps.not_exact (u : Usable E P s) (hb : s.base.len < 2 ^ 64) (hlen : len < 2 ^ 64)
    (w : Wraps s pos len) : ¬ DelExact s pos len := by
  cases w with
  | poslast h1 h2 h3 =>
    intro d
    have hout : ¬ InString s.base pos len := by
      unfold InString
      omega
    have hdel : (delSize s pos len).1 = true := by
      rw [delSize_eq_del fun _ h => by omega]
      have hend : len ≠ scPosdiff pos s.base.len := by
        unfold scPosdiff
        omega
      have hpos : pos ≠ 1 := by omega
      have hext := externDel_wraps u h1 h2 hb hlen h3
      unfold del delSum
      rw [if_neg (by omega), if_neg (by omega)]
      simp only [hpos, hend, false_and, and_false, if_false, ite_self]
      exact hext
    rw [d.refuses (by omega) hout] at hdel
    cases hdel
  | used hi h1 h2 h3 =>
    subst h1
    exact not_exact_used u hlen hi h2 h3
  | null hi h1 h2 h3 =>
    intro d
    have hf : delFaults s.base pos len = true := by
      unfold delFaults
      simp only [decide_eq_true_eq]
      exact ⟨(u.sound.valid.nil_of_len h2).1, by omega, h3, hi⟩
    rw [d.safe] at hf
    cases hf
  | offset hin h0 hns hd h1 h2 h3 h4 => exact not_exact_offset u hlen hin h0 hns hd h1 h2 h3 h4

/-! ## Requests that are checked -/

/-- A range that is not inside the string is refused. -/
theorem delSize_refuses (u : Usable E P s) (hb : s.base.len < 2 ^ 64)
    (hpos : pos < 2 ^ 64) (hlen : len < 2 ^ 64) (w : ¬ Wraps s pos len) (h0 : len ≠ 0)
    (hout : ¬ InString s.base pos len) : delSize s pos len = (false, s) := by
  have hv := u.sound.valid
  unfold InString at hout
  have hsum : (¬ s.base.cacheAvailable = true ∨ s.base.cacheInternal = true) → pos = 1 →
      pos ≤ s.base.len → len + s.base.used < 2 ^ 64 := by
    intro hi h1 h2
    by_contra hc
    exact w (.used hi h1 (by omega) (by omega))
  have hlast : 2 ≤ pos → pos ≤ s.base.len → pos + len ≤ 2 ^ 64 := by
    intro h1 h2
    by_contra hc
    exact w (.poslast h1 h2 (by omega))
  by_cases hbig : pos > s.base.len
  · unfold delSize delSum
    rw [if_pos ⟨hbig, h0⟩]
  · have hext : externDel s pos len = (false, s) := by
      unfold externDel
      rw [if_pos]
      by_cases hp0 : pos = 0
      · exact .inr (.inl hp0)
      · refine .inr (.inr (.inr ?_))
        unfold scPoslast
        by_cases hp1 : pos = 1
        · omega
        · have := hlast (by omega) (by omega)
          omega
    have hfirst : (¬ s.base.cacheAvailable = true ∨ s.base.cacheInternal = true) →
        ¬ (pos = 1 ∧ len + s.base.used < (s.base.node 0).len) := by
      rintro hi ⟨h1, hlt⟩
      obtain ⟨n, ns, hns⟩ := List.exists_cons_of_ne_nil (hv.nodes_ne_nil (by omega))
      have hall := hv.len
      rw [hns, lens_cons] at hall
      rw [node_zero_of_eq hns] at hlt
      omega
    have hend : ∀ x, ¬ (pos > x ∧ len = scPosdiff pos s.base.len) := by
      rintro x ⟨hx, he⟩
      unfold scPosdiff at he
      omega
    rw [delSize_eq_del fun hi h1 => hsum hi h1 (by omega)]
    unfold del delSum
    rw [if_neg (by omega), if_neg h0]
    by_cases hi : ¬ s.base.cacheAvailable = true ∨ s.base.cacheInternal = true
    · rw [if_pos hi, if_neg (hfirst hi)]
      dsimp only
      rw [if_neg (hend _), hext]
    · rw [if_neg hi, hext]

/-- What a request is that is checked. -/
theorem delExact_of (u : Usable E P s) (hb : s.base.len < 2 ^ 64) (hpos : pos < 2 ^ 64)
    (hlen : len < 2 ^ 64) (w : ¬ Wraps s pos len) : DelExact s pos len := by
  have hv := u.sound.valid
  have hsafe : delFaults s.base pos len = false := by
    rw [← Bool.not_eq_true]
    intro hf
    unfold delFaults at hf
    simp only [decide_eq_true_eq] at hf
    obtain ⟨hns, hle, h0, hi⟩ := hf
    have hl := hv.len
    rw [hns, lens_nil] at hl
    exact w (.null hi (by omega) (by omega) h0)
  have hspec : InString s.base pos len → delSize s pos len = del s pos len ∧
      DelSpec False E P s pos len (del s pos len) := by
    rintro ⟨h1, h2⟩
    refine ⟨delSize_eq_del fun hi hp => ?_, del_spec u.sound u.posOk h1 h2⟩
    by_contra hc
    have hu : s.base.used ≤ 2 ^ 28 := by
      by_cases hu : s.base.used = 0
      · omega
      · obtain ⟨n, ns, hns, -, hlt⟩ := hv.used hu
        have hmax := hv.max n (by rw [hns]; simp)
        have hsmall : maxNodeAll < 2 ^ 28 := by decide
        omega
    exact w (.used hi hp (by omega) (by omega))
  refine ⟨hsafe, delSize_refuses u hb hpos hlen w, fun hin => ?_, fun hin ht => ?_,
    fun hin ht => ?_⟩
  · obtain ⟨e, P', s', ⟨es, k⟩ | ⟨es, ⟨-, -, rfl⟩ | d⟩⟩ := hspec hin
    · rw [e, es]
      exact k.stayed.sound.valid
    · rw [e, es]
      exact hv
    · rw [e, es]
      exact d.sound.valid
  · by_cases h0 : len = 0
    · subst h0
      have e : delSize s pos 0 = (true, s) := by
        unfold delSize delSum
        rw [if_neg (by simp), if_pos rfl]
      rw [e]
      exact ⟨rfl, (deleteRange_zero _ _).symm, (deleteRange_zero _ _).symm⟩
    obtain ⟨e, P', s', ⟨es, -⟩ | ⟨es, ⟨hz, -⟩ | d⟩⟩ := hspec hin
    · rw [e, es] at ht
      cases ht
    · exact absurd hz h0
    · rw [e, es] at ht ⊢
      have hcut : CutOk s.base.nodes (s.base.used + (pos - 1) + len) := by
        intro pre n post r off hns hd h1 h2
        by_contra h3
        refine w (.offset hin h0 hns hd h1 h2 (by omega) fun h => ?_)
        rw [← del_inside_ref u.sound u.posOk hns hd (Nat.pos_of_ne_zero h0) h h2, es]
      exact ⟨d.length, d.content u.ptrSafe hcut, d.sources.mpr hcut⟩
  · obtain ⟨e, P', s', ⟨es, k⟩ | ⟨es, -⟩⟩ := hspec hin
    · rw [e, es]
      exact ⟨k.base, k.content u.ptrSafe⟩
    · rw [e, es] at ht
      cases ht

/-- What an iteration is that is checked. -/
theorem iterExact_of (u : Usable E P s) (hlen : len < 2 ^ 64) (w : ¬ Wraps s pos len) :
    IterExact s pos len := by
  refine ⟨fun h0 hout => ?_, fun h0 hin => ?_⟩
  · have hr : ¬ rangeOk s.base pos len = true := by
      unfold rangeOk scPoslast
      unfold InString at hout
      simp only [decide_eq_true_eq]
      rintro ⟨hp, ⟨hle, hmod⟩ | hz⟩
      · by_cases hw : 2 ≤ pos ∧ 2 ^ 64 < pos + len
        · exact w (.poslast hw.1 hle hw.2)
        · omega
      · exact h0 hz
    unfold iterFwdBeg
    rw [if_pos (.inl hr)]
  · obtain ⟨it, b', pre, post, e, rfl, on, hsum, -, -, -, hslice⟩ :=
      iterFwdBeg_spec u.sound u.posOk hin.1 hin.2 (by omega)
    have hcore := core_basePos s.base pos true
    have hns := nodes_of_core hcore
    refine ⟨it, _, e, content_congr hcore, ?_⟩
    have hpost : post.length ≤ (basePos s.base pos true).2.nodes.length := by
      rw [on.nodes]
      simp
      omega
    have c := iterAll_covers s.heap on (by rw [hns]; exact u.sound.owned.nodes.nodup) hpost
    rw [hslice, ← hsum]
    exact c.bytes

/-- The range checks are exact unless a sum wraps, or an empty string is asked for its last
node. -/
theorem range_exact_iff (u : Usable E P s) (hb : s.base.len < 2 ^ 64) (hpos : pos < 2 ^ 64)
    (hlen : len < 2 ^ 64) :
    (DelExact s pos len ∧ IterExact s pos len) ↔ ¬ Wraps s pos len := by
  constructor
  · rintro ⟨d, -⟩ w
    exact w.not_exact u hb hlen d
  · intro w
    exact ⟨delExact_of u hb hpos hlen w, iterExact_of u hlen w⟩

/-- The check of a range of `abcd`. -/
theorem range_exact_abcd : DelExact abcd 2 (2 ^ 64 - 3) ∧ IterExact abcd 2 (2 ^ 64 - 3) := by
  obtain ⟨P, u, -, -⟩ := callRun_abcd.usable usable_blank fun m hm => by cases hm
  have hl : abcd.base.len = 4 := by decide
  refine (range_exact_iff u (by rw [hl]; decide) (by decide) (by decide)).mpr ?_
  rintro (⟨-, -, h⟩ | ⟨-, h, -, -⟩ | ⟨-, h, -, -⟩ | ⟨⟨-, h⟩, -⟩) <;> omega

/-- The second byte of `abcd` and all that follow it up to the first one, which wraps. -/
theorem range_wraps_abcd : (∃ P, Usable alone P abcd) ∧ ¬ InString abcd.base 2 (2 ^ 64 - 1) ∧
    (delSize abcd 2 (2 ^ 64 - 1)).1 = true ∧ (iterFwdBeg abcd 2 (2 ^ 64 - 1)).1 ≠ none ∧
    ¬ DelExact abcd 2 (2 ^ 64 - 1) := by
  obtain ⟨P, u, -, -⟩ := callRun_abcd.usable usable_blank fun m hm => by cases hm
  have hl : abcd.base.len = 4 := by decide
  have hw : Wraps abcd 2 (2 ^ 64 - 1) := .poslast (by decide) (by omega) (by decide)
  refine ⟨⟨P, u⟩, ?_, ?_, ?_, hw.not_exact u (by omega) (by decide)⟩
  · rintro ⟨-, h⟩
    omega
  · have hext := externDel_wraps u (show 2 ≤ 2 by decide) (by omega) (by omega)
      (show 2 ^ 64 - 1 < 2 ^ 64 by decide) (by decide)
    rw [delSize_eq_del fun _ h => by omega]
    unfold del delSum
    rw [hl, if_neg (by decide), if_neg (by decide)]
    simp only [scPosdiff]
    simpa using hext
  · exact iterFwdBeg_wraps (by decide) (by omega) (by omega) (by decide) (by decide)

end Vstr
