import Vstr.Edit.Named
import Vstr.Run.Calls

/-!
# Long pointers and references

Which bytes a string names, node by node. An add of a pointer or a reference asks for
consecutive bytes of its source; the nodes it makes name them only when the data is taken
whole, by one node for a reference. What is left over when the node at the position took a
part, and all but the first node of a long reference, start at the wrong place.
-/

namespace Vstr

open Memory Splice

/-- The bytes that an add is meant to name. -/
def AddKind.stretch (k : AddKind) (len : Nat) : List Src :=
  match k with
  | ptr a => (Payload.ptr a).stretch len
  | ref r off => (Payload.ref r off).stretch len
  | _ => List.replicate len .own

variable {E : Env} {P P' : Own} {s s' : St} {h : Heap} {pre post : List Node} {n : Node}
variable {k : AddKind} {q : Prop} {pos len : Nat}

@[simp] theorem AddKind.length_stretch (k : AddKind) (len : Nat) :
    (k.stretch len).length = len := by
  cases k <;> simp [AddKind.stretch]

/-! ## New nodes -/

/-- Where the bytes of new nodes start. -/
theorem head?_named_addLoop (max : Nat) (atEnd : Bool) (ids : List Nat) (k : AddKind) (len : Nat)
    (s : St) (hmax : 0 < max) (hlen : 0 < len) (hids : allocNum len max ≤ ids.length) :
    (named (addLoop max atEnd ids k len s).1).head? = (k.payload.stretch 1).head? := by
  cases ids with
  | nil =>
    have := allocNum_pos hlen max
    rw [List.length_nil] at hids
    omega
  | cons id ids =>
    obtain ⟨b, -, e⟩ := addLoop_cons max atEnd id ids k len s
    have hpos : 0 < min max len := by omega
    have hone : (k.payload.stretch (min max len)).head? = (k.payload.stretch 1).head? := by
      rw [Payload.head?_stretch _ hpos, Payload.head?_stretch _ Nat.one_pos]
    have hne : k.payload.stretch (min max len) ≠ [] := by
      rw [← List.length_pos_iff, Payload.length_stretch]
      exact hpos
    rw [e]
    split
    · rw [named_cons, List.head?_append_of_ne_nil _ hne, hone]
    · dsimp only
      rw [named_cons, List.head?_append_of_ne_nil _ hne, hone]

/-- One turn of the loop. -/
theorem named_addLoop_step (max : Nat) (atEnd : Bool) (ids : List Nat) (k : AddKind) (len : Nat)
    (s : St) (hmax : 0 < max) (hlt : max < len) (hids : allocNum len max ≤ ids.length) :
    ∃ ids' s', allocNum (len - max) max ≤ ids'.length ∧
      named (addLoop max atEnd ids k len s).1 = k.payload.stretch max ++
        named (addLoop max atEnd ids' (k.advance max len) (len - max) s').1 := by
  have hstep := allocNum_step hmax (Nat.le_of_lt hlt)
  cases ids with
  | nil =>
    rw [List.length_nil] at hids
    omega
  | cons id ids =>
    obtain ⟨b, -, e⟩ := addLoop_cons max atEnd id ids k len s
    rw [List.length_cons] at hids
    rw [Nat.min_eq_left (Nat.le_of_lt hlt), if_neg (by omega)] at e
    refine ⟨ids, ⟨k.fillNew s.heap id max, b⟩, by omega, ?_⟩
    rw [e]
    dsimp only
    rw [named_cons]

/-- The last turn. -/
theorem named_addLoop_last (max : Nat) (atEnd : Bool) (ids : List Nat) (k : AddKind) (len : Nat)
    (s : St) (hlen : 0 < len) (hle : len ≤ max) (hids : allocNum len max ≤ ids.length) :
    named (addLoop max atEnd ids k len s).1 = k.payload.stretch len := by
  cases ids with
  | nil =>
    have := allocNum_pos hlen max
    rw [List.length_nil] at hids
    omega
  | cons id ids =>
    obtain ⟨b, -, e⟩ := addLoop_cons max atEnd id ids k len s
    rw [Nat.min_eq_right hle, if_pos (by omega)] at e
    rw [e, named_cons, named_nil, List.append_nil]

/-- New `PTR` nodes name the memory that is added. -/
theorem named_addLoop_ptr (max : Nat) (atEnd : Bool) (ids : List Nat) (a : Addr) (len : Nat)
    (s : St) (hmax : 0 < max) (hlen : 0 < len) (hids : allocNum len max ≤ ids.length) :
    named (addLoop max atEnd ids (.ptr a) len s).1 = (Payload.ptr a).stretch len := by
  induction len using Nat.strongRecOn generalizing ids a s with
  | _ len ih =>
    rcases Nat.lt_or_ge max len with hlt | hle
    · obtain ⟨ids', s', hids', e⟩ := named_addLoop_step max atEnd ids (.ptr a) len s hmax hlt hids
      rw [e]
      have hrest := ih (len - max) (by omega) ids' (a.add max) s' (by omega) hids'
      have hlen' : len = max + (len - max) := by omega
      simp only [AddKind.advance, AddKind.payload]
      rw [hrest]
      rw [hlen', Payload.stretch_add, ← hlen']
      rfl
    · exact named_addLoop_last max atEnd ids (.ptr a) len s hlen hle hids

/-- New `REF` nodes name the bytes that are added exactly when there is one of them, and
the offset is a 32 bit one. -/
theorem named_addLoop_ref (atEnd : Bool) (ids : List Nat) (r off len : Nat) (s : St)
    (hlen : 0 < len) (hids : allocNum len maxNodeAll ≤ ids.length) :
    named (addLoop maxNodeAll atEnd ids (.ref r off) len s).1 = (Payload.ref r off).stretch len ↔
      (AddKind.ref r off).Short maxNodeAll len := by
  generalize hm : maxNodeAll = max at hids ⊢
  have hm' : max = 268435455 := hm.symm
  have hmax : 0 < max := by omega
  rcases Nat.lt_or_ge max len with hlt | hle
  · refine ⟨fun e => ?_, fun hs => absurd hs.1 (by omega)⟩
    obtain ⟨ids', s', hids', e₁⟩ :=
      named_addLoop_step max atEnd ids (.ref r off) len s hmax hlt hids
    have hlen' : len = max + (len - max) := by omega
    rw [e₁, hlen', Payload.stretch_add, ← hlen'] at e
    obtain ⟨hfst, hsnd⟩ := List.append_inj e (by simp)
    have h1 : refOff off = off := stretch_ref_inj hmax hfst
    have hhead := head?_named_addLoop max atEnd ids'
      ((AddKind.ref r off).advance max len) (len - max) s' hmax (by omega) hids'
    rw [hsnd, Payload.head?_stretch _ (by omega), Payload.head?_stretch _ Nat.one_pos] at hhead
    simp only [Payload.rest, AddKind.advance, AddKind.payload] at hhead
    have h2 : off + max = refOff (off + len) := (Src.ref.inj (Option.some.inj hhead)).2
    have hlt₂ : max < len - max := by
      unfold refOff at h1 h2
      omega
    obtain ⟨ids'', s'', hids'', e₂⟩ := named_addLoop_step max atEnd ids'
      ((AddKind.ref r off).advance max len) (len - max) s' hmax hlt₂ hids'
    have hlen'' : len - max = max + (len - max - max) := by omega
    rw [e₂, hlen'', Payload.stretch_add, ← hlen''] at hsnd
    obtain ⟨-, hthd⟩ := List.append_inj hsnd (by simp)
    have hhead' := head?_named_addLoop max atEnd ids''
      (((AddKind.ref r off).advance max len).advance max (len - max))
      (len - max - max) s'' hmax (by omega) hids''
    rw [hthd, Payload.head?_stretch _ (by omega), Payload.head?_stretch _ Nat.one_pos] at hhead'
    simp only [Payload.rest, AddKind.advance, AddKind.payload] at hhead'
    have h3 : off + max + max = refOff (off + len + (len - max)) :=
      (Src.ref.inj (Option.some.inj hhead')).2
    unfold refOff at h1 h2 h3
    omega
  · rw [named_addLoop_last max atEnd ids (.ref r off) len s hlen hle hids]
    constructor
    · intro e
      have h1 : refOff off = off := stretch_ref_inj hlen e
      exact ⟨hle, by unfold refOff at h1; omega⟩
    · intro hs
      have h1 : refOff off = off := Nat.mod_eq_of_lt hs.2
      rw [AddKind.payload, h1]

/-! ## The nodes after an add -/

/-- `new` are the nodes for `len` bytes. -/
def NewNodes (k : AddKind) (max len : Nat) (new : List Node) : Prop :=
  (len = 0 ∧ new = []) ∨ (0 < len ∧ ∃ atEnd ids s, allocNum len max ≤ ids.length ∧
    new = (addLoop max atEnd ids k len s).1)

/-- How many bytes the node at the position takes. -/
def AddKind.taken (conf : Conf) (n : Node) (len : Nat) (k : AddKind) : Nat :=
  if k.absorbs conf n then min (k.max conf - n.len) len else 0

/-- The nodes that are linked in. -/
theorem addLink_nodes {a b : List Node} (sd : Sound E P s) (hns : s.base.nodes = a ++ b)
    (hlen : 0 < len) (hsp : allocNum len (k.max s.conf) ≤ (s.conf.spare k.type).length)
    (atEnd : Bool) (origPos origLen : Nat) :
    ∃ new, NewNodes k (k.max s.conf) len new ∧
      (addLink k s a.length atEnd len origPos origLen).base.nodes = a ++ new ++ b ∧
      (addLink k s a.length atEnd len origPos origLen).base.used = s.base.used := by
  obtain ⟨r, b', hr, he, hb⟩ := addLink_base s hns (k.max_pos sd) hlen hsp atEnd origPos origLen
  refine ⟨r.1, .inr ⟨hlen, atEnd, _, _, hsp, by rw [hr]⟩, ?_, ?_⟩
  · rw [he]
    dsimp only
    rw [nodes_of_core (core_cacheAdd _ _ _)]
    exact (congrArg Base.nodes hb :)
  · rw [he]
    dsimp only
    rw [used_of_core (core_cacheAdd _ _ _)]
    exact (congrArg Base.used hb :)

theorem AddKind.absorbed_of_ne (hty : k.type ≠ .buf) (m : Nat) : k.absorbed m = k := by
  cases k with
  | buf a => exact absurd rfl hty
  | _ => rfl

theorem AddKind.fill_of_ne (hty : k.type ≠ .buf) (h : Heap) (dst : Addr) (m : Nat) :
    k.fill h dst m = h := by
  rcases k.fill_cases h dst m with ⟨-, -, e, -⟩ | ⟨-, e⟩
  · exact absurd e hty
  · exact e

/-- The nodes after an add behind a node that takes no more. -/
theorem addBehind_nodes {f : Found} (sd : Sound E P s) (hns : s.base.nodes = pre ++ n :: post)
    (hidx : f.idx = pre.length) (hlen : 0 < len)
    (hsp : allocNum len (k.max s.conf) ≤ (s.conf.spare k.type).length) (origLen : Nat) :
    ∃ new, NewNodes k (k.max s.conf) len new ∧
      (addLink k { s with base := addKillIovec s.base f.idx } (f.idx + 1) true len pos
        origLen).base.nodes = pre ++ n :: new ++ post ∧
      (addLink k { s with base := addKillIovec s.base f.idx } (f.idx + 1) true len pos
        origLen).base.used = s.base.used := by
  have hb := noVec_addKillIovec s.base f.idx
  have sd' : Sound E P { s with base := addKillIovec s.base f.idx } :=
    sd.congr (core_of_noVec hb)
  have hns' : (addKillIovec s.base f.idx).nodes = (pre ++ [n]) ++ post := by
    have : (addKillIovec s.base f.idx).nodes = s.base.nodes := (congrArg Base.nodes hb :)
    rw [this, hns, List.append_assoc, List.singleton_append]
  have hc : St.conf { s with base := addKillIovec s.base f.idx } = s.conf := by
    have hconf : (addKillIovec s.base f.idx).conf = s.base.conf := (congrArg Base.conf hb :)
    unfold St.conf
    dsimp only
    rw [hconf]
  have hi : f.idx + 1 = (pre ++ [n]).length := by
    rw [hidx]
    simp
  rw [hi]
  obtain ⟨new, hnew, hn', hu'⟩ := addLink_nodes (k := k) sd' hns' hlen (by rw [hc]; exact hsp)
    true pos origLen
  rw [hc] at hnew
  refine ⟨new, hnew, ?_, ?_⟩
  · rw [hn']
    simp
  · rw [hu']
    exact (congrArg Base.used hb :)

/-- The nodes after an add behind the node `n`: it takes what it can, new nodes the rest. -/
theorem addAt_nodes {f : Found} (sd : Sound E P s) (hat : At s.base pos f pre n post)
    (hlen : 0 < len) (hty : k.type ≠ .buf) (e : addAt k s f pos len = (true, s')) :
    ∃ new, NewNodes k (k.max s.conf) (len - k.taken s.conf n len) new ∧
      s'.base.nodes = pre ++ { n with len := n.len + k.taken s.conf n len } :: new ++ post ∧
      s'.base.used = s.base.used := by
  have hnode : s.base.node f.idx = n := by
    rw [hat.idx]
    exact node_of_eq hat.nodes
  unfold addAt at e
  dsimp only at e
  rw [hnode, if_neg (fun hf => hty hf.1)] at e
  obtain ⟨P₁, mk, hsp⟩ := makes_rangeSpare (E := E) sd.owned.heap s.base.conf k.type
    (allocNum len (k.max s.conf))
  generalize rangeSpare s.heap s.base.conf k.type (allocNum len (k.max s.conf)) = g at e mk hsp
  obtain ⟨ok, h⟩ := g
  cases ok with
  | false => cases e
  | true =>
    dsimp only at e
    have hb : (St.conf { s with heap := h }).bufSz = s.conf.bufSz := mk.frame.bufSz _
    have sd₁ : Sound E P₁ { s with heap := h } := sd.makes mk
    have hmax : k.max (St.conf { s with heap := h }) = k.max s.conf := by
      unfold AddKind.max
      rw [hb]
    have hsp₁ : allocNum len (k.max (St.conf { s with heap := h })) ≤
        ((St.conf { s with heap := h }).spare k.type).length := by
      rw [hmax]
      exact hsp rfl
    have htaken : k.taken (St.conf { s with heap := h }) n len = k.taken s.conf n len := by
      unfold AddKind.taken
      rw [hmax, AddKind.absorbs_congr hb]
    by_cases ha : k.absorbs (St.conf { s with heap := h }) n = true
    · rw [if_pos ha] at e
      obtain ⟨s₁, e₁, sd₂, -, hb₁, hh₁⟩ := addAbsorb_spec sd₁ hat.nodes hat.idx ha len
      have hm : min (k.max (St.conf { s with heap := h }) - n.len) len = k.taken s.conf n len := by
        rw [← htaken, AddKind.taken, if_pos ha]
      rw [hm] at e₁ hb₁ hh₁
      rw [e₁] at e
      dsimp only at e
      have hle : k.taken s.conf n len ≤ len := by omega
      have hn₁ : s₁.base.nodes =
          pre ++ { n with len := n.len + k.taken s.conf n len } :: post :=
        (congrArg Base.nodes hb₁ :)
      have hu₁ : s₁.base.used = s.base.used := (congrArg Base.used hb₁ :)
      split at e
      · rename_i h0
        obtain rfl := (Prod.mk.inj e).2
        refine ⟨[], .inl ⟨h0, rfl⟩, ?_, ?_⟩
        · dsimp only
          rw [nodes_of_core (core_cacheAdd _ _ _), hn₁]
          simp
        · dsimp only
          rw [used_of_core (core_cacheAdd _ _ _), hu₁]
      · rename_i h0
        obtain rfl := (Prod.mk.inj e).2
        have hc₁ : s₁.conf = St.conf { s with heap := h } := by
          have hconf : s₁.base.conf = s.base.conf := (congrArg Base.conf hb₁ :)
          unfold St.conf
          dsimp only
          rw [hconf, hh₁, AddKind.fill_of_ne hty]
        rw [AddKind.absorbed_of_ne hty, ← hmax, ← hc₁, ← hu₁]
        refine addBehind_nodes sd₂ hn₁ hat.idx (by omega) ?_ len
        rw [hc₁]
        exact Nat.le_trans (allocNum_mono _ (Nat.sub_le _ _)) hsp₁
    · rw [if_neg ha] at e
      obtain rfl := (Prod.mk.inj e).2
      have h0 : k.taken s.conf n len = 0 := by
        rw [← htaken, AddKind.taken, if_neg ha]
      rw [h0, Nat.sub_zero, ← hmax]
      exact addBehind_nodes sd₁ hat.nodes hat.idx hlen hsp₁ len

/-! ## What the nodes name -/

theorem NewNodes.lens {max : Nat} {new : List Node} (h : NewNodes k max len new)
    (hmax : 0 < max) : lens new = len := by
  rcases h with ⟨rfl, rfl⟩ | ⟨hlen, atEnd, ids, s, hids, rfl⟩
  · rfl
  · exact (addLoop_spec max atEnd ids k len s hmax hlen hids).1.lens

theorem NewNodes.named_ptr {max : Nat} {new : List Node} {a : Addr}
    (h : NewNodes (.ptr a) max len new) (hmax : 0 < max) :
    named new = (Payload.ptr a).stretch len := by
  rcases h with ⟨rfl, rfl⟩ | ⟨hlen, atEnd, ids, s, hids, rfl⟩
  · rfl
  · exact named_addLoop_ptr max atEnd ids a len s hmax hlen hids

theorem NewNodes.named_ref {new : List Node} {r off : Nat} (hlen : 0 < len)
    (h : NewNodes (.ref r off) maxNodeAll len new) :
    named new = (Payload.ref r off).stretch len ↔ off < 2 ^ 32 ∧ len ≤ maxNodeAll := by
  rcases h with ⟨h0, -⟩ | ⟨-, atEnd, ids, s, hids, rfl⟩
  · omega
  · rw [named_addLoop_ref atEnd ids r off len s hlen hids]
    exact and_comm

/-- A pointer is named as it is meant to be, unless the node at the position takes a part
of it. -/
theorem named_ptr_iff {conf : Conf} {new : List Node} {a : Addr}
    (h : NewNodes (.ptr a) maxNodeAll (len - (AddKind.ptr a).taken conf n len) new) :
    (n.data.rest n.len).stretch ((AddKind.ptr a).taken conf n len) ++ named new =
        (AddKind.ptr a).stretch len ↔ (AddKind.ptr a).Meant conf n len := by
  have hnew := h.named_ptr (Nat.succ_pos _)
  unfold AddKind.Meant AddKind.stretch
  dsimp only
  rw [hnew]
  by_cases ha : (AddKind.ptr a).absorbs conf n = true
  · have hmax : (AddKind.ptr a).max conf = maxNodeAll := rfl
    have hlt := (AddKind.absorbs_type ha).2
    have hd : n.data.rest n.len = .ptr a := by
      unfold AddKind.absorbs at ha
      cases hd : n.data with
      | ptr q =>
        rw [hd] at ha
        simp only [decide_eq_true_eq] at ha
        rw [Payload.rest, ha.1]
      | _ =>
        rw [hd] at ha
        cases ha
    rw [hd]
    generalize hm : (AddKind.ptr a).taken conf n len = m
    rw [AddKind.taken, if_pos ha, hmax] at hm
    rw [hmax] at hlt
    have hlen' : len = m + (len - m) := by omega
    constructor
    · intro e _
      by_contra hgt
      rw [hlen', Payload.stretch_add, ← hlen'] at e
      have hrest := List.append_cancel_left e
      have hpos : 0 < len - m := by omega
      have hoff := congrArg Ptr.off (stretch_ptr_inj hpos hrest)
      rw [Ptr.add_off] at hoff
      omega
    · intro hle
      have hle := hle ha
      have h0 : m = len := by omega
      rw [h0, Nat.sub_self]
      exact List.append_nil _
  · have h0 : (AddKind.ptr a).taken conf n len = 0 := if_neg ha
    rw [h0, Nat.sub_zero]
    constructor
    · intro _ ha'
      exact absurd ha' ha
    · intro _
      have hnil : (n.data.rest n.len).stretch 0 = [] :=
        List.length_eq_zero_iff.mp (Payload.length_stretch _ _)
      rw [hnil, List.nil_append]

/-- A reference is named as it is meant to be, if one node takes it whole. -/
theorem named_ref_iff {conf : Conf} {new : List Node} {r off : Nat} (hlen : 0 < len)
    (h : NewNodes (.ref r off) maxNodeAll (len - (AddKind.ref r off).taken conf n len) new) :
    (n.data.rest n.len).stretch ((AddKind.ref r off).taken conf n len) ++ named new =
        (AddKind.ref r off).stretch len ↔ (AddKind.ref r off).Meant conf n len := by
  unfold AddKind.Meant AddKind.stretch
  dsimp only
  by_cases ha : (AddKind.ref r off).absorbs conf n = true
  · have hmax : (AddKind.ref r off).max conf = maxNodeAll := rfl
    have hlt := (AddKind.absorbs_type ha).2
    obtain ⟨off', hd, hoff⟩ : ∃ off', n.data = .ref r off' ∧ (off' + n.len) % 2 ^ 32 = off := by
      unfold AddKind.absorbs at ha
      cases hd : n.data with
      | ref r' off' =>
        rw [hd] at ha
        simp only [decide_eq_true_eq] at ha
        exact ⟨off', by rw [ha.1], ha.2.1⟩
      | _ =>
        rw [hd] at ha
        cases ha
    have hjoins : (AddKind.ref r off).Joins n ↔ off' + n.len = off := by
      unfold AddKind.Joins
      dsimp only
      rw [hd]
      constructor
      · intro hj
        exact hj r off' rfl
      · rintro hj r' o ho
        cases ho
        exact hj
    have hlt32 : off < 2 ^ 32 := by
      rw [← hoff]
      exact Nat.mod_lt _ (by decide)
    rw [hd, Payload.rest, hjoins]
    generalize hm : (AddKind.ref r off).taken conf n len = m at h
    rw [AddKind.taken, if_pos ha, hmax] at hm
    rw [hmax] at hlt
    have hlen' : len = m + (len - m) := by omega
    have hm0 : 0 < m := by omega
    constructor
    · intro e
      rw [hlen', Payload.stretch_add] at e
      obtain ⟨hfst, hsnd⟩ := List.append_inj e (by simp)
      have hj : off' + n.len = off := stretch_ref_inj hm0 hfst
      have hle : len ≤ m := by
        by_contra hgt
        have hpos : 0 < len - m := by omega
        rcases h with ⟨h0, -⟩ | ⟨-, atEnd, ids, t, hids, rfl⟩
        · omega
        · have hhead := head?_named_addLoop maxNodeAll atEnd ids (.ref r off) (len - m) t
            (Nat.succ_pos _) hpos hids
          rw [hsnd, Payload.head?_stretch _ hpos, Payload.head?_stretch _ Nat.one_pos] at hhead
          simp only [Payload.rest, AddKind.payload] at hhead
          have heq : off + m = refOff off := (Src.ref.inj (Option.some.inj hhead)).2
          unfold refOff at heq
          omega
      exact ⟨hlt32, by omega, fun _ => ⟨by omega, hj⟩⟩
    · rintro ⟨-, -, hw⟩
      obtain ⟨hle, hj⟩ := hw ha
      have h0 : m = len := by omega
      rw [h0, Nat.sub_self] at h
      rw [h0, hj]
      rcases h with ⟨-, rfl⟩ | ⟨h, -⟩
      · exact List.append_nil _
      · omega
  · have h0 : (AddKind.ref r off).taken conf n len = 0 := if_neg ha
    rw [h0, Nat.sub_zero] at h
    have hnil : (n.data.rest n.len).stretch 0 = [] :=
      List.length_eq_zero_iff.mp (Payload.length_stretch _ _)
    rw [h0, hnil, List.nil_append, h.named_ref hlen]
    constructor
    · rintro ⟨h1, h2⟩
      exact ⟨h1, h2, fun ha' => absurd ha' ha⟩
    · rintro ⟨h1, h2, -⟩
      exact ⟨h1, h2⟩

/-- The data is a pointer or a reference. -/
def AddKind.Names : AddKind → Prop
  | ptr _ => True
  | ref _ _ => True
  | _ => False

theorem AddKind.Names.max (hk : k.Names) (conf : Conf) :
    k.type ≠ .buf ∧ k.max conf = maxNodeAll := by
  cases k with
  | ptr a => exact ⟨by simp [AddKind.type], rfl⟩
  | ref r off => exact ⟨by simp [AddKind.type], rfl⟩
  | _ => exact False.elim hk

theorem named_iff {conf : Conf} {new : List Node} (hk : k.Names) (hlen : 0 < len)
    (h : NewNodes k maxNodeAll (len - k.taken conf n len) new) :
    (n.data.rest n.len).stretch (k.taken conf n len) ++ named new = k.stretch len ↔
      k.Meant conf n len := by
  cases k with
  | ptr a => exact named_ptr_iff h
  | ref r off => exact named_ref_iff hlen h
  | _ => exact False.elim hk

/-- Inserting behind the nodes `pre ++ [n]`. -/
theorem sources_insert {b b' : Base} {new : List Node} {m : Nat}
    (hpos : lens pre + n.len = pos + b.used) (hns : b.nodes = pre ++ n :: post)
    (hns' : b'.nodes = pre ++ { n with len := n.len + m } :: new ++ post)
    (hu : b'.used = b.used) :
    sources b' = insertAfter (sources b) pos ((n.data.rest n.len).stretch m ++ named new) := by
  unfold sources
  have e : named b.nodes = (named pre ++ n.data.stretch n.len) ++ named post := by
    rw [hns, named_append, named_cons, List.append_assoc]
  have e' : named b'.nodes = (named pre ++ n.data.stretch n.len) ++
      ((n.data.rest n.len).stretch m ++ named new) ++ named post := by
    rw [hns', named_append, named_append, named_cons, Payload.stretch_add]
    simp only [List.append_assoc]
  rw [e, e', hu]
  exact (insertAfter_drop (by simp [hpos])).symm

theorem length_sources {bufSz : Nat} {b : Base} (v : Valid bufSz b) :
    (sources b).length = b.len := by
  have := v.len
  rw [sources, List.length_drop, length_named]
  omega

/-- Setting up leaves what the string names, if cutting the node does not wrap an offset. -/
theorem SetUp.sources_iff {f : Found} (su : SetUp q E P s pos P' s' f pre n post) :
    sources s'.base = sources s.base ↔ s.CutFits pos := by
  have hfull := su.full
  have hidx := su.at_.idx
  have hpos := su.at_.pos
  unfold St.CutFits
  rw [← su.found, hidx]
  obtain ⟨d, -, e | ⟨n₀, beg, post₀, hns, hn, hlt, hdata, hblen, e⟩⟩ := su.base
  · have hnode : s.base.node pre.length = n := by
      have h := su.at_.nodes
      rw [e] at h
      exact node_of_eq h
    rw [hnode, e]
    constructor
    · intro _ r off _ hlt
      omega
    · intro _
      rfl
  · have hnode : s.base.node pre.length = n₀ := node_of_eq hns
    have hu : s.base.used ≤ (named pre ++ n₀.data.stretch f.pos).length := by
      have hused : s'.base.used = s.base.used := by rw [e]; rfl
      rw [List.length_append, length_named, Payload.length_stretch]
      omega
    have hlen : n₀.len = f.pos + (n₀.len - f.pos) := by omega
    have e₁ : named s.base.nodes = (named pre ++ n₀.data.stretch f.pos) ++
        ((n₀.data.rest f.pos).stretch (n₀.len - f.pos) ++ named post₀) := by
      rw [hns, named_append, named_cons, hlen, Payload.stretch_add, ← hlen]
      simp only [List.append_assoc]
    have e₂ : named s'.base.nodes = (named pre ++ n₀.data.stretch f.pos) ++
        ((n₀.data.cut f.pos).stretch (n₀.len - f.pos) ++ named post₀) := by
      rw [e]
      simp only [splitBase]
      rw [named_append, named_cons, named_cons, hdata, hblen]
      simp only [List.append_assoc]
    have hused : s'.base.used = s.base.used := by rw [e]; rfl
    rw [hnode]
    unfold sources
    rw [e₁, e₂, hused, List.drop_append_of_le_length hu, List.drop_append_of_le_length hu,
      List.append_cancel_left_eq, List.append_cancel_right_eq, stretch_cut_iff (by omega)]
    exact ⟨fun h r off he _ => h r off he, fun h r off he => h r off he hlt⟩

/-- Squeezing out used bytes leaves what the string names. -/
theorem sources_baseZeroUsed (v : Valid s.conf.bufSz s.base) :
    sources (baseZeroUsed s).base = sources s.base := by
  rcases baseZeroUsed_cases v with ⟨-, e⟩ | ⟨n, ns, hns, hd, -, hlt, e⟩
  · rw [e]
  · rw [e]
    unfold sources
    dsimp only
    rw [hns, named_cons, named_cons, hd, List.drop_zero,
      List.drop_append_of_le_length (by rw [Payload.length_stretch]; omega)]
    simp only [Payload.stretch, List.drop_replicate]

/-! ## The add functions -/

/-- What is added is taken whole: by one node if it is a reference with a 32 bit offset,
and behind a byte without wrapping the offset of the node that is cut there. The node at the
position takes all of the data, or none. -/
def AddKind.TakenWhole (s : St) (pos len : Nat) (k : AddKind) : Prop :=
  (pos ≠ 0 → s.CutFits pos ∧ k.Meant s.conf (s.upTo pos) len) ∧
    ∀ r off, k = .ref r off → off < 2 ^ 32 ∧ len ≤ maxNodeAll

/-- The bytes are in, and named as they were given; every reference counts its nodes. -/
structure LongExact (s s' : St) (k : AddKind) (pos len : Nat) : Prop where
  /-- The content. -/
  content : content s' = insertAfter (content s) pos (k.src s.heap len)
  /-- The nodes name consecutive bytes of the source. -/
  sources : sources s'.base = insertAfter (sources s.base) pos (k.stretch len)
  /-- Each new node takes its reference. -/
  refs : ∀ r, (s'.heap.refs r).ref + heldBy s.base.nodes r =
    (s.heap.refs r).ref + heldBy s'.base.nodes r

/-- What a string names after an add behind a byte. -/
theorem addAfter_sources (sd : Sound E P s) (pk : PosOk False s.base) (h1 : 1 ≤ pos)
    (h2 : pos ≤ s.base.len) (hk : k.Names) (hlen : 0 < len)
    (e : addAfter k s pos len = (true, s')) :
    sources s'.base = insertAfter (sources s.base) pos (k.stretch len) ↔
      s.CutFits pos ∧ k.Meant s.conf (s.upTo pos) len := by
  unfold addAfter at e
  obtain ⟨P₁, s₁, ⟨e₁, -⟩ | ⟨f, pre, n, post, e₁, su⟩⟩ := addSetupPos_spec sd pk h1 h2
  · rw [e₁] at e
    cases e
  · rw [e₁] at e
    obtain ⟨hty, hmax⟩ := hk.max s₁.conf
    obtain ⟨new, hnew, hns', hu⟩ := addAt_nodes su.sound su.at_ hlen hty e
    rw [hmax] at hnew
    have hpos : lens pre + n.len = pos + s₁.base.used := by
      rw [← su.full]
      exact su.at_.pos
    have hb : s₁.conf.bufSz = s.conf.bufSz := by
      unfold St.conf
      rw [su.grown.conf]
      exact su.frame.bufSz _
    have htaken : k.taken s₁.conf n len ≤ len := by
      unfold AddKind.taken
      split <;> omega
    have hl : (sources s₁.base).length = (sources s.base).length := by
      rw [length_sources su.sound.valid, length_sources sd.valid, su.grown.len]
      rfl
    rw [sources_insert hpos su.at_.nodes hns' hu, insertAfter_inj hl (by
      rw [List.length_append, Payload.length_stretch, length_named,
        hnew.lens (Nat.succ_pos _), AddKind.length_stretch]
      omega), su.sources_iff, named_iff hk hlen hnew, AddKind.meant_congr hb, su.upTo]

/-- What a string names after an add in front. -/
theorem addFront_sources (sd : Sound E P s) (pk : PosOk False s.base) (hk : k.Names)
    (hlen : 0 < len) (e : addFront k s len = (true, s')) :
    sources s'.base = insertAfter (sources s.base) 0 (k.stretch len) ↔
      ∀ r off, k = .ref r off → off < 2 ^ 32 ∧ len ≤ maxNodeAll := by
  have link : ∀ {P₁ : Own} {h₁ : Heap} (atEnd : Bool), Makes E P s.heap P₁ h₁ →
      allocNum len (k.max s.conf) ≤ ((h₁.confs s.base.conf).spare k.type).length →
      (sources (addLink k (baseZeroUsed { s with heap := h₁ }) 0 atEnd len 0 len).base =
        insertAfter (sources s.base) 0 (k.stretch len) ↔
        ∀ r off, k = .ref r off → off < 2 ^ 32 ∧ len ≤ maxNodeAll) := by
    intro P₁ h₁ atEnd mk hsp
    have sd₁ := sd.makes mk
    obtain ⟨sd₂, -, -, ⟨ns₂, hb₂⟩, -, hconfs₂, -⟩ := baseZeroUsed_spec sd₁ pk
    have hb : (St.conf { s with heap := h₁ }).bufSz = s.conf.bufSz := mk.frame.bufSz _
    have hc₂ : (baseZeroUsed { s with heap := h₁ }).conf = h₁.confs s.base.conf := by
      unfold St.conf
      rw [hconfs₂, hb₂]
    obtain ⟨-, hmax⟩ := hk.max (baseZeroUsed { s with heap := h₁ }).conf
    have hsp₂ : allocNum len (k.max (baseZeroUsed { s with heap := h₁ }).conf) ≤
        ((baseZeroUsed { s with heap := h₁ }).conf.spare k.type).length := by
      rw [hmax, ← (hk.max s.conf).2, hc₂]
      exact hsp
    obtain ⟨new, hnew, hns', hu⟩ := addLink_nodes (k := k) (a := []) sd₂ rfl hlen hsp₂ atEnd 0 len
    rw [hmax] at hnew
    have hu₂ : (baseZeroUsed { s with heap := h₁ }).base.used = 0 := by rw [hb₂]
    have hs : sources (addLink k (baseZeroUsed { s with heap := h₁ }) 0 atEnd len 0 len).base =
        insertAfter (sources s.base) 0 (named new) := by
      have h₂ := sources_baseZeroUsed (s := { s with heap := h₁ }) sd₁.valid
      rw [insertAfter_zero, ← h₂]
      unfold sources
      rw [List.length_nil] at hns' hu
      rw [hns', hu, hu₂, List.drop_zero, List.drop_zero, List.nil_append, named_append]
    rw [hs, insertAfter_inj rfl (by
      rw [length_named, hnew.lens (Nat.succ_pos _), AddKind.length_stretch])]
    cases k with
    | ptr a =>
      have h := hnew.named_ptr (Nat.succ_pos _)
      exact ⟨(fun _ r off e => by cases e), fun _ => ⟨rfl, h⟩⟩
    | ref r off =>
      have h := hnew.named_ref hlen
      constructor
      · rintro ⟨-, e⟩ r' off' he
        cases he
        exact h.mp e
      · intro h'
        exact ⟨rfl, h.mpr (h' r off rfl)⟩
    | _ => exact False.elim hk
  obtain ⟨P₁, mk, hsp⟩ := makes_rangeSpare (E := E) sd.owned.heap s.base.conf k.type
    (allocNum len (k.max s.conf))
  unfold addFront at e
  dsimp only at e
  split at e
  · cases e
  · rename_i h₁ e₁
    rw [e₁] at mk hsp
    split at e
    · obtain rfl := (Prod.mk.inj e).2
      exact link false mk (hsp rfl)
    · rename_i h0
      obtain rfl := (Prod.mk.inj e).2
      have hz : baseZeroUsed { s with heap := h₁ } = { s with heap := h₁ } := by
        have hn := (sd.valid.nil_of_len (by simpa using h0)).1
        unfold baseZeroUsed
        dsimp only
        rw [hn]
      have h := link true mk (hsp rfl)
      rwa [hz] at h

/-- What a string names after an add. -/
theorem addData_sources (sd : Sound E P s) (pk : PosOk False s.base) (hpos : pos ≤ s.base.len)
    (hk : k.Names) (hlen : 0 < len) (e : addData k s pos len = (true, s')) :
    sources s'.base = insertAfter (sources s.base) pos (k.stretch len) ↔
      k.TakenWhole s pos len := by
  unfold addData at e
  unfold AddKind.TakenWhole
  split at e
  · rename_i hne
    rw [addAfter_sources sd pk (by omega) hpos hk hlen e]
    constructor
    · rintro ⟨hc, hm⟩
      refine ⟨fun _ => ⟨hc, hm⟩, ?_⟩
      rintro r off rfl
      exact ⟨hm.1, hm.2.1⟩
    · rintro ⟨h, -⟩
      exact h hne.1
  · rename_i hne
    have h0 : pos = 0 := by omega
    rw [h0, addFront_sources sd pk hk hlen e]
    exact ⟨fun h => ⟨fun h' => absurd rfl h', h⟩, fun h => h.2⟩

/-- An add of a pointer or a reference is exact when the data is taken whole. -/
theorem longExact_iff (u : Usable E P s) (hpos : pos ≤ s.base.len) (hk : k.Names) (hlen : 0 < len)
    (hlive : ∀ r, k.held = some r → 0 < (s.heap.refs r).ref)
    (hptr : ∀ a, k = .ptr a → Foreign E P a.blk) (e : addData k s pos len = (true, s')) :
    LongExact s s' k pos len ↔ k.TakenWhole s pos len := by
  have hs := addData_sources u.sound u.posOk hpos hk hlen e
  refine ⟨fun l => hs.mp l.sources, fun hw => ⟨?_, hs.mpr hw, ?_⟩⟩
  · obtain ⟨P', s₁, ⟨e₁, -⟩ | ⟨e₁, i⟩⟩ :=
      addData_spec (k := k) u.sound u.posOk hpos hlen hlive
    · rw [e] at e₁
      cases e₁
    · rw [e] at e₁
      obtain rfl := (Prod.mk.inj e₁).2
      obtain ⟨xs, -, hc, hm⟩ := i.content u.ptrSafe fun h0 => (hw.1 h0).1
      rw [hc, hm ?_ ?_]
      · unfold AddKind.MeantAt
        split
        · cases k with
          | ptr a =>
            intro hu he
            obtain ⟨n, ns, hns, -⟩ := u.sound.valid.used hu
            rw [node_zero_of_eq hns] at he
            have hown := u.sound.owned.nodes.own n (by rw [hns]; exact List.mem_cons_self)
            rw [← he] at hown
            exact not_foreign_of_base hown (hptr a rfl)
          | ref r off => exact hw.2 r off rfl
          | _ => exact False.elim hk
        · rename_i h0
          exact (hw.1 h0).2
      · intro x hx
        cases k with
        | ptr a =>
          obtain rfl : a.blk = x := by simpa [AddKind.blk] using hx
          exact solid_of_foreign (hptr a rfl)
        | ref r off =>
          obtain rfl : (s.heap.refs r).ptr.blk = x := by simpa [AddKind.blk] using hx
          exact u.sound.owned.heap.solid_ref (hlive r rfl)
        | _ => exact False.elim hk
  · intro r
    obtain ⟨P', s₁, ⟨e₁, -⟩ | ⟨e₁, i⟩⟩ :=
      addData_spec (k := k) u.sound u.posOk hpos hlen hlive
    · rw [e] at e₁
      cases e₁
    · rw [e] at e₁
      obtain rfl := (Prod.mk.inj e₁).2
      have h₁ := i.sound.owned.refs r
      have h₂ := u.sound.owned.refs r
      omega

theorem longExact_zero (s : St) (k : AddKind) (pos : Nat) : LongExact s s k pos 0 where
  content := by
    have h0 : k.src s.heap 0 = [] := List.length_eq_zero_iff.mp (k.length_src s.heap 0)
    rw [h0, insertAfter_nil_right]
  sources := by
    have h0 : k.stretch 0 = [] := List.length_eq_zero_iff.mp (k.length_stretch 0)
    rw [h0, insertAfter_nil_right]
  refs _ := rfl

/-- `vstr_add_ptr` and `vstr_add_ref` succeed when memory can be had. When one of them
does, it inserts the bytes it was given, named by consecutive nodes, exactly when nothing was
to be added or the data is taken whole. -/
theorem long_add_exact_iff (u : Usable E P s) (hpos : pos ≤ s.base.len) (len : Nat) :
    (∀ a, Foreign E P a.blk → (addPtr s pos a len).1 = true →
      (LongExact s (addPtr s pos a len).2 (.ptr a) pos len ↔
        len = 0 ∨ (AddKind.ptr a).TakenWhole s pos len)) ∧
    (∀ r off, 0 < (s.heap.refs r).ref → (addRef s pos r off len).1 = true →
      (LongExact s (addRef s pos r off len).2 (.ref r off) pos len ↔
        len = 0 ∨ (AddKind.ref r off).TakenWhole s pos len)) ∧
    (Granted s.heap → (∀ a, (addPtr s pos a len).1 = true) ∧
      ∀ r off, (addRef s pos r off len).1 = true) := by
  unfold addPtr addRef
  by_cases h0 : len = 0
  · simp only [if_pos h0, if_neg (Nat.not_lt.mpr hpos)]
    rw [h0]
    exact ⟨fun a _ _ => ⟨fun _ => .inl rfl, fun _ => longExact_zero s _ pos⟩,
      fun r off _ _ => ⟨fun _ => .inl rfl, fun _ => longExact_zero s _ pos⟩,
      fun _ => ⟨fun _ => trivial, fun _ _ => trivial⟩⟩
  · simp only [if_neg h0, if_neg (Nat.not_lt.mpr hpos)]
    have hlen : 0 < len := by omega
    refine ⟨fun a ha ht => ?_, fun r off hr ht => ?_, fun g => ⟨fun a => ?_, fun r off => ?_⟩⟩
    · rw [longExact_iff (E := E) (P := P) u hpos (k := .ptr a) trivial hlen
        (fun r hr => by cases hr) (fun b hb => by cases hb; exact ha) (Prod.ext ht rfl)]
      exact (or_iff_right h0).symm
    · rw [longExact_iff (E := E) (P := P) u hpos (k := .ref r off) trivial hlen
        (fun r' hr' => by cases hr'; exact hr) (fun b hb => by cases hb) (Prod.ext ht rfl)]
      exact (or_iff_right h0).symm
    · exact addData_granted g pos len
    · exact addData_granted g pos len

/-- Two bytes that a node points at, between bytes of a buffer. -/
def pointing : St := (addPtr (written [97, 98, 99, 100]) 2 ⟨.ext 0, 1⟩ 2).2

theorem usable_pointing : ∃ P, Usable alone P pointing ∧ Foreign alone P (.ext 0) := by
  obtain ⟨P, u, f⟩ := (keeps_written [97, 98, 99, 100]).usable
  have ha : Foreign alone P (.ext 0) := f.foreign (.inl rfl)
  have a := addPtr_spec u.sound u.posOk
    (show 2 ≤ (written [97, 98, 99, 100]).base.len by decide) ⟨.ext 0, 1⟩ 2
  obtain ⟨P', u', f'⟩ := a.usable u fun a hk => by
    cases hk
    exact ha
  exact ⟨P', u', f'.foreign ha⟩

/-- Behind them, the bytes that follow them are taken by their node, and others by two nodes
of their own. -/
theorem long_add_exact_joined :
    ((addPtr pointing 4 ⟨.ext 0, 3⟩ 5).1 = true ∧
      (addPtr pointing 4 ⟨.ext 0, 3⟩ 5).2.base.nodes.map Node.len = [2, 7, 1, 1] ∧
      LongExact pointing (addPtr pointing 4 ⟨.ext 0, 3⟩ 5).2 (.ptr ⟨.ext 0, 3⟩) 4 5) ∧
    (addPtr pointing 4 ⟨.ext 0, 0⟩ (maxNodeAll + 1)).1 = true ∧
      (addPtr pointing 4 ⟨.ext 0, 0⟩ (maxNodeAll + 1)).2.base.nodes.map Node.len =
        [2, 2, maxNodeAll, 1, 1, 1] ∧
      LongExact pointing (addPtr pointing 4 ⟨.ext 0, 0⟩ (maxNodeAll + 1)).2 (.ptr ⟨.ext 0, 0⟩) 4
        (maxNodeAll + 1) := by
  obtain ⟨P, u, ha⟩ := usable_pointing
  have hcut : pointing.CutFits 4 := by
    have hdata : (pointing.base.node (basePos pointing.base 4 true).1.idx).data =
        .ptr ⟨.ext 0, 1⟩ := by decide
    intro r off h
    rw [hdata] at h
    cases h
  have hpos : 4 ≤ pointing.base.len := by decide
  refine ⟨?_, ?_⟩
  · obtain ⟨hptr, -, hgrant⟩ := long_add_exact_iff u hpos 5
    have ht := (hgrant fun _ => rfl).1 ⟨.ext 0, 3⟩
    refine ⟨ht, by decide, (hptr ⟨.ext 0, 3⟩ ha ht).mpr (.inr ⟨fun _ => ⟨hcut, ?_⟩, ?_⟩)⟩
    · intro _
      decide
    · intro r off e
      cases e
  · obtain ⟨hptr, -, hgrant⟩ := long_add_exact_iff u hpos (maxNodeAll + 1)
    have ht := (hgrant fun _ => rfl).1 ⟨.ext 0, 0⟩
    refine ⟨ht, by decide, (hptr ⟨.ext 0, 0⟩ ha ht).mpr (.inr ⟨fun _ => ⟨hcut, ?_⟩, ?_⟩)⟩
    · intro h
      exact absurd h (by decide)
    · intro r off e
      cases e

/-- A new string next to a reference that its caller holds. -/
def besideRef : St :=
  let h := bareHeap (textMem [97, 98] 0) (textRef 1) 1 (bareConf 3 false) fun _ => true
  ⟨h, initBase h 0 true none⟩

theorem usable_besideRef :
    Usable ⟨0, fun r => if r = 0 then 1 else 0⟩ (bareOwn 1) besideRef where
  sound := sound_initBase (heapOk_bare (userRefs_text 1)) (fun r => rfl) (by decide)
    (by decide) true none
  posOk := posOk_of_none rfl
  ptrSafe := fun m hm => by cases hm

/-- One byte more than fits a node: the second node starts one byte late. -/
theorem long_add_skips : Usable ⟨0, fun r => if r = 0 then 1 else 0⟩ (bareOwn 1) besideRef ∧
    (addRef besideRef 0 0 0 (maxNodeAll + 1)).1 = true ∧
    (addRef besideRef 0 0 0 (maxNodeAll + 1)).2.base.nodes.map Node.data =
      [.ref 0 0, .ref 0 (maxNodeAll + 1)] ∧
    ¬ LongExact besideRef (addRef besideRef 0 0 0 (maxNodeAll + 1)).2 (.ref 0 0) 0
      (maxNodeAll + 1) := by
  obtain ⟨ht, hnodes⟩ : (addRef besideRef 0 0 0 (maxNodeAll + 1)).1 = true ∧
      (addRef besideRef 0 0 0 (maxNodeAll + 1)).2.base.nodes.map Node.data =
        [.ref 0 0, .ref 0 (maxNodeAll + 1)] := by decide +kernel
  refine ⟨usable_besideRef, ht, hnodes, fun l => ?_⟩
  have hlen : 0 < maxNodeAll + 1 := Nat.succ_pos _
  have h := longExact_iff (k := .ref 0 0) usable_besideRef
    (Nat.zero_le _) trivial hlen (fun r hr => by cases hr; decide)
    (fun a ha => by cases ha) rfl
  have hle := ((h.mp l).2 0 0 rfl).2
  omega

end Vstr
