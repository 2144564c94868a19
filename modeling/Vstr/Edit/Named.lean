import Vstr.Edit.Split
import Vstr.Lib.Splice

/-!
# Where the bytes of a string come from

Which bytes a string names, node by node: an edit that is right leaves the bytes that stay
where they came from. A node that is cut names the rest of what it named, unless the offset
of a `REF` node wraps.
-/

namespace Vstr

open Memory Splice

/-- Where a byte of a string comes from. -/
inductive Src where
  /-- The buffer of a node, or nowhere. -/
  | own
  /-- Memory that a `PTR` node names. -/
  | addr (a : Addr)
  /-- An offset from the pointer of a reference. -/
  | ref (r off : Nat)
  deriving DecidableEq, Repr

/-- The consecutive bytes that a node names. -/
def Payload.stretch (d : Payload) (len : Nat) : List Src :=
  match d with
  | .ptr a => (List.range len).map fun i => .addr (a.add i)
  | .ref r off => (List.range len).map fun i => .ref r (off + i)
  | _ => List.replicate len .own

/-- The bytes that a list of nodes names. -/
def named (ns : List Node) : List Src := ns.flatMap fun n => n.data.stretch n.len

/-- The bytes that a string names. -/
def sources (b : Base) : List Src := (named b.nodes).drop b.used

variable {pre post : List Node} {n : Node} {pos len : Nat}

@[simp] theorem Payload.length_stretch (d : Payload) (len : Nat) :
    (d.stretch len).length = len := by
  cases d <;> simp [Payload.stretch]

@[simp] theorem named_nil : named [] = [] := rfl

@[simp] theorem named_cons (n : Node) (ns : List Node) :
    named (n :: ns) = n.data.stretch n.len ++ named ns := by
  simp only [named, List.flatMap_cons]

@[simp] theorem named_append (a b : List Node) : named (a ++ b) = named a ++ named b := by
  simp only [named, List.flatMap_append]

@[simp] theorem length_named (ns : List Node) : (named ns).length = lens ns := by
  induction ns with
  | nil => rfl
  | cons n ns ih => rw [named_cons, List.length_append, Payload.length_stretch, ih, lens_cons]

/-- What follows the first `m` bytes that a node names. -/
def Payload.rest (d : Payload) (m : Nat) : Payload :=
  match d with
  | .ptr a => .ptr (a.add m)
  | .ref r off => .ref r (off + m)
  | d => d

/-- A stretch goes on where a part of it ends. -/
theorem Payload.stretch_add (d : Payload) (m n : Nat) :
    d.stretch (m + n) = d.stretch m ++ (d.rest m).stretch n := by
  cases d with
  | ptr a => simp [Payload.stretch, Payload.rest, List.range_add, Function.comp_def, Ptr.add_add]
  | ref r off =>
    simp [Payload.stretch, Payload.rest, List.range_add, Function.comp_def, Nat.add_assoc]
  | buf => simp [Payload.stretch, Payload.rest, List.replicate_append_replicate]
  | non => simp [Payload.stretch, Payload.rest, List.replicate_append_replicate]

/-- Where a stretch starts. -/
theorem Payload.head?_stretch (d : Payload) (hlen : 0 < len) :
    (d.stretch len).head? = some (match d with
      | .ptr a => .addr a
      | .ref r off => .ref r off
      | _ => .own) := by
  obtain ⟨m, rfl⟩ : ∃ m, len = m + 1 := ⟨len - 1, by omega⟩
  cases d with
  | ptr a =>
    rw [Payload.stretch, List.range_succ_eq_map, List.map_cons, List.head?_cons]
    rfl
  | ref r off =>
    rw [Payload.stretch, List.range_succ_eq_map, List.map_cons, List.head?_cons]
    rfl
  | _ => rfl

/-- Two stretches of a reference are the same when they start at the same place. -/
theorem stretch_ref_inj {r r' off off' : Nat} (hlen : 0 < len)
    (e : (Payload.ref r off).stretch len = (Payload.ref r' off').stretch len) : off = off' := by
  have h := congrArg List.head? e
  rw [Payload.head?_stretch _ hlen, Payload.head?_stretch _ hlen] at h
  injection (Option.some.inj h)

theorem stretch_ptr_inj {a a' : Addr} (hlen : 0 < len)
    (e : (Payload.ptr a).stretch len = (Payload.ptr a').stretch len) : a = a' := by
  have h := congrArg List.head? e
  rw [Payload.head?_stretch _ hlen, Payload.head?_stretch _ hlen] at h
  injection (Option.some.inj h)

/-- A byte is in one node. -/
theorem node_unique {pre' post' : List Node} {n' : Node} {p : Nat}
    (h : pre ++ n :: post = pre' ++ n' :: post') (h1 : lens pre < p) (h2 : p ≤ lens pre + n.len)
    (h1' : lens pre' < p) (h2' : p ≤ lens pre' + n'.len) :
    pre' = pre ∧ n' = n ∧ post' = post := by
  rcases List.append_eq_append_iff.mp h with ⟨c, hc, hb⟩ | ⟨c, hc, hb⟩
  · cases c with
    | nil =>
      rw [List.append_nil] at hc
      rw [List.nil_append, List.cons.injEq] at hb
      exact ⟨hc, hb.1.symm, hb.2.symm⟩
    | cons m c =>
      rw [List.cons_append, List.cons.injEq] at hb
      rw [hc, lens_append, lens_cons, ← hb.1] at h1'
      omega
  · cases c with
    | nil =>
      rw [List.append_nil] at hc
      rw [List.nil_append, List.cons.injEq] at hb
      exact ⟨hc.symm, hb.1, hb.2⟩
    | cons m c =>
      rw [List.cons_append, List.cons.injEq] at hb
      rw [hc, lens_append, lens_cons, ← hb.1] at h1
      omega

/-! ## Cutting a node -/

/-- The bytes that the first part of a node names. -/
theorem Payload.stretch_take (d : Payload) {p m : Nat} (hp : p ≤ m) :
    d.stretch p = (d.stretch m).take p := by
  obtain ⟨k, rfl⟩ := Nat.exists_eq_add_of_le hp
  rw [d.stretch_add, List.take_left' (d.length_stretch p)]

/-- The second half of a node names what it should, if its offset does not wrap. -/
theorem stretch_cut_iff {d : Payload} {p m : Nat} (hm : 0 < m) :
    (d.cut p).stretch m = (d.rest p).stretch m ↔ ∀ r off, d = .ref r off → off + p < 2 ^ 32 := by
  cases d with
  | ref r off =>
    constructor
    · intro e r' off' he
      cases he
      have h : refOff (off + p) = off + p := stretch_ref_inj hm e
      unfold refOff at h
      omega
    · intro h
      have h' : refOff (off + p) = off + p := Nat.mod_eq_of_lt (h r off rfl)
      rw [Payload.cut, Payload.rest, h']
  | _ => exact ⟨(fun _ r off e => by cases e), fun _ => rfl⟩

/-- A node that is cut names the rest of what it named, if its offset does not wrap. -/
theorem stretch_drop_iff {k : Nat} (hk : k < n.len) :
    (n.data.cut k).stretch (n.len - k) = (n.data.stretch n.len).drop k ↔
      ∀ r off, n.data = .ref r off → off + k < 2 ^ 32 := by
  have hrest : (n.data.stretch n.len).drop k = (n.data.rest k).stretch (n.len - k) := by
    conv_lhs => rw [show n.len = k + (n.len - k) by omega, n.data.stretch_add]
    rw [List.drop_left' (n.data.length_stretch k)]
  rw [hrest]
  exact stretch_cut_iff (by omega)

/-- Cutting a list of nodes in front of the byte at `q` wraps no offset. -/
def CutOk (ns : List Node) (q : Nat) : Prop :=
  ∀ pre n post r off, ns = pre ++ n :: post → n.data = .ref r off → lens pre < q →
    q < lens pre + n.len → off + (q - lens pre) < 2 ^ 32

/-- The cut is in a node that is known. -/
theorem cutOk_at {ns : List Node} {q k : Nat} (hns : ns = pre ++ n :: post)
    (hq : q = lens pre + k) (h0 : 0 < k) (hk : k < n.len) :
    CutOk ns q ↔ ∀ r off, n.data = .ref r off → off + k < 2 ^ 32 := by
  constructor
  · intro hc r off hd
    have := hc pre n post r off hns hd (by omega) (by omega)
    rwa [hq, Nat.add_sub_cancel_left] at this
  · rintro hf pre' n' post' r off hns' hd h1 h2
    obtain ⟨rfl, rfl, -⟩ := node_unique (p := q) (hns.symm.trans hns') (by omega) (by omega) h1
      (by omega)
    rw [hq, Nat.add_sub_cancel_left]
    exact hf r off hd

/-- The nodes in front of a cut do not matter. -/
theorem cutOk_append {a ns : List Node} {l : Nat} :
    CutOk (a ++ ns) (lens a + l) ↔ CutOk ns l := by
  constructor
  · rintro hc pre n post r off rfl hd h1 h2
    have := hc (a ++ pre) n post r off (List.append_assoc a pre (n :: post)).symm hd
      (by rw [lens_append]; omega) (by rw [lens_append]; omega)
    rw [lens_append] at this
    omega
  · rintro hc pre n post r off hns hd h1 h2
    rcases List.append_eq_append_iff.mp hns with ⟨c, rfl, hb⟩ | ⟨c, rfl, hb⟩
    · rw [lens_append] at h1 h2
      have := hc c n post r off hb hd (by omega) (by omega)
      rw [lens_append]
      omega
    · cases c with
      | nil =>
        rw [List.append_nil] at h1 h2 ⊢
        have := hc [] n post r off hb.symm hd (by rw [lens_nil]; omega) (by rw [lens_nil]; omega)
        rw [lens_nil] at this
        omega
      | cons m c =>
        rw [List.cons_append, List.cons.injEq] at hb
        rw [lens_append, lens_cons, ← hb.1] at h2
        omega

/-- Two lists, one behind the other: `q` is in one of them. -/
theorem cutOk_split {a ns : List Node} {q : Nat} :
    CutOk (a ++ ns) q ↔ CutOk a q ∧ CutOk ns (q - lens a) := by
  constructor
  · intro hc
    refine ⟨?_, ?_⟩
    · rintro pre n post r off rfl hd h1 h2
      exact hc pre n (post ++ ns) r off (by simp) hd h1 h2
    · intro pre n post r off hns hd h1 h2
      by_cases hq : lens a ≤ q
      · have := hc (a ++ pre) n post r off (by rw [hns, List.append_assoc]) hd
          (by rw [lens_append]; omega) (by rw [lens_append]; omega)
        rw [lens_append] at this
        omega
      · omega
  · rintro ⟨ha, hb⟩
    by_cases hq : lens a ≤ q
    · rw [show q = lens a + (q - lens a) by omega, cutOk_append]
      exact hb
    · intro pre n post r off hns hd h1 h2
      rcases List.append_eq_append_iff.mp hns with ⟨c, rfl, hc⟩ | ⟨c, rfl, hc⟩
      · rw [lens_append] at h1
        omega
      · cases c with
        | nil =>
          rw [List.append_nil] at hq
          omega
        | cons m c =>
          rw [List.cons_append, List.cons.injEq] at hc
          rw [← hc.1] at ha
          exact ha pre n c r off rfl hd h1 h2

theorem cutOk_cons {m : Node} {ns : List Node} {q : Nat} :
    CutOk (m :: ns) q ↔
      (∀ r off, m.data = .ref r off → 0 < q → q < m.len → off + q < 2 ^ 32) ∧
        CutOk ns (q - m.len) := by
  rw [← List.singleton_append, cutOk_split, lens_cons, lens_nil, Nat.add_zero]
  refine and_congr_left fun _ => ⟨fun hc r off hd h0 hq => ?_, fun hm => ?_⟩
  · have := hc [] m [] r off rfl hd (by rw [lens_nil]; omega) (by rw [lens_nil]; omega)
    rw [lens_nil] at this
    omega
  · intro pre n post r off hns hd h1 h2
    obtain ⟨rfl, rfl, rfl⟩ : pre = [] ∧ n = m ∧ post = [] := by
      cases pre with
      | nil => exact ⟨rfl, by simpa using hns.symm⟩
      | cons x pre => simp at hns
    rw [lens_nil] at h1 h2 ⊢
    exact hm r off hd h1 (by omega)

/-- The cut is between two nodes. -/
theorem cutOk_between {ns a b : List Node} {q : Nat} (hns : ns = a ++ b) (hq : q = lens a) :
    CutOk ns q := by
  rw [hns, hq, ← Nat.add_zero (lens a), cutOk_append]
  intro _ _ _ _ _ _ _ h1 _
  exact absurd h1 (Nat.not_lt_zero _)

theorem Fits.cutOk {ns : List Node} (hf : Fits ns) (q : Nat) : CutOk ns q := by
  intro pre n post r off hns hd h1 h2
  have := hf n (by rw [hns]; simp) r off hd
  omega

/-- Cutting at a position cuts there, wherever the position cache looks for it. -/
theorem cutFits_iff {E : Env} {P : Own} {s : St} {pos : Nat} (sd : Sound E P s)
    (pk : PosOk False s.base) (h1 : 1 ≤ pos) (h2 : pos ≤ s.base.len) :
    s.CutFits pos ↔ CutOk s.base.nodes (pos + s.base.used) := by
  obtain ⟨pre, n, post, hat, -, -⟩ :=
    basePos_at sd.valid sd.owned.nodes.nodup pk h1 h2 true
  have hpos := hat.pos
  have hle := hat.le_len
  have hone := hat.one_le
  unfold St.CutFits
  rw [hat.idx, node_of_eq hat.nodes]
  by_cases hlt : (basePos s.base pos true).1.pos < n.len
  · rw [cutOk_at hat.nodes (k := (basePos s.base pos true).1.pos) (by omega) (by omega) hlt]
    exact ⟨fun h r off hd => h r off hd hlt, fun h r off hd _ => h r off hd⟩
  · refine iff_of_true (fun r off _ h => absurd h hlt) ?_
    have hns : s.base.nodes = (pre ++ [n]) ++ post := by
      rw [hat.nodes]
      simp
    exact cutOk_between hns (by rw [lens_append, lens_cons, lens_nil]; omega)

/-- The names do not depend on the caches. -/
theorem sources_congr {b b' : Base} (hc : b.core = b'.core) : sources b = sources b' := by
  unfold sources
  rw [nodes_of_core hc, used_of_core hc]

/-! ## Deleting from what nodes hold -/

section Pieces

variable {α : Type} {g : Node → List α} {rest gone : List Node} {p l keep u : Nat}

theorem length_flatMap_nodes (hg : ∀ m, (g m).length = m.len) (ns : List Node) :
    (ns.flatMap g).length = lens ns := by
  induction ns with
  | nil => rfl
  | cons m ms ih => rw [List.flatMap_cons, List.length_append, hg, ih, lens_cons]

/-- Deleting from the first element on. -/
theorem deleteRange_front (hg : ∀ m, (g m).length = m.len) (hl : lens gone + l = len + u) :
    deleteRange (((gone ++ rest).flatMap g).drop u) 1 len = (rest.flatMap g).drop l := by
  have hd : u + len = (gone.flatMap g).length + l := by
    rw [length_flatMap_nodes hg]
    omega
  rw [deleteRange, Nat.sub_self, List.take_zero, List.nil_append, Nat.zero_add, List.drop_drop, hd,
    List.flatMap_append, ← List.drop_drop, List.drop_left' rfl]

/-- Deleting the end of a node, the nodes `gone` and `l` elements of those behind them. -/
theorem deleteRange_behind (hg : ∀ m, (g m).length = m.len) (hp : p ≤ n.len)
    (hk : lens pre + p = keep + u) (hl : l ≤ lens rest)
    (hlen : len = n.len - p + lens gone + l) :
    deleteRange (((pre ++ n :: (gone ++ rest)).flatMap g).drop u) (keep + 1) len =
      ((pre.flatMap g ++ (g n).take p) ++ (rest.flatMap g).drop l).drop u := by
  have hall : (pre ++ n :: (gone ++ rest)).flatMap g = (pre.flatMap g ++ (g n).take p) ++
      (((g n).drop p ++ gone.flatMap g ++ (rest.flatMap g).take l) ++
        (rest.flatMap g).drop l) := by
    rw [List.flatMap_append, List.flatMap_cons, List.flatMap_append]
    conv_lhs =>
      rw [← List.take_append_drop p (g n), ← List.take_append_drop l (rest.flatMap g)]
    simp only [List.append_assoc]
  rw [hall, deleteRange_drop]
  · rw [List.length_append, length_flatMap_nodes hg, List.length_take, hg, Nat.min_eq_left hp]
    omega
  · exact Nat.succ_pos keep
  · simp only [List.length_append, List.length_drop, length_flatMap_nodes hg, List.length_take, hg]
    omega

/-- Deleting inside a node. -/
theorem deleteRange_inside (hg : ∀ m, (g m).length = m.len) (hp : p + len ≤ n.len)
    (hk : lens pre + p = keep + u) :
    deleteRange (((pre ++ n :: post).flatMap g).drop u) (keep + 1) len =
      ((pre.flatMap g ++ (g n).take p) ++ ((g n).drop (p + len) ++ post.flatMap g)).drop u := by
  have hall : (pre ++ n :: post).flatMap g = (pre.flatMap g ++ (g n).take p) ++
      (((g n).drop p).take len ++ ((g n).drop (p + len) ++ post.flatMap g)) := by
    rw [List.flatMap_append, List.flatMap_cons]
    conv_lhs =>
      rw [← List.take_append_drop p (g n), ← List.take_append_drop len ((g n).drop p),
        List.drop_drop]
    simp only [List.append_assoc]
  rw [hall, deleteRange_drop]
  · rw [List.length_append, length_flatMap_nodes hg, List.length_take, hg]
    omega
  · exact Nat.succ_pos keep
  · rw [List.length_take, List.length_drop, hg]
    omega

/-- What stands behind the part that was dropped. -/
theorem drop_append_inj {a x y z : List α} (hu : u ≤ a.length) :
    (a ++ (x ++ z)).drop u = (a ++ (y ++ z)).drop u ↔ x = y := by
  rw [List.drop_append_of_le_length hu, List.drop_append_of_le_length hu, List.append_right_inj,
    List.append_left_inj]

/-- What stands behind a stretch that is deleted. -/
theorem deleteRange_drop_inj {a x y z : List α} (ha : a.length = u + (pos - 1) + len) :
    deleteRange ((a ++ (x ++ z)).drop u) pos len = deleteRange ((a ++ (y ++ z)).drop u) pos len ↔
      x = y := by
  have hd : ∀ w : List α, deleteRange ((a ++ w).drop u) pos len =
      (a.drop u).take (pos - 1) ++ w := by
    intro w
    rw [deleteRange, List.drop_append_of_le_length (by omega),
      List.take_append_of_le_length (by rw [List.length_drop]; omega),
      List.drop_left' (by rw [List.length_drop]; omega)]
  rw [hd, hd, List.append_right_inj, List.append_left_inj]

end Pieces

end Vstr
