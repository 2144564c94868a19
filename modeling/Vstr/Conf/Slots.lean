import Vstr.Conf.Lifetime
import Vstr.Lib.Run

/-!
# Cache slots and the table of callbacks

A cache slot of a base is an index into the table of the configuration the base uses. In
the states considered here the entry at that index is the callback the data of the slot is
for. A table only grows, except where it is copied over that of a configuration without
bases; two calls can take a base to a table, or data to an index, that does not fit.
-/

namespace Vstr.Confs

open Count Runs

variable {p q : Pool} {b c d k : Nat} {x y : Base}

/-! ## Tables that grow -/

/-- The configurations that are left have the tables they had, with new entries at the end;
the others are new and have the internal callbacks. -/
structure Grows (p q : Pool) : Prop where
  /-- Configurations are only added. -/
  length : p.confs.length ≤ q.confs.length
  /-- Their tables. -/
  cacheCbs : ∀ c, (q.conf c).freed = false →
    ((p.conf c).freed = false ∧ (p.conf c).cacheCbs <+: (q.conf c).cacheCbs) ∨
      (p.confs.length ≤ c ∧ internalCbs <+: (q.conf c).cacheCbs)

theorem Grows.refl (p : Pool) : Grows p p :=
  ⟨Nat.le_refl _, fun _ h => .inl ⟨h, List.prefix_refl _⟩⟩

theorem Grows.trans {r : Pool} (h1 : Grows p q) (h2 : Grows q r) : Grows p r := by
  refine ⟨Nat.le_trans h1.length h2.length, fun c hc => ?_⟩
  rcases h2.cacheCbs c hc with ⟨hq, hp2⟩ | ⟨hq, hp2⟩
  · rcases h1.cacheCbs c hq with ⟨hp, hp1⟩ | ⟨hp, hp1⟩
    · exact .inl ⟨hp, hp1.trans hp2⟩
    · exact .inr ⟨hp, hp1.trans hp2⟩
  · exact .inr ⟨Nat.le_trans h1.length hq, hp2⟩

/-- Only configurations matter. -/
theorem Grows.frame (h : Grows p q) {r : Pool} (hr : r.confs = q.confs) : Grows p r := by
  have hc : ∀ c, r.conf c = q.conf c := fun c => by unfold Pool.conf; rw [hr]
  refine ⟨hr ▸ h.length, fun c hf => ?_⟩
  rw [hc] at hf ⊢
  exact h.cacheCbs c hf

theorem grows_putConf {z : Conf} (hz : z.freed = false →
    (p.conf c).freed = false ∧ (p.conf c).cacheCbs <+: z.cacheCbs) : Grows p (p.putConf c z) := by
  refine ⟨by simp [Pool.putConf], fun d hd => ?_⟩
  rcases Nat.lt_or_ge c p.confs.length with hlt | hge
  · rw [p.conf_putConf c d z hlt] at hd ⊢
    split at hd
    · rename_i hdc
      rw [if_pos hdc, hdc]
      exact .inl (hz hd)
    · rename_i hdc
      rw [if_neg hdc]
      exact .inl ⟨hd, List.prefix_refl _⟩
  · have hs : (p.putConf c z).conf d = p.conf d := by
      unfold Pool.conf Pool.putConf
      simp only [List.set_eq_of_length_le hge]
    rw [hs] at hd ⊢
    exact .inl ⟨hd, List.prefix_refl _⟩

/-- Writing what is not the table. -/
theorem grows_putConf_same {z : Conf} (hf : z.freed = (p.conf c).freed)
    (hz : z.cacheCbs = (p.conf c).cacheCbs) : Grows p (p.putConf c z) :=
  grows_putConf fun h => ⟨hf ▸ h, hz ▸ List.prefix_refl _⟩

theorem grows_addConf (p : Pool) (c : Nat) : Grows p (p.addConf c) := grows_putConf_same rfl rfl

theorem grows_addUserConf (p : Pool) (c : Nat) : Grows p (p.addUserConf c) := by
  refine Grows.trans ?_ (grows_addConf _ c)
  exact grows_putConf_same rfl rfl

theorem grows_delConf (p : Pool) (c : Nat) : Grows p (p.delConf c) := by
  unfold Pool.delConf
  split
  · exact grows_putConf fun h => absurd h (by simp)
  · exact grows_putConf_same rfl rfl

theorem Pool.calls_delConf (p : Pool) (c : Nat) : (p.delConf c).calls = p.calls := by
  unfold Pool.delConf
  split
  · rfl
  · rfl

theorem grows_freeUserConf (p : Pool) (c : Nat) : Grows p (p.freeUserConf c) := by
  refine Grows.trans ?_ (grows_delConf _ c)
  exact grows_putConf_same rfl rfl

theorem grows_newConf (p : Pool) : Grows p p.newConf := by
  refine ⟨by simp [Pool.newConf], fun c hc => ?_⟩
  rw [p.conf_newConf c] at hc ⊢
  split at hc
  · rename_i h
    rw [if_pos h]
    exact .inr ⟨Nat.le_of_eq h.symm, List.prefix_refl _⟩
  · rename_i h
    rw [if_neg h]
    exact .inl ⟨hc, List.prefix_refl _⟩

theorem grows_putSpares (p : Pool) (c : Nat) (spares : Spares) : Grows p (p.putSpares c spares) :=
  grows_putConf_same rfl rfl

theorem grows_putTables (p : Pool) (c : Nat) (tables : Tables) : Grows p (p.putTables c tables) :=
  grows_putConf_same rfl rfl

theorem grows_dropRef (p : Pool) (k : Nat) : Grows p (p.dropRef k) := by
  unfold Pool.dropRef
  split
  · exact .refl p
  · split
    · exact (Grows.refl p).frame rfl
    · rename_i g _ _ ln _
      dsimp only
      have hr : Grows p { p.relinkBuf ln.conf with bufs := p.bufs.set k none } :=
        (grows_putSpares p ln.conf _).frame rfl
      split
      · generalize ({ p.relinkBuf ln.conf with bufs := p.bufs.set k none } : Pool) = r at hr
        have hu : Grows r (r.unlink g ln.conf) := by
          unfold Pool.unlink
          split
          · exact grows_putConf_same rfl rfl
          · exact .refl r
        exact (hr.trans (hu.frame (r := { r.unlink g ln.conf with groups := r.groups.set g none })
          rfl)).trans (grows_delConf _ _)
      · exact hr.frame rfl

theorem Pool.calls_dropRef (p : Pool) (k : Nat) : (p.dropRef k).calls = p.calls := by
  unfold Pool.dropRef
  split
  · rfl
  · split
    · rfl
    · dsimp only
      split
      · refine (Pool.calls_delConf _ _).trans ?_
        unfold Pool.unlink
        split
        · rfl
        · rfl
      · rfl

theorem Pool.calls_dropRefs (p : Pool) (ks : List Nat) : (p.dropRefs ks).calls = p.calls := by
  unfold Pool.dropRefs
  induction ks generalizing p with
  | nil => rfl
  | cons k ks ih => exact (ih _).trans (p.calls_dropRef k)

theorem grows_dropRefs (p : Pool) (ks : List Nat) : Grows p (p.dropRefs ks) := by
  unfold Pool.dropRefs
  induction ks generalizing p with
  | nil => exact .refl p
  | cons k ks ih => exact (grows_dropRef p k).trans (ih _)

theorem grows_convertBufRefAdd (p : Pool) (c : Nat) (grant : Bool) :
    Grows p (p.convertBufRefAdd c grant).2 := by
  have hj : ∀ (q : Pool) (g : Nat) (ln : RefLinked), Grows q (q.joinLink c g ln) := by
    intro q g ln
    unfold Pool.joinLink
    dsimp only
    split
    · refine Grows.trans ((Grows.refl q).frame ?_) (grows_putConf_same rfl rfl)
      rfl
    · exact (Grows.refl q).frame rfl
  unfold Pool.convertBufRefAdd
  split
  · split
    · show Grows p ((p.newLink c).joinLink c p.groups.length ⟨c, 0⟩)
      refine Grows.trans ?_ (hj (p.newLink c) _ _)
      have hn : Grows p (p.putConf c { p.conf c with
        refLink := some p.groups.length, ref := (p.conf c).ref + 1 }) := grows_putConf_same rfl rfl
      exact hn.frame rfl
    · exact .refl p
  · split
    · exact (Grows.refl p).frame rfl
    · exact hj p _ _

theorem grows_takeBufSz (p : Pool) (c sz : Nat) : Grows p (p.takeBufSz c sz) := by
  unfold Pool.takeBufSz
  split
  · exact grows_putConf_same rfl rfl
  · exact .refl p

theorem grows_cacheAddConf (p : Pool) (c : Nat) (name : String) (grant : Bool) :
    Grows p (p.cacheAddConf c name grant).2 := by
  unfold Pool.cacheAddConf
  split
  · exact grows_putConf fun h => ⟨h, List.prefix_append _ _⟩
  · exact (Grows.refl p).frame rfl

/-! ## Slots that fit -/

/-- The entries of the table at the indices of the slots are those the data is for. -/
def Slotted (cbs : List String) (x : Base) : Prop :=
  ∀ (i : Nat) (o : String), x.data[i]? = some (some o) → cbs[i]? = some o

theorem Slotted.mono {cbs cbs' : List String} (h : Slotted cbs x) (hp : cbs <+: cbs') :
    Slotted cbs' x := fun i o hi => by
  obtain ⟨t, rfl⟩ := hp
  rw [List.getElem?_append_left (List.getElem?_eq_some_iff.1 (h i o hi)).1]
  exact h i o hi

/-- Slots are only emptied. -/
theorem Slotted.emptied {cbs : List String} (h : Slotted cbs x)
    (hy : ∀ (i : Nat) (o : String), y.data[i]? = some (some o) → x.data[i]? = some (some o)) :
    Slotted cbs y := fun i o hi => h i o (hy i o hi)

/-- Every slot that is not NULL fits the table of the base's configuration, and all that
callbacks were called with so far was theirs. -/
structure Safe (p : Pool) : Prop where
  /-- The slots. -/
  slots : ∀ b x, p.base b = some x → Slotted (p.conf x.conf).cacheCbs x
  /-- Every table starts with the internal callbacks. -/
  internal : ∀ c, (p.conf c).freed = false → internalCbs <+: (p.conf c).cacheCbs
  /-- The calls so far. -/
  calls : ∀ z ∈ p.calls, z.2 = some z.1

theorem Sound.base_freed (s : Sound p) (hx : p.base b = some x) : (p.conf x.conf).freed = false :=
  s.refs.freed_false (holders_of_base hx)

/-- Tables grow, and the slots of the bases after it fit the tables before. -/
theorem Safe.grows_of (h : Safe p) (sq : Sound q) (hg : Grows p q)
    (hb : ∀ b x, q.base b = some x →
      x.conf < p.confs.length ∧ Slotted (p.conf x.conf).cacheCbs x) (hc : q.calls = p.calls) :
    Safe q := by
  refine ⟨fun b x hx => ?_, fun c hf => ?_, hc ▸ h.calls⟩
  · obtain ⟨hlt, hs⟩ := hb b x hx
    rcases hg.cacheCbs x.conf (sq.base_freed hx) with ⟨_, hp⟩ | ⟨hle, _⟩
    · exact hs.mono hp
    · exact absurd hlt (Nat.not_lt.2 hle)
  · rcases hg.cacheCbs c hf with ⟨hp, hpre⟩ | ⟨_, hi⟩
    · exact (h.internal c hp).trans hpre
    · exact hi

/-- Tables grow and bases go away. -/
theorem Safe.grows (h : Safe p) (s : Sound p) (sq : Sound q) (hg : Grows p q)
    (hb : ∀ b x, q.base b = some x → p.base b = some x) (hc : q.calls = p.calls) : Safe q :=
  h.grows_of sq hg
    (fun b x hx => ⟨s.refs.lt (holders_of_base (hb b x hx)), h.slots b x (hb b x hx)⟩) hc

theorem Pool.base_putBase (p : Pool) (b b' : Nat) (x y : Base) (hx : p.base b = some x) :
    (p.putBase b y).base b' = if b' = b then some y else p.base b' := by
  have hlt : b < p.bases.length := (List.getElem?_eq_some_iff.1 (Pool.getElem?_of_join hx)).1
  unfold Pool.base Pool.putBase
  split
  · rename_i h
    rw [h, List.getElem?_set_self hlt, Option.join_some]
  · rename_i h
    rw [List.getElem?_set_ne (fun e => h e.symm)]

/-- Writing a base that fits. -/
theorem Safe.putBase (h : Safe p) (hx : p.base b = some x)
    (hy : Slotted (p.conf y.conf).cacheCbs y) : Safe (p.putBase b y) := by
  refine ⟨fun b' x' hx' => ?_, h.internal, h.calls⟩
  rw [p.base_putBase b b' x y hx] at hx'
  split at hx'
  · cases hx'
    exact hy
  · exact h.slots b' x' hx'

theorem Safe.touch (h : Safe p) (c : Nat) : Safe (p.touch c) := ⟨h.slots, h.internal, h.calls⟩

/-! ## Running the callbacks -/

/-- The data of the slots that are not NULL, from index `first` on. -/
def filled (x : Base) (first : Nat) : List String := (x.data.drop first).filterMap id

/-- Running over slots that fit hands each slot that is not NULL to the callback it is for. -/
theorem calls_cacheCbs {cbs : List String} (first : Nat) (h : Slotted cbs x) :
    (x.data.zipIdx.filterMap fun (o, i) =>
      if first ≤ i then o.map fun n => (n, cbs[i]?) else none) =
      (filled x first).map fun o => (o, some o) := by
  have hrun : ∀ (l : List (Option String)) (m : Nat),
      (∀ (i : Nat) (o : String), l[i]? = some (some o) → cbs[m + i]? = some o) →
      ((l.zipIdx m).filterMap fun (o, i) =>
        if first ≤ i then o.map fun n => (n, cbs[i]?) else none) =
        ((l.drop (first - m)).filterMap id).map fun o => (o, some o) := by
    intro l
    induction l with
    | nil => intro m _; simp
    | cons a l ih =>
      intro m hl
      have hl' := ih (m + 1) fun i o hi => by
        have := hl (i + 1) o (by simpa using hi)
        rwa [show m + (i + 1) = m + 1 + i by omega] at this
      rw [List.zipIdx_cons, List.filterMap_cons]
      by_cases hm : first ≤ m
      · have h0 : first - m = 0 := by omega
        have h1 : first - (m + 1) = 0 := by omega
        rw [h1, List.drop_zero] at hl'
        rw [h0, List.drop_zero, hl']
        cases a with
        | none => simp
        | some n =>
          have := hl 0 n (by simp)
          rw [Nat.add_zero] at this
          simp [hm, this]
      · obtain ⟨j, hj⟩ : ∃ j, first - m = j + 1 := ⟨first - m - 1, by omega⟩
        rw [show first - (m + 1) = j by omega] at hl'
        rw [hj, List.drop_succ_cons]
        simpa [hm] using hl'
  exact hrun x.data 0 fun i o hi => by rw [Nat.zero_add]; exact h i o hi

theorem Safe.cacheCbs (h : Safe p) (b first : Nat) (answer : Nat → Bool) :
    Safe (p.cacheCbs b first answer) := by
  unfold Pool.cacheCbs
  split
  · exact h
  · rename_i x hx
    split
    · have hs := h.slots b x hx
      have hput := (h.touch x.conf).putBase (p := p.touch x.conf) (y := { x with
        data := x.data.mapIdx fun i o => if i < first ∨ answer i then o else none }) hx
        (hs.emptied fun i o hi => by
          simp only [List.getElem?_mapIdx] at hi
          cases hd : x.data[i]? with
          | none => simp [hd] at hi
          | some a =>
            rw [hd] at hi
            simp only [Option.map_some, Option.some.injEq] at hi
            split at hi
            · rw [hi]
            · cases hi)
      refine ⟨hput.slots, hput.internal, fun z hz => ?_⟩
      rcases List.mem_append.1 hz with hz | hz
      · exact h.calls z hz
      · rw [show ((p.touch x.conf).conf x.conf) = p.conf x.conf from rfl,
          calls_cacheCbs first hs] at hz
        obtain ⟨o, _, rfl⟩ := List.mem_map.1 hz
        rfl
    · exact h

theorem Safe.cacheCbFree (h : Safe p) (b num : Nat) : Safe (p.cacheCbFree b num) := by
  unfold Pool.cacheCbFree
  split
  · exact h
  · rename_i x hx
    split
    · split
      · exact h
      · split
        · dsimp only
          split
          · exact h.touch x.conf
          · rename_i n hn
            have hs := h.slots b x hx
            have hput := (h.touch x.conf).putBase (p := p.touch x.conf)
              (y := { x with data := x.data.set (num - 1) none }) hx
              (hs.emptied fun i o hi => by
                simp only [List.getElem?_set] at hi
                split at hi
                · split at hi <;> cases hi
                · exact hi)
            refine ⟨hput.slots, hput.internal, fun z hz => ?_⟩
            rcases List.mem_append.1 hz with hz | hz
            · exact h.calls z hz
            · obtain rfl := List.mem_singleton.1 hz
              exact hs _ _ (Pool.getElem?_of_join hn)
        · exact h.cacheCbs b _ _
    · exact h

/-! ## Writing slots and tables -/

/-- Writing what is neither the table nor the memory of a configuration. -/
theorem Safe.putConf {z : Conf} (h : Safe p) (hf : z.freed = (p.conf c).freed)
    (hz : z.cacheCbs = (p.conf c).cacheCbs) : Safe (p.putConf c z) := by
  refine ⟨fun b x hx => ?_, fun d hd => ?_, h.calls⟩
  · rw [p.field_putConf Conf.cacheCbs c _ z hz]
    exact h.slots b x hx
  · rw [p.field_putConf Conf.freed c d z hf] at hd
    rw [p.field_putConf Conf.cacheCbs c d z hz]
    exact h.internal d hd

/-- Writing the table of a configuration no base uses. -/
theorem Safe.putTable (h : Safe p) (hb : p.basesOf c = 0) (hc : c < p.confs.length)
    {cbs : List String} (hi : internalCbs <+: cbs) :
    Safe (p.putConf c { p.conf c with cacheCbs := cbs }) := by
  refine ⟨fun b x hx => ?_, fun d hd => ?_, h.calls⟩
  · have hne : x.conf ≠ c := fun e => by
      have := tally_pos Base.conf (Pool.getElem?_of_join (show p.base b = some x from hx))
      rw [e] at this
      exact absurd hb (by unfold Pool.basesOf; omega)
    rw [p.conf_putConf c x.conf _ hc, if_neg hne]
    exact h.slots b x hx
  · rw [p.conf_putConf c d _ hc] at hd ⊢
    split
    · exact hi
    · rename_i hne
      rw [if_neg hne] at hd
      exact h.internal d hd

/-- What is behind the slots of a new base is empty. -/
theorem getElem?_resized {data : List (Option String)} {n i : Nat} {o : String}
    (h : (Pool.resized data n)[i]? = some (some o)) : data[i]? = some (some o) := by
  rw [Pool.resized] at h
  rcases Nat.lt_or_ge i data.length with hlt | hge
  · rwa [List.getElem?_append_left hlt] at h
  · rw [List.getElem?_append_right hge, List.getElem?_replicate] at h
    split at h
    · cases h
    · cases h

/-- The slots after one was written. -/
theorem Slotted.set {cbs : List String} {pos : Nat} {owner : Option String} (h : Slotted cbs x)
    (ho : ∀ o, owner = some o → cbs[pos - 1]? = some o) :
    Slotted cbs { x with data := (Pool.resized x.data pos).set (pos - 1) owner } := by
  intro i o hi
  simp only [List.getElem?_set] at hi
  split at hi
  · rename_i he
    split at hi
    · rw [← he]
      exact ho o (Option.some.inj hi)
    · cases hi
  · exact h i o (getElem?_resized hi)

theorem Safe.cacheSetFor {pos : Nat} {owner : Option String} {grant : Bool} (h : Safe p)
    (ho : ∀ x o, p.base b = some x → owner = some o → (p.conf x.conf).cacheCbs[pos - 1]? = some o) :
    Safe (p.cacheSetFor b pos owner grant).2 := by
  unfold Pool.cacheSetFor
  split
  · exact h
  · rename_i x hx
    split
    · exact h
    · split
      · exact h
      · exact h.putBase hx ((h.slots b x hx).set fun o => ho x o hx)

/-- What `vstr_cache_set` writes besides the slots. -/
theorem Pool.cacheSetFor_base (hx : p.base b = some x) (pos : Nat) (owner : Option String)
    (grant : Bool) :
    (p.cacheSetFor b pos owner grant).2.confs = p.confs ∧
      ∃ y, (p.cacheSetFor b pos owner grant).2.base b = some y ∧ y.conf = x.conf := by
  unfold Pool.cacheSetFor
  rw [hx]
  dsimp only
  split
  · exact ⟨rfl, x, hx, rfl⟩
  · split
    · exact ⟨rfl, x, hx, rfl⟩
    · exact ⟨rfl, _, (p.base_putBase b b x _ hx).trans (if_pos rfl), rfl⟩

theorem Safe.sectsListAdd {grants : Pool.SectsGrants} (h : Safe p) (hx : p.base b = some x)
    (hk : (p.conf x.conf).cacheCbs[k - 1]? = some sectsCb) :
    Safe (p.sectsListAdd b x k grants).2 := by
  have hset : ∀ (q : Pool) (o : Option String) (grant : Bool), Safe q → q.confs = p.confs →
      (∃ y, q.base b = some y ∧ y.conf = x.conf) → (∀ n, o = some n → n = sectsCb) →
      Safe (q.cacheSetFor b k o grant).2 := by
    rintro q o grant hq hc ⟨y, hy, hyc⟩ ho
    refine hq.cacheSetFor fun z n hz hn => ?_
    obtain rfl : y = z := Option.some.inj (hy.symm.trans hz)
    rw [Pool.conf, hc, hyc, ho n hn]
    exact hk
  unfold Pool.sectsListAdd
  split
  · have hn := hset p none grants.slots h rfl ⟨x, hx, rfl⟩ (fun n hn => by cases hn)
    obtain ⟨hc, hy⟩ := Pool.cacheSetFor_base hx k none grants.slots
    split
    · rename_i q he
      rw [he] at hn
      exact hn
    · rename_i q he
      rw [he] at hn hc hy
      split
      · exact hset q _ true hn hc hy fun n hn => (Option.some.inj hn).symm
      · exact hn
  · split
    · exact hset p _ true h rfl ⟨x, hx, rfl⟩ fun n hn => (Option.some.inj hn).symm
    · exact h

theorem Pool.base_sectsCbAdd (p : Pool) (c : Nat) (grant : Bool) :
    (p.sectsCbAdd c grant).bases = p.bases ∧ (p.sectsCbAdd c grant).calls = p.calls := by
  unfold Pool.sectsCbAdd Pool.cacheAddConf
  split
  · split
    · exact ⟨rfl, rfl⟩
    · exact ⟨rfl, rfl⟩
  · exact ⟨rfl, rfl⟩

theorem grows_sectsCbAdd (p : Pool) (c : Nat) (grant : Bool) : Grows p (p.sectsCbAdd c grant) := by
  unfold Pool.sectsCbAdd
  split
  · refine (grows_cacheAddConf p c sectsCb grant).trans ?_
    exact grows_putConf_same rfl rfl
  · exact .refl p

/-- The entry for sections, in a configuration where it was right or not there. -/
theorem sectsCbAdd_entry (grant : Bool) (hc : c < p.confs.length)
    (hk : (p.conf c).cachePosCbSects ≠ 0 →
      (p.conf c).cacheCbs[(p.conf c).cachePosCbSects - 1]? = some sectsCb)
    (h0 : ((p.sectsCbAdd c grant).conf c).cachePosCbSects ≠ 0) :
    ((p.sectsCbAdd c grant).conf c).cacheCbs[((p.sectsCbAdd c grant).conf c).cachePosCbSects - 1]? =
      some sectsCb := by
  unfold Pool.sectsCbAdd at h0 ⊢
  split at h0
  · rename_i hz
    rw [if_pos hz]
    have hlen : ∀ g, c < (p.cacheAddConf c sectsCb g).2.confs.length := by
      intro g
      unfold Pool.cacheAddConf
      split
      · simpa [Pool.putConf] using hc
      · exact hc
    rw [Pool.conf_putConf _ _ _ _ (hlen grant), if_pos rfl] at h0 ⊢
    cases grant with
    | false => exact absurd rfl h0
    | true =>
      show ((p.putConf c { p.conf c with
        cacheCbs := (p.conf c).cacheCbs ++ [sectsCb] }).conf
        c).cacheCbs[(p.conf c).cacheCbs.length + 1 - 1]? = _
      rw [p.conf_putConf c c _ hc, if_pos rfl, Nat.add_sub_cancel]
      simp
  · rename_i hz
    rw [if_neg hz]
    exact hk hz

/-! ## The calls that can go wrong -/

/-- A caller puts data only where its configuration has a callback. -/
def Indexed (p : Pool) : Action → Prop
  | .cacheSet b pos data _ => ∀ x, p.base b = some x → data = true →
    1 ≤ pos ∧ pos ≤ (p.conf x.conf).cacheCbs.length
  | _ => True

/-- A base goes to another configuration only if the table there has an entry for each of
its slots that is not NULL, and sections are only registered in a configuration whose index
for them is still that of their callback. -/
def Fits (p : Pool) : Action → Prop
  | .baseSetConf b v => ∀ x c, p.base b = some x → p.pick v = some c →
    (p.conf c).bufSz = (p.conf x.conf).bufSz ∨ x.len = 0 →
    Pool.subsetCbs (p.conf c) (p.conf x.conf) = true →
    ∀ (i : Nat) (o : String), x.data[i]? = some (some o) → i < (p.conf c).cacheCbs.length
  | .sectsUpdateAdd b _ => ∀ x, p.base b = some x → x.cacheAvailable = true →
    (p.conf x.conf).cachePosCbSects ≠ 0 →
    (p.conf x.conf).cacheCbs[(p.conf x.conf).cachePosCbSects - 1]? = some sectsCb
  | _ => True

theorem Safe.sectsUpdateAdd {grants : Pool.SectsGrants} (h : Safe p) (s : Sound p)
    (hf : Fits p (.sectsUpdateAdd b grants)) : Safe (p.sectsUpdateAdd b grants).2 := by
  unfold Pool.sectsUpdateAdd
  split
  · exact h
  · rename_i x hx
    have hc : 0 < p.holders x.conf := holders_of_base hx
    have hlt := s.refs.lt hc
    have hsq := (s.touch hc).sectsCbAdd hc grants.table
    have hentry := sectsCbAdd_entry (p := p.touch x.conf) (c := x.conf) grants.table hlt
    obtain ⟨hb, hcl⟩ := (p.touch x.conf).base_sectsCbAdd x.conf grants.table
    have hbase : ∀ b', ((p.touch x.conf).sectsCbAdd x.conf grants.table).base b' = p.base b' :=
      fun b' => by rw [Pool.base, hb]; rfl
    have hq : Safe ((p.touch x.conf).sectsCbAdd x.conf grants.table) :=
      (h.touch x.conf).grows (s.touch hc) hsq (grows_sectsCbAdd _ _ _)
        (fun b' y hy => (hbase b').symm.trans hy) hcl
    have hxq := (hbase b).trans hx
    dsimp only
    generalize (p.touch x.conf).sectsCbAdd x.conf grants.table = q at *
    split
    · exact hq
    · rename_i h0
      cases ha : x.cacheAvailable with
      | false =>
        have hno : ∀ k o grant, q.cacheSetFor b k o grant = (false, q) := by
          intro k o grant
          unfold Pool.cacheSetFor
          rw [hxq]
          dsimp only
          rw [if_pos (Or.inr ha)]
        unfold Pool.sectsListAdd
        simp only [hno, ite_self]
        split
        · exact hq
        · exact hq
      | true => exact hq.sectsListAdd hxq (hentry (hf x hx ha) h0)

theorem Safe.baseSetConf {v : Option Nat} (h : Safe p) (s : Sound p)
    (hf : Fits p (.baseSetConf b v)) : Safe (p.baseSetConf b v).2 := by
  have hsq := s.baseSetConf b v
  unfold Pool.baseSetConf at hsq ⊢
  split at hsq
  · rename_i x c hx hc
    split at hsq
    · rename_i he
      rw [if_pos he]
      exact h
    · rename_i hne
      rw [if_neg hne]
      dsimp only at hsq ⊢
      split at hsq
      · rename_i hcond
        rw [if_pos hcond]
        obtain ⟨hsz, hsub⟩ := hcond
        have hfit := hf x c hx hc hsz hsub
        obtain ⟨t, ht⟩ : (p.conf c).cacheCbs <+: (p.conf x.conf).cacheCbs :=
          of_decide_eq_true hsub
        have hslot : Slotted (p.conf c).cacheCbs x := fun i o hi => by
          have hlt := hfit i o hi
          have := h.slots b x hx i o hi
          rwa [← ht, List.getElem?_append_left hlt] at this
        have hgrow : Grows p ((((p.touch x.conf).touch c).delConf x.conf).addBaseConf b x c) := by
          refine Grows.trans ?_ (grows_addConf _ c)
          refine Grows.frame (q := ((p.touch x.conf).touch c).delConf x.conf) ?_ rfl
          exact (Grows.frame (Grows.refl p) (r := (p.touch x.conf).touch c) rfl).trans
            (grows_delConf _ x.conf)
        obtain ⟨t1, _, _, _, _⟩ := ((p.touch x.conf).touch c).delConf_tables x.conf
        have hxd : (((p.touch x.conf).touch c).delConf x.conf).base b = some x := by
          rw [Pool.base, t1]
          exact hx
        refine h.grows_of hsq hgrow (fun b' x' hx' => ?_) (Pool.calls_delConf _ _)
        replace hx' := (Pool.base_putBase _ b b' x { x with conf := c } hxd).symm.trans hx'
        split at hx'
        · cases hx'
          exact ⟨s.refs.lt (holders_of_pick hc), hslot⟩
        · rw [Pool.base, t1] at hx'
          exact ⟨s.refs.lt (holders_of_base hx'), h.slots b' x' hx'⟩
      · rename_i hcond
        rw [if_neg hcond]
        exact (h.touch _).touch _
  · exact h

/-- The base and the caller change configurations, and the table the base gets extends the
one it had. -/
theorem Safe.swapUsers (h : Safe p) (hx : p.base b = some x)
    (hp : (p.conf x.conf).cacheCbs <+: (p.conf c).cacheCbs) : Safe (p.swapUsers b x k c) := by
  have h1 := h.putConf (c := c) (z := { p.conf c with userRef := (p.conf c).userRef - 1 }) rfl rfl
  have e1 := fun d => p.field_putConf Conf.cacheCbs c d
    { p.conf c with userRef := (p.conf c).userRef - 1 } rfl
  have hx1 : (p.putConf c { p.conf c with userRef := (p.conf c).userRef - 1 }).base b = some x := hx
  generalize hq : p.putConf c { p.conf c with userRef := (p.conf c).userRef - 1 } = q at h1 e1 hx1
  have h2 := h1.putConf (c := x.conf)
    (z := { q.conf x.conf with userRef := (q.conf x.conf).userRef + 1 }) rfl rfl
  have e2 := fun d => q.field_putConf Conf.cacheCbs x.conf d
    { q.conf x.conf with userRef := (q.conf x.conf).userRef + 1 } rfl
  have h3 := h2.putBase (y := { x with conf := c }) hx1 (by
    show Slotted ((q.putConf x.conf _).conf c).cacheCbs x
    rw [e2, e1]
    exact (h.slots b x hx).mono hp)
  unfold Pool.swapUsers
  rw [hq]
  exact ⟨h3.slots, h3.internal, h3.calls⟩

theorem prefix_dupCbs (z dup : Conf) : dup.cacheCbs <+: Pool.dupCbs z dup := List.prefix_append _ _

theorem Safe.swapConf (h : Safe p) (s : Sound p) (b k : Nat) (grant : Bool) :
    Safe (p.swapConf b k grant).2 := by
  unfold Pool.swapConf
  split
  · rename_i x c hx hc
    split
    · exact h
    · rename_i hne
      have hcp : 0 < p.holders c := holders_of_pick hc
      have hs : Sound ((p.touch x.conf).touch c) := (s.touch (holders_of_base hx)).touch hcp
      have hf : Safe ((p.touch x.conf).touch c) := (h.touch _).touch _
      dsimp only
      split
      · exact hf
      · obtain ⟨t1, _, _, _⟩ := Pool.takeBufSz_tables ((p.touch x.conf).touch c) c
          (((p.touch x.conf).touch c).conf x.conf).bufSz
        have hr := hs.takeBufSz (c := c) hcp (((p.touch x.conf).touch c).conf x.conf).bufSz
        have hg := grows_takeBufSz ((p.touch x.conf).touch c) c
          (((p.touch x.conf).touch c).conf x.conf).bufSz
        have hcl : (((p.touch x.conf).touch c).takeBufSz c
            (((p.touch x.conf).touch c).conf x.conf).bufSz).calls = p.calls := by
          unfold Pool.takeBufSz
          split
          · rfl
          · rfl
        have hus : ∀ f : Conf → Nat, (∀ z sp n, f { z with spares := sp, bufSz := n } = f z) →
            f ((((p.touch x.conf).touch c).takeBufSz c
              (((p.touch x.conf).touch c).conf x.conf).bufSz).conf c) = f (p.conf c) := by
          intro f hfz
          unfold Pool.takeBufSz
          split
          · exact Pool.field_putConf f _ _ _ _ (hfz _ _ _)
          · rfl
        generalize ((p.touch x.conf).touch c).takeBufSz c
          (((p.touch x.conf).touch c).conf x.conf).bufSz = r at hr t1 hg hcl hus
        have hx' : ∀ b', r.base b' = p.base b' := fun b' => by
          rw [Pool.base, t1]
          rfl
        have hsafe : Safe r := hf.grows hs hr hg (fun b' y hy => (hx' b').symm.trans hy) hcl
        split
        · rename_i hsub
          exact hsafe.swapUsers ((hx' b).trans hx) (of_decide_eq_true hsub)
        · split
          · rename_i hcan
            split
            · exact hsafe
            · have hcr : 0 < r.holders c := by
                have := hus Conf.ref (fun _ _ _ => rfl)
                rw [hr.refs.refs, s.refs.refs] at this
                omega
              have hb0 : r.basesOf c = 0 := by
                have h1 := hr.refs.refs c
                have h2 := hr.refs.users c
                have h3 := hus Conf.ref (fun _ _ _ => rfl)
                have h4 := hus Conf.userRef (fun _ _ _ => rfl)
                replace hcan : (p.conf c).userRef = (p.conf c).ref := hcan
                unfold Pool.holders at h1
                omega
              have hxf := hr.base_freed ((hx' b).trans hx)
              have hput := hsafe.putTable hb0 (hr.refs.lt hcr)
                ((hsafe.internal _ hxf).trans (prefix_dupCbs (r.conf c) (r.conf x.conf)))
              refine hput.swapUsers ((hx' b).trans hx) ?_
              rw [r.conf_putConf c _ _ (hr.refs.lt hcr), r.conf_putConf c _ _ (hr.refs.lt hcr),
                if_neg hne, if_pos rfl]
              exact prefix_dupCbs _ _
          · exact hsafe
  · exact h

theorem Safe.initBase (h : Safe p) (s : Sound p) (hc : 0 < p.holders c) (sz : Nat) :
    Safe (p.initBase c sz) := by
  refine h.grows_of (s.initBase hc sz) ((grows_addConf p c).frame rfl) (fun b x hx => ?_) rfl
  have hxl := Pool.getElem?_of_join hx
  replace hxl : (p.bases ++ [some ⟨c, 0, _, _,
    Pool.resized (Pool.newSlots (p.conf c).grpallocCache) sz⟩])[b]? = some (some x) := hxl
  rcases Nat.lt_or_ge b p.bases.length with hlt | hge
  · rw [List.getElem?_append_left hlt] at hxl
    have hb : p.base b = some x := by rw [Pool.base, hxl, Option.join_some]
    exact ⟨s.refs.lt (holders_of_base hb), h.slots b x hb⟩
  · rw [List.getElem?_append_right hge] at hxl
    obtain rfl : _ = x := Option.some.inj (List.mem_singleton.1 (List.mem_of_getElem? hxl)).symm
    refine ⟨s.refs.lt hc, Slotted.mono ?_ (h.internal c (s.refs.freed_false hc))⟩
    intro i o hi
    replace hi := getElem?_resized hi
    revert hi
    cases (p.conf c).grpallocCache <;> rcases i with - | - | - | i <;>
      simp [Pool.newSlots, internalCbs]

theorem Safe.makeBase (h : Safe p) (s : Sound p) (v : Option Nat) (grant : Bool) :
    Safe (p.makeBase v grant) := by
  unfold Pool.makeBase
  split
  · exact h
  · rename_i c hc
    have hcp := holders_of_pick hc
    split
    · rename_i sz rest _
      have hs : Sound (p.putTables c { (p.conf c).tables with spareBases := rest }) :=
        s.putTables _ hcp rfl rfl
      have hp : Safe (p.putTables c { (p.conf c).tables with spareBases := rest }) :=
        h.putConf rfl rfl
      exact hp.initBase hs hcp sz
    · split
      · exact h.initBase s hcp 0
      · exact h.touch _

theorem Pool.calls_keepBase (p : Pool) (x : Base) : (p.keepBase x).calls = p.calls := by
  unfold Pool.keepBase
  dsimp only
  split
  · rfl
  · rfl

theorem grows_keepBase (p : Pool) (x : Base) : Grows p (p.keepBase x) := by
  unfold Pool.keepBase
  dsimp only
  split
  · exact grows_putTables _ _ _
  · exact (Grows.refl p).frame rfl

theorem Safe.freeBase (h : Safe p) (s : Sound p) (b : Nat) (ks : List Nat) (nodes : Spares) :
    Safe (p.freeBase b ks nodes) := by
  have hsq := s.freeBase b ks nodes
  have hq := h.cacheCbs b 0 fun _ => false
  have sq := s.cacheCbs b 0 fun _ => false
  unfold Pool.freeBase at hsq ⊢
  generalize p.cacheCbs b 0 (fun _ => false) = q at hsq hq sq
  dsimp only at hsq ⊢
  split at hsq
  · exact hq
  · rename_i x hx
    have hcd : (((q.dropRefs ks).relinkNodes x.conf nodes).keepBase x).calls = q.calls :=
      (Pool.calls_keepBase _ x).trans (Pool.calls_dropRefs q ks)
    have hg : Grows q (((q.dropRefs ks).relinkNodes x.conf nodes).keepBase x) :=
      ((grows_dropRefs q ks).trans (grows_putSpares _ _ _)).trans (grows_keepBase _ x)
    have hg' : Grows q { ((q.dropRefs ks).relinkNodes x.conf nodes).keepBase x with
        bases := q.bases.set b none } := hg.frame rfl
    refine hq.grows sq hsq (hg'.trans (grows_delConf _ _)) (fun b' y hy => ?_)
      ((Pool.calls_delConf _ _).trans hcd)
    obtain ⟨t1, _, _, _, _⟩ := Pool.delConf_tables
      { ((q.dropRefs ks).relinkNodes x.conf nodes).keepBase x with bases := q.bases.set b none }
      x.conf
    rw [Pool.base, t1] at hy
    have hyl := Pool.getElem?_of_join hy
    replace hyl : (q.bases.set b none)[b']? = some (some y) := hyl
    rw [List.getElem?_set] at hyl
    split at hyl
    · split at hyl <;> cases hyl
    · rw [Pool.base, hyl, Option.join_some]

theorem Safe.addSpareBases {v : Option Nat} (h : Safe p) (s : Sound p) (hv : p.pick v = some c)
    (grants : List Bool) : Safe (p.addSpareBases v c grants) := by
  induction grants generalizing p with
  | nil => exact h.touch _
  | cons g gs ih =>
    cases g with
    | false => exact h.touch _
    | true =>
      obtain ⟨hs, hv'⟩ := s.addSpareBase hv
      refine ih ?_ hs hv'
      have s₁ : Sound (p.putTables c { (p.conf c).tables with spareBases := [] }) :=
        s.putTables _ (holders_of_pick hv) rfl rfl
      have h₁ : Safe (p.putTables c { (p.conf c).tables with spareBases := [] }) :=
        h.putConf rfl rfl
      have h₂ := h₁.makeBase s₁ v true
      have s₂ := s₁.makeBase v true
      obtain ⟨m1, m2⟩ :=
        (p.putTables c { (p.conf c).tables with spareBases := [] }).makeBase_users v true
      have hv₂ := (Pool.pick_congr m1 m2 (v := v)).trans
        ((Pool.pick_congr rfl rfl).trans hv)
      unfold Pool.addSpareBase
      dsimp only
      generalize (p.putTables c { (p.conf c).tables with spareBases := [] }).makeBase v true = r
        at h₂ s₂ hv₂
      have h₃ : Safe (r.putTables c
          { (r.conf c).tables with spareBases := (p.conf c).tables.spareBases }) :=
        h₂.putConf rfl rfl
      exact h₃.freeBase (s₂.putTables _ (holders_of_pick hv₂) rfl rfl) _ [] _

theorem Safe.edit (h : Safe p) (b n : Nat) (spares : Spares) (answer : Nat → Bool) :
    Safe (p.edit b n spares answer) := by
  unfold Pool.edit
  split
  · exact h
  · rename_i x hx
    have hs : Safe (p.putSpares x.conf spares) := h.putConf rfl rfl
    have hx' : (p.putSpares x.conf spares).base b = some x := hx
    have hslot := hs.slots b x hx'
    exact (hs.putBase (y := { x with len := n }) hx' hslot).cacheCbs b 0 answer

/-- A conversion leaves the tables, the bases and the calls. -/
theorem chgNodeBufRef_frame (p : Pool) (b : Nat) (grants : Pool.ConvertGrants) :
    Grows p (p.chgNodeBufRef b grants).2 ∧ (p.chgNodeBufRef b grants).2.bases = p.bases ∧
      (p.chgNodeBufRef b grants).2.calls = p.calls := by
  have hcalls : ∀ (q : Pool) (c : Nat), (q.convertBufRefAdd c grants.link).2.calls = q.calls := by
    have hj : ∀ (q : Pool) (c g : Nat) (ln : RefLinked), (q.joinLink c g ln).calls = q.calls := by
      intro q c g ln
      unfold Pool.joinLink
      dsimp only
      split
      · rfl
      · rfl
    intro q c
    unfold Pool.convertBufRefAdd
    split
    · split
      · exact hj _ _ _ _
      · rfl
    · split
      · rfl
      · exact hj _ _ _ _
  unfold Pool.chgNodeBufRef
  split
  · exact ⟨.refl p, rfl, rfl⟩
  · rename_i x hx
    have ht : Grows p (p.touch x.conf) := (Grows.refl p).frame rfl
    dsimp only
    split
    · exact ⟨ht, rfl, rfl⟩
    · have hr := ht.trans (grows_putSpares (p.touch x.conf) x.conf
        { ((p.touch x.conf).conf x.conf).spares with
          ref := max ((p.touch x.conf).conf x.conf).spares.ref 1 })
      obtain ⟨hb, hc⟩ : ((p.touch x.conf).putSpares x.conf
          { ((p.touch x.conf).conf x.conf).spares with
            ref := max ((p.touch x.conf).conf x.conf).spares.ref 1 }).bases = p.bases ∧
          ((p.touch x.conf).putSpares x.conf { ((p.touch x.conf).conf x.conf).spares with
            ref := max ((p.touch x.conf).conf x.conf).spares.ref 1 }).calls = p.calls := ⟨rfl, rfl⟩
      generalize (p.touch x.conf).putSpares x.conf _ = r at hr hb hc
      split
      · have hr' := hr.trans (grows_putTables r x.conf
          { (r.conf x.conf).tables with refGrpBuf2ref := true })
        obtain ⟨hb', hc'⟩ : (r.putTables x.conf
            { (r.conf x.conf).tables with refGrpBuf2ref := true }).bases = p.bases ∧
          (r.putTables x.conf
            { (r.conf x.conf).tables with refGrpBuf2ref := true }).calls = p.calls := ⟨hb, hc⟩
        generalize r.putTables x.conf { (r.conf x.conf).tables with refGrpBuf2ref := true } = t
          at hr' hb' hc'
        have h1 := hr'.trans (grows_convertBufRefAdd t x.conf grants.link)
        have h2 := (t.convertBufRefAdd_bases x.conf grants.link).trans hb'
        have h3 := (hcalls t x.conf).trans hc'
        split
        · rename_i q he
          rw [he] at h1 h2 h3
          exact ⟨h1, h2, h3⟩
        · rename_i q he
          rw [he] at h1 h2 h3
          exact ⟨h1.trans (grows_putSpares _ _ _), h2, h3⟩
      · exact ⟨hr, hb, hc⟩

/-- Tables grow, the bases and the calls stay. -/
theorem Safe.tables (h : Safe p) (s : Sound p) (sq : Sound q) (hg : Grows p q)
    (hb : q.bases = p.bases) (hc : q.calls = p.calls) : Safe q :=
  h.grows s sq hg (fun b x hx => by rw [Pool.base, hb] at hx; exact hx) hc

theorem Safe.init (h : Safe p) (s : Sound p) (grant : Bool) : Safe (p.init grant) := by
  refine h.tables s (s.step (.init grant)) ?_ ?_ ?_
  all_goals
    simp only [Pool.init]
    split
  · exact (grows_newConf p).frame rfl
  · exact .refl p
  · rfl
  · rfl
  · rfl
  · rfl

theorem Safe.exit (h : Safe p) (s : Sound p) : Safe (p.exit) := by
  have hsq := s.step .exit
  simp only [Pool.step, Pool.exit] at hsq ⊢
  split at hsq
  · exact h
  · exact h.tables s hsq ((grows_freeUserConf p _).frame rfl) (p.freeUserConf_tables _).1
      (Pool.calls_delConf _ _)

theorem Safe.makeConf (h : Safe p) (s : Sound p) (grant : Bool) : Safe (p.makeConf grant) := by
  have hsq := s.step (.makeConf grant)
  simp only [Pool.step, Pool.makeConf] at hsq ⊢
  split at hsq
  · rename_i hg
    rw [if_pos hg]
    exact h.tables s hsq ((grows_newConf p).frame rfl) rfl rfl
  · rename_i hg
    rw [if_neg hg]
    exact h

theorem Safe.freeConf (h : Safe p) (s : Sound p) (k : Nat) : Safe (p.freeConf k) := by
  have hsq := s.step (.freeConf k)
  simp only [Pool.step, Pool.freeConf] at hsq ⊢
  split at hsq
  · exact h
  · exact h.tables s hsq ((grows_freeUserConf p _).frame rfl) (p.freeUserConf_tables _).1
      (Pool.calls_delConf _ _)

theorem Safe.optGetConf (h : Safe p) (s : Sound p) : Safe (p.optGetConf) := by
  have hsq := s.step .optGetConf
  simp only [Pool.step, Pool.optGetConf] at hsq ⊢
  split at hsq
  · exact h
  · exact h.tables s hsq ((grows_addUserConf p _).frame rfl) rfl rfl

theorem Safe.optSetConf (h : Safe p) (s : Sound p) (k : Nat) : Safe (p.optSetConf k) := by
  have hsq := s.step (.optSetConf k)
  simp only [Pool.step, Pool.optSetConf] at hsq ⊢
  split at hsq
  · rename_i c v hc hv
    split at hsq
    · rename_i he
      rw [if_pos he]
      exact h
    · rename_i he
      rw [if_neg he]
      refine h.tables s hsq ?_ (p.freeUserConf_tables c).1 (Pool.calls_delConf _ c)
      exact ((grows_freeUserConf p c).trans (grows_addUserConf _ v)).frame rfl
  · exact h

theorem Safe.baseGetConf (h : Safe p) (s : Sound p) (b : Nat) : Safe (p.baseGetConf b) := by
  have hsq := s.step (.baseGetConf b)
  simp only [Pool.step, Pool.baseGetConf] at hsq ⊢
  split at hsq
  · exact h
  · exact h.tables s hsq ((grows_addUserConf p _).frame rfl) rfl rfl

theorem Safe.setBufSz (h : Safe p) (v : Option Nat) (n : Nat) : Safe (p.setBufSz v n) := by
  simp only [Pool.setBufSz]
  split
  · exact h
  · split
    · exact h.putConf rfl rfl
    · exact h.touch _

theorem Safe.setGrpallocCache (h : Safe p) (v : Option Nat) (g : GrpallocCache) :
    Safe (p.setGrpallocCache v g) := by
  simp only [Pool.setGrpallocCache]
  split
  · exact h
  · split
    · exact h.touch _
    · exact h.putConf rfl rfl

theorem Safe.setNumSpareBase (h : Safe p) (s : Sound p) (v : Option Nat) (n : Nat)
    (grants : List Bool) : Safe (p.setNumSpareBase v n grants) := by
  simp only [Pool.setNumSpareBase]
  split
  · exact h
  · rename_i c hc
    split
    · exact h.addSpareBases s hc _
    · exact h.putConf rfl rfl

theorem Safe.refGrpPtr (h : Safe p) (b : Nat) (grant : Bool) : Safe (p.refGrpPtr b grant) := by
  simp only [Pool.refGrpPtr]
  split
  · exact h
  · split
    · exact h.putConf rfl rfl
    · exact h.touch _

theorem Safe.cacheAdd (h : Safe p) (s : Sound p) (v : Option Nat) (name : String) (grant : Bool) :
    Safe (p.cacheAdd v name grant) := by
  have hsq := s.step (.cacheAdd v name grant)
  simp only [Pool.step, Pool.cacheAdd] at hsq ⊢
  split at hsq
  · exact h
  · rename_i c hc
    refine h.tables s hsq (grows_cacheAddConf p c name grant) ?_ ?_
    all_goals
      unfold Pool.cacheAddConf
      split
      · rfl
      · rfl

theorem Safe.cacheSet {b pos : Nat} {data grant : Bool} (h : Safe p)
    (hi : Indexed p (.cacheSet b pos data grant)) : Safe (p.cacheSet b pos data grant) := by
  simp only [Pool.cacheSet]
  split
  · exact h
  · rename_i x hx
    refine h.cacheSetFor fun y o hy ho => ?_
    obtain rfl : x = y := Option.some.inj (hx.symm.trans hy)
    split at ho
    · rename_i hd
      obtain ⟨h1, h2⟩ := hi x hx hd
      have hlt : pos - 1 < (p.conf x.conf).cacheCbs.length := by omega
      rw [List.getElem?_eq_getElem hlt] at ho ⊢
      exact ho
    · cases ho

theorem Safe.sectsUpdateDel (h : Safe p) (b : Nat) (last : Bool) :
    Safe (p.sectsUpdateDel b last) := by
  simp only [Pool.sectsUpdateDel]
  split
  · exact h
  · split
    · exact (h.touch _).cacheSetFor fun y o _ ho => by cases ho
    · exact h.touch _

/-- Every call that meets the condition keeps the slots and the tables together. -/
theorem Safe.step {a : Action} (h : Safe p) (s : Sound p) (hi : Indexed p a) (hf : Fits p a) :
    Safe (p.step a) := by
  cases a with
  | init grant => exact h.init s grant
  | exit => exact h.exit s
  | makeConf grant => exact h.makeConf s grant
  | freeConf k => exact h.freeConf s k
  | optGetConf => exact h.optGetConf s
  | optSetConf k => exact h.optSetConf s k
  | makeBase v grant => exact h.makeBase s v grant
  | freeBase b ks nodes => exact h.freeBase s b ks nodes
  | baseGetConf b => exact h.baseGetConf s b
  | baseSetConf b v => exact h.baseSetConf s hf
  | swapConf b k grant => exact h.swapConf s b k grant
  | chgNodeBufRef b grants =>
    obtain ⟨hg, hb, hc⟩ := chgNodeBufRef_frame p b grants
    exact h.tables s (s.step (.chgNodeBufRef b grants)) hg hb hc
  | dropRef k =>
    exact h.tables s (s.step (.dropRef k)) (grows_dropRef p k) (p.bases_dropRef k)
      (p.calls_dropRef k)
  | edit b n spares answer => exact h.edit b n spares answer
  | cacheCbFree b num => exact h.cacheCbFree b num
  | setBufSz v n => exact h.setBufSz v n
  | setGrpallocCache v g => exact h.setGrpallocCache v g
  | setNumSpareBase v n grants => exact h.setNumSpareBase s v n grants
  | refGrpPtr b grant => exact h.refGrpPtr b grant
  | setTables v loc dataUsr fmtUsrNames fmtSpecMake =>
    simp only [Pool.step, Pool.setTables]
    split
    · exact h
    · exact h.putConf rfl rfl
  | cacheAdd v name grant => exact h.cacheAdd s v name grant
  | cacheSet b pos data grant => exact h.cacheSet hi
  | sectsUpdateAdd b grants => exact h.sectsUpdateAdd s hf
  | sectsUpdateDel b last => exact h.sectsUpdateDel b last

/-! ## Sequences of calls -/

theorem safe_start : Safe .start := by
  refine ⟨fun b x hx => ?_, fun c hc => ?_, fun z hz => ?_⟩
  · simp [Pool.base, Pool.start] at hx
  · rw [Pool.conf_of_le (Nat.zero_le c)] at hc
    exact absurd hc (by decide)
  · simp [Pool.start] at hz

/-- In a state: every slot that is not NULL has an index in the table of the base's
configuration, and the entry there is the callback the data is for; running the callbacks
hands every slot to one, and each to its own; so it was with every call so far. -/
structure CallbacksFit (p : Pool) : Prop where
  /-- The slots. -/
  slots : ∀ b x, p.base b = some x → Slotted (p.conf x.conf).cacheCbs x
  /-- A run of the callbacks. -/
  run : ∀ b x answer, p.base b = some x → x.cacheAvailable = true →
    (p.cacheCbs b 0 answer).calls = p.calls ++ (x.data.filterMap id).map fun o => (o, some o)
  /-- The calls so far. -/
  calls : ∀ z ∈ p.calls, z.2 = some z.1

theorem Safe.callbacksFit (h : Safe p) : CallbacksFit p := by
  refine ⟨h.slots, fun b x answer hx ha => ?_, h.calls⟩
  have hc := calls_cacheCbs 0 (h.slots b x hx)
  unfold Pool.cacheCbs
  rw [hx]
  dsimp only
  rw [if_pos ha]
  show p.calls ++ _ = _
  rw [show ((p.touch x.conf).conf x.conf) = p.conf x.conf from rfl, hc]
  rfl

/-- In every sequence of calls in which each base that goes to another configuration finds
an entry for each of its slots there, and sections are registered only where the index kept
for them is that of their callback, slots and callbacks fit in every state. -/
theorem slots_fit {as : List Action}
    (r : Run Pool.step (fun p a => Indexed p a ∧ Fits p a) .start as p) :
    CallbacksFit p := by
  have hi := r.invariant (fun p => Sound p ∧ Safe p) ⟨sound_start, safe_start⟩
    fun p a h ha => ⟨h.1.step a, h.2.step h.1 ha.1 ha.2⟩
  exact hi.2.callbacksFit

/-- A base changes its configuration and gets a list of sections. -/
theorem slots_fit_moved : CallbacksFit (Pool.after [.makeConf true, .makeConf true,
    .makeBase (some 0) true, .baseSetConf 0 (some 1), .sectsUpdateAdd 0 ⟨true, true, true⟩]) := by
  refine slots_fit (Run.nil.append ?_)
  refine ⟨⟨trivial, trivial⟩, ⟨trivial, trivial⟩, ⟨trivial, trivial⟩, ⟨trivial, ?_⟩, ⟨trivial, ?_⟩,
    trivial⟩
  · intro x c hx hc _ _ i o hi
    cases hx
    cases hc
    replace hi : ([some "/vstr__/pos"] : List (Option String))[i]? = some (some o) := hi
    obtain ⟨hlt, _⟩ := List.getElem?_eq_some_iff.1 hi
    exact Nat.lt_of_lt_of_le hlt (by decide)
  · intro x hx _ h0
    cases hx
    exact absurd rfl h0

/-- The calls that take a base with data at index 4 to a configuration with three callbacks. -/
def misfitMoved : List Action :=
  [.makeConf true, .makeConf true, .cacheAdd (some 1) "/user" true, .makeBase (some 1) true,
    .cacheSet 0 4 true true, .baseSetConf 0 (some 0)]

/-- The calls that register sections where the index kept for them names another callback:
the table of a configuration was copied over that of another which had sections. -/
def misfitSects : List Action :=
  [.makeConf true, .makeConf true, .makeBase (some 1) true, .sectsUpdateAdd 0 ⟨true, true, true⟩,
    .freeBase 0 [] ⟨0, 0, 0, 0⟩, .cacheAdd (some 0) "/user" true, .makeBase (some 0) true,
    .swapConf 1 1 true,
    .sectsUpdateAdd 1 ⟨true, true, true⟩]

/-- Callers that use only indices of callbacks reach states where a slot does not fit: one
with no callback at its index, and one whose callback is another's. -/
theorem slots_misfit :
    Run Pool.step Indexed .start misfitMoved (Pool.after misfitMoved) ∧
      ¬ CallbacksFit (Pool.after misfitMoved) ∧
      ((Pool.after misfitMoved).cacheCbs 0 0 fun _ => true).calls =
        [("/vstr__/pos", some "/vstr__/pos"), ("/user", none)] ∧
      Run Pool.step Indexed .start misfitSects (Pool.after misfitSects) ∧
      ¬ CallbacksFit (Pool.after misfitSects) ∧
      ((Pool.after misfitSects).cacheCbs 1 0 fun _ => true).calls.getLast? =
        some (sectsCb, some "/user") := by
  refine ⟨?_, ?_, by decide, ?_, ?_, by decide⟩
  · refine Run.nil.append ⟨trivial, trivial, trivial, trivial, ?_, trivial, trivial⟩
    intro x hx _
    cases hx
    decide
  · intro h
    have := h.slots 0 _ rfl 3 "/user" (by decide)
    exact absurd this (by decide)
  · exact Run.nil.append ⟨trivial, trivial, trivial, trivial, trivial, trivial, trivial, trivial,
      trivial, trivial⟩
  · intro h
    have := h.slots 1 _ rfl 3 sectsCb (by decide)
    exact absurd this (by decide)

end Vstr.Confs
