import Vstr.Cache.Core

/-!
# The vectors of the nodes

The vector cache is patched entry by entry. What it shows is stated about a list of nodes
that need not be linked yet, and for each patch there is one lemma: which list the vectors
show after it.
-/

namespace Vstr

open Memory

variable {h h' : Heap} {vec vec' : IovecData} {b : Base} {n n' : Node}
variable {ns ms pre post gone : List Node} {i j k used used' num : Nat}

/-- Entry `i` is the vector of the node, of which `used` bytes are consumed. -/
def IovecData.Has (vec : IovecData) (h : Heap) (i used : Nat) (n : Node) : Prop :=
  vec.v i = nodeIovec h used n ∧ vec.t i = n.type

/-- The entries from `i` on are the vectors of the nodes; of the first of them `used` bytes
are consumed. -/
def Shows (h : Heap) (vec : IovecData) : Nat → Nat → List Node → Prop
  | _, _, [] => True
  | i, used, n :: ns => vec.Has h i used n ∧ Shows h vec (i + 1) 0 ns

/-- The consumed bytes of a node that stands behind others. -/
def firstUsed (used : Nat) (pre : List Node) : Nat := if pre = [] then used else 0

/-- A vector only depends on where the references point. -/
theorem nodeIovec_congr (hp : ∀ r, n.ref = some r → (h'.refs r).ptr = (h.refs r).ptr)
    (used : Nat) : nodeIovec h' used n = nodeIovec h used n := by
  have he : exportNodePtr h' n = exportNodePtr h n := by
    unfold exportNodePtr
    cases hd : n.data with
    | ref r off =>
      dsimp only
      rw [hp r (by rw [Node.ref, hd])]
    | _ => rfl
  rw [nodeIovec, nodeIovec, he]

theorem shows_append (ms : List Node) :
    Shows h vec i used (ns ++ ms) ↔
      Shows h vec i used ns ∧ Shows h vec (i + ns.length) (firstUsed used ns) ms := by
  induction ns generalizing i used with
  | nil =>
    rw [List.nil_append, List.length_nil, Nat.add_zero, firstUsed, if_pos rfl]
    exact ⟨fun hs => ⟨trivial, hs⟩, fun hs => hs.2⟩
  | cons n ns ih =>
    have hu : firstUsed 0 ns = 0 := by
      unfold firstUsed
      split <;> rfl
    have hl : i + 1 + ns.length = i + (n :: ns).length := by
      rw [List.length_cons]
      omega
    have hu' : firstUsed used (n :: ns) = 0 := if_neg (List.cons_ne_nil n ns)
    change vec.Has h i used n ∧ Shows h vec (i + 1) 0 (ns ++ ms) ↔
      (vec.Has h i used n ∧ Shows h vec (i + 1) 0 ns) ∧ _
    rw [ih, hu, hl, hu', and_assoc]

/-- Entries that are moved show the same nodes. -/
theorem Shows.move (hs : Shows h vec i used ns)
    (hv : ∀ k < ns.length, vec'.v (j + k) = vec.v (i + k) ∧ vec'.t (j + k) = vec.t (i + k))
    (hp : ∀ n ∈ ns, ∀ r, n.ref = some r → (h'.refs r).ptr = (h.refs r).ptr) :
    Shows h' vec' j used ns := by
  induction ns generalizing i j used with
  | nil => trivial
  | cons n ns ih =>
    obtain ⟨⟨hiov, hty⟩, hs⟩ := hs
    have h0 := hv 0 (Nat.succ_pos _)
    rw [Nat.add_zero, Nat.add_zero] at h0
    refine ⟨⟨?_, h0.2.trans hty⟩, ih hs (fun k hk => ?_) fun m hm => hp m (.tail _ hm)⟩
    · rw [h0.1, hiov, nodeIovec_congr (hp n (.head _))]
    · have := hv (k + 1) (Nat.succ_lt_succ hk)
      rwa [Nat.add_comm k 1, ← Nat.add_assoc, ← Nat.add_assoc] at this

/-- Nothing but where references point matters. -/
theorem Shows.heap (hs : Shows h vec i used ns)
    (hp : ∀ n ∈ ns, ∀ r, n.ref = some r → (h'.refs r).ptr = (h.refs r).ptr) :
    Shows h' vec i used ns := hs.move (fun _ _ => ⟨rfl, rfl⟩) hp

/-- One entry is replaced; the consumed bytes may change when it is the first. -/
theorem Shows.edit (hs : Shows h vec i used (pre ++ n :: post))
    (hu : pre ≠ [] → used' = used)
    (hv : ∀ k, k ≠ i + pre.length → vec'.v k = vec.v k ∧ vec'.t k = vec.t k)
    (hn : vec'.Has h (i + pre.length) (firstUsed used' pre) n') :
    Shows h vec' i used' (pre ++ n' :: post) := by
  rw [shows_append] at hs ⊢
  obtain ⟨hpre, -, hpost⟩ := hs
  refine ⟨?_, hn, hpost.move (fun k hk => hv _ (by omega)) fun _ _ _ _ => rfl⟩
  by_cases hne : pre = []
  · rw [hne]
    trivial
  · rw [hu hne]
    exact hpre.move (fun k hk => hv _ (by omega)) fun _ _ _ _ => rfl

/-- What holds of the vector cache: there are at least `room` entries, and vectors that are
up to date are those of the nodes, and in the arrays. -/
structure Base.Shows (b : Base) (room : Nat) (h : Heap) (used : Nat) (ns : List Node) : Prop where
  /-- The arrays have room in front of the vectors. -/
  room : ∀ vec, b.vec = some vec → room ≤ vec.sz ∧ vec.off ≤ vec.sz
  /-- The vectors of the nodes. -/
  entries : b.iovecUptoDate = true → ∃ vec, b.vec = some vec ∧
    vec.off + ns.length ≤ vec.sz ∧ Vstr.Shows h vec vec.off used ns

variable {room : Nat} {b' : Base}

theorem Base.Shows.heap (hs : b.Shows room h used ns)
    (hp : ∀ n ∈ ns, ∀ r, n.ref = some r → (h'.refs r).ptr = (h.refs r).ptr) :
    b.Shows room h' used ns := by
  refine ⟨hs.room, fun hup => ?_⟩
  obtain ⟨vec, hv, hle, hsh⟩ := hs.entries hup
  exact ⟨vec, hv, hle, hsh.heap hp⟩

theorem Base.Shows.congr (hs : b.Shows room h used ns)
    (hup : b'.iovecUptoDate = b.iovecUptoDate) (hv : b'.vec = b.vec) :
    b'.Shows room h used ns := by
  refine ⟨?_, ?_⟩
  · rw [hv]
    exact hs.room
  · rw [hup, hv]
    exact hs.entries

/-- Vectors that are not up to date need not show anything. -/
theorem Base.Shows.stale {h : Heap} (hs : b.Shows room h used ns)
    (hup : b'.iovecUptoDate = false) (hv : b'.vec = b.vec) : b'.Shows room h' used' ms := by
  refine ⟨?_, fun hup' => ?_⟩
  · rw [hv]
    exact hs.room
  · rw [hup] at hup'
    cases hup'

/-- A patch of vectors that are up to date. -/
theorem Base.Shows.map {f : IovecData → IovecData} (hs : b.Shows room h used ns)
    (hup : b.iovecUptoDate = true) (hv : b'.vec = b.vec.map f)
    (hsz : ∀ vec, (f vec).sz = vec.sz)
    (hf : ∀ vec, vec.off + ns.length ≤ vec.sz → Vstr.Shows h vec vec.off used ns →
      b.vec = some vec → (f vec).off + ms.length ≤ vec.sz ∧
        Vstr.Shows h' (f vec) (f vec).off used' ms) :
    b'.Shows room h' used' ms := by
  obtain ⟨vec, hvec, hle, hsh⟩ := hs.entries hup
  have hv' : b'.vec = some (f vec) := by
    rw [hv, hvec]
    rfl
  obtain ⟨hle', hsh'⟩ := hf vec hle hsh hvec
  refine ⟨fun vec' hvec' => ?_, fun _ => ⟨f vec, hv', by rw [hsz]; exact hle', hsh'⟩⟩
  rw [hv', Option.some_inj] at hvec'
  rw [← hvec', hsz]
  exact ⟨(hs.room vec hvec).1, by omega⟩

/-- The address and the length of one vector are changed in place. -/
theorem Base.Shows.patch {g : Iovec → Iovec} (hs : b.Shows room h used (pre ++ n :: post))
    (hup : b.iovecUptoDate = true)
    (hv : b'.vec = b.vec.map fun vec =>
      vec.setIov (pre.length + 1 + vec.off - 1) (g (vec.v (pre.length + 1 + vec.off - 1))))
    (hu : pre ≠ [] → used' = used)
    (hg : g (nodeIovec h (firstUsed used pre) n) = nodeIovec h (firstUsed used' pre) n')
    (hty : n'.type = n.type) : b'.Shows room h used' (pre ++ n' :: post) := by
  refine hs.map hup hv (fun _ => rfl) fun vec hle hsh _ => ⟨?_, ?_⟩
  · rw [List.length_append, List.length_cons] at hle ⊢
    exact hle
  · have hi : pre.length + 1 + vec.off - 1 = vec.off + pre.length := by omega
    dsimp only [IovecData.setIov]
    rw [hi]
    obtain ⟨hiov, hent⟩ := ((shows_append _).mp hsh).2.1
    refine hsh.edit hu (fun k hk => ⟨Function.update_of_ne hk _ _, rfl⟩) ⟨?_, ?_⟩
    · dsimp only
      rw [Function.update_self, hiov, hg]
    · exact hent.trans hty.symm

/-! ## The patches of the edit functions -/

/-- A node takes more at its end. -/
theorem Base.Shows.addNodeEnd (hs : b.Shows room h used (pre ++ n :: post))
    (hnum : num = pre.length + 1) (hu : firstUsed used pre ≤ n.len) (k : Nat) :
    (cacheIovecAddNodeEnd b num k).Shows room h used
      (pre ++ { n with len := n.len + k } :: post) := by
  subst hnum
  unfold cacheIovecAddNodeEnd
  split
  · rename_i hup
    refine hs.patch (g := fun v => { v with len := v.len + k }) hup rfl (fun _ => rfl) ?_ rfl
    simp only [nodeIovec, Iovec.mk.injEq]
    exact ⟨rfl, by omega⟩
  · rename_i hup
    exact hs.stale (by simpa using hup) rfl

/-- A node loses its end. -/
theorem Base.Shows.delNodeEnd (hs : b.Shows room h used (pre ++ n :: post))
    (hnum : num = pre.length + 1) (k : Nat) :
    (cacheIovecDelNodeEnd b num k).Shows room h used
      (pre ++ { n with len := n.len - k } :: post) := by
  subst hnum
  unfold cacheIovecDelNodeEnd
  split
  · rename_i hup
    refine hs.patch (g := fun v => { v with len := v.len - k }) hup rfl (fun _ => rfl) ?_ rfl
    simp only [nodeIovec, Iovec.mk.injEq]
    exact ⟨rfl, by omega⟩
  · rename_i hup
    exact hs.stale (by simpa using hup) rfl

/-- The first node loses its beginning: its bytes are consumed, or its data moves on. -/
theorem Base.Shows.delNodeBeg {x : Node} (hs : b.Shows room h used (n :: post))
    (hx : x.type = n.type) (hty : n'.type = n.type)
    (hlen : n'.len - used' = n.len - used - k)
    (hptr : (exportNodePtr h n').map (·.add used') =
      ((exportNodePtr h n).map (·.add used)).map (·.add k)) :
    (cacheIovecDelNodeBeg b x 1 k).Shows room h used' (n' :: post) := by
  have hs' : b.Shows room h used ([] ++ n :: post) := hs
  unfold cacheIovecDelNodeBeg
  rw [hx]
  split
  · rename_i hup
    refine hs'.patch (g := fun v => ⟨if n.type = .non then v.base else v.base.map (·.add k),
      v.len - k⟩) hup rfl (fun hne => absurd rfl hne) ?_ hty
    simp only [nodeIovec, firstUsed, if_true, Iovec.mk.injEq]
    refine ⟨?_, hlen.symm⟩
    rw [hptr]
    split
    · rename_i hnon
      have he : exportNodePtr h n = none := by
        unfold exportNodePtr
        cases hd : n.data with
        | non => rfl
        | _ => simp [Node.type, hd] at hnon
      rw [he]
      rfl
    · rfl
  · rename_i hup
    exact hs.stale (by simpa using hup) rfl

/-- A vector behind others is stored again. -/
theorem Base.Shows.resetNode (hs : b.Shows room h used (pre ++ n :: post)) (hne : pre ≠ [])
    (hnum : num = pre.length + 1) :
    (cacheIovecResetNode h b n' num).Shows room h used (pre ++ n' :: post) := by
  subst hnum
  have hlen := List.length_pos_iff.mpr hne
  unfold cacheIovecResetNode
  rw [if_neg (show ¬ pre.length + 1 = 1 by omega)]
  split
  · rename_i hup
    refine hs.map hup rfl (fun _ => rfl) fun vec hle hsh _ => ⟨?_, ?_⟩
    · rw [List.length_append, List.length_cons] at hle ⊢
      exact hle
    · dsimp only [IovecData.set]
      rw [Nat.add_sub_cancel]
      refine hsh.edit (fun _ => rfl) (fun k hk => ⟨Function.update_of_ne hk _ _,
        Function.update_of_ne hk _ _⟩) ⟨?_, Function.update_self _ _ _⟩
      dsimp only
      rw [Function.update_self, firstUsed, if_neg hne]
      rfl
  · rename_i hup
    exact hs.stale (by simpa using hup) rfl

/-- Whole nodes go from the beginning. -/
theorem Base.Shows.delBeg (hs : b.Shows room h used (gone ++ ns)) (hne : gone ≠ []) :
    (cacheIovecDelBeg b gone.length).Shows room h 0 ns := by
  unfold cacheIovecDelBeg
  split
  · rename_i hup
    refine hs.map hup rfl (fun _ => rfl) fun vec hle hsh _ => ⟨?_, ?_⟩
    · rw [List.length_append] at hle
      dsimp only
      omega
    · rw [shows_append, firstUsed, if_neg hne] at hsh
      exact hsh.2.move (fun _ _ => ⟨rfl, rfl⟩) fun _ _ _ _ => rfl
  · rename_i hup
    exact hs.stale (by simpa using hup) rfl

/-- Whole nodes go behind others. -/
theorem Base.Shows.delNodes (hs : b.Shows room h used (pre ++ gone ++ post)) (hne : pre ≠ [])
    (hb : b.num = (pre ++ gone ++ post).length) (hnum : num = pre.length) :
    (cacheIovecDelNodes b num gone.length).Shows room h used (pre ++ post) := by
  subst hnum
  unfold cacheIovecDelNodes
  split
  · rename_i hup
    refine hs.map hup rfl (fun _ => rfl) fun vec hle hsh _ => ⟨?_, ?_⟩
    · simp only [List.length_append] at hle ⊢
      omega
    · simp only [List.length_append] at hb
      rw [List.append_assoc, shows_append, shows_append, firstUsed, if_neg hne] at hsh
      rw [shows_append, firstUsed, if_neg hne]
      obtain ⟨hpre, -, hpost⟩ := hsh
      have hu : firstUsed 0 gone = 0 := by
        unfold firstUsed
        split <;> rfl
      rw [hu] at hpost
      refine ⟨hpre.move (fun k hk => ?_) fun _ _ _ _ => rfl,
        hpost.move (fun k hk => ?_) fun _ _ _ _ => rfl⟩
      · dsimp only
        rw [if_neg (by omega), if_neg (by omega)]
        exact ⟨rfl, rfl⟩
      · have e : vec.off + pre.length + k + gone.length =
            vec.off + pre.length + gone.length + k := by omega
        dsimp only
        rw [if_pos (by omega), if_pos (by omega), e]
        exact ⟨rfl, rfl⟩
  · rename_i hup
    exact hs.stale (by simpa using hup) rfl

/-- The string is empty. -/
theorem Base.Shows.reset (hs : b.Shows room h used ns) (conf : Conf) :
    (cacheIovecReset conf b).Shows room h' 0 [] := by
  unfold cacheIovecReset
  split
  · refine ⟨hs.room, fun hup => ?_⟩
    obtain ⟨vec, hvec, hle, -⟩ := hs.entries hup
    exact ⟨vec, hvec, by rw [List.length_nil]; omega, trivial⟩
  · rename_i vec hv
    have hroom := hs.room vec hv
    split
    · have hle : (if vec.sz > conf.iovMinOffset then conf.iovMinOffset else 0) ≤ vec.sz := by
        split <;> omega
      refine ⟨fun vec' hvec => ?_, fun _ => ⟨_, rfl, hle, trivial⟩⟩
      obtain rfl := Option.some_inj.mp hvec
      exact ⟨hroom.1, hle⟩
    · refine ⟨hs.room, fun hup => ?_⟩
      obtain ⟨vec, hvec, hle, -⟩ := hs.entries hup
      exact ⟨vec, hvec, by rw [List.length_nil]; omega, trivial⟩

theorem nodeIovec_zero (h : Heap) (n : Node) :
    nodeIovec h 0 n = ⟨exportNodePtr h n, n.len⟩ := by
  rw [nodeIovec, Nat.sub_zero]
  congr 1
  cases exportNodePtr h n with
  | none => rfl
  | some p => exact congrArg some (Ptr.add_zero p)

/-- A new node behind the nodes. -/
theorem Base.Shows.maybeAdd_end (hs : b.Shows room h used ns) (hu : ns = [] → used = 0)
    (hnum : b.num = ns.length + 1) :
    (cacheIovecMaybeAdd h b n true n.len).Shows room h used (ns ++ [n]) := by
  unfold cacheIovecMaybeAdd
  split
  · rename_i hv
    refine ⟨hs.room, fun hup => ?_⟩
    obtain ⟨vec, hvec, -⟩ := hs.entries hup
    rw [hv] at hvec
    cases hvec
  · rename_i vec₀ hv
    split
    · rename_i hup
      split
      · rename_i hroom
        refine hs.map hup rfl (fun _ => rfl) fun vec hle hsh hvec => ?_
        obtain rfl : vec₀ = vec := Option.some_inj.mp (hv.symm.trans hvec)
        have hi : vec₀.off + b.num - 1 = vec₀.off + ns.length := by omega
        have hfu : firstUsed used ns = 0 := by
          unfold firstUsed
          split
          · rename_i hn
            exact hu hn
          · rfl
        dsimp only [IovecData.set]
        rw [hi, shows_append, hfu]
        refine ⟨by rw [List.length_append, List.length_singleton]; omega,
          hsh.move (fun k hk => ⟨Function.update_of_ne (by omega) _ _,
            Function.update_of_ne (by omega) _ _⟩) fun _ _ _ _ => rfl,
          ⟨?_, Function.update_self _ _ _⟩, trivial⟩
        rw [nodeIovec_zero]
        exact Function.update_self _ _ _
      · rw [if_neg (by simp)]
        exact hs.stale rfl rfl
    · rename_i hup
      exact hs.stale (by simpa using hup) rfl

/-- A new node in front of the nodes, none of whose bytes are consumed. -/
theorem Base.Shows.maybeAdd_beg (hs : b.Shows room h 0 ns) :
    (cacheIovecMaybeAdd h b n false n.len).Shows room h 0 (n :: ns) := by
  unfold cacheIovecMaybeAdd
  split
  · rename_i hv
    refine ⟨hs.room, fun hup => ?_⟩
    obtain ⟨vec, hvec, -⟩ := hs.entries hup
    rw [hv] at hvec
    cases hvec
  · rename_i vec₀ hv
    split
    · rename_i hup
      rw [if_neg (by simp)]
      split
      · rename_i hoff
        refine hs.map hup rfl (fun _ => rfl) fun vec hle hsh hvec => ?_
        obtain rfl : vec₀ = vec := Option.some_inj.mp (hv.symm.trans hvec)
        have h0 : vec₀.off ≠ 0 := hoff.2
        dsimp only [IovecData.set]
        refine ⟨by rw [List.length_cons]; omega, ⟨?_, Function.update_self _ _ _⟩,
          hsh.move (fun k hk => ?_) fun _ _ _ _ => rfl⟩
        · rw [nodeIovec_zero]
          exact Function.update_self _ _ _
        · have e : vec₀.off - 1 + 1 + k = vec₀.off + k := by omega
          rw [e]
          exact ⟨Function.update_of_ne (by omega) _ _, Function.update_of_ne (by omega) _ _⟩
      · exact hs.stale rfl rfl
    · rename_i hup
      exact hs.stale (by simpa using hup) rfl

end Vstr
