import Vstr.Fmt.Registry

/-!
# Finding a format

The names that a format is matched against are the registered ones, whatever the sequence of
calls was that registered them, as long as no switch to the flat list takes over a maximum
that is too small.
-/

namespace Vstr.Fmt

open Runs

variable {c : NameConf} {S : Set (List UInt8)} {name fmt : List UInt8}

/-! ## Calls -/

/-- A call that reads or writes the table. -/
inductive Call where
  | add (granted : Nat → Bool) (name : List UInt8) (func : Nat) (types : List FmtType)
  | del (name : List UInt8)
  | usrMatch (fmt : List UInt8)

/-- The configuration after a call. -/
def callStep (c : NameConf) : Call → NameConf
  | .add granted name func types => (fmtAdd granted name func types c).2
  | .del name => (fmtDel name c).2
  | .usrMatch fmt => (fmtUsrMatch fmt c).2

/-- The allocations that a call needs are all granted. -/
def Granted (granted : Nat → Bool) (types : List FmtType) : Prop :=
  granted 0 = true ∧ ∀ i < types.length, granted (i + 1) = true

/-- What a call does to the set of registered names. -/
def registerStep (S : Set (List UInt8)) : Call → Set (List UInt8)
  | .add granted name _ types => {m | m ∈ S ∨ Granted granted types ∧ m = name}
  | .del name => S \ {name}
  | .usrMatch _ => S

/-- The names that were added and not deleted since. -/
def registered (calls : List Call) : Set (List UInt8) := calls.foldl registerStep ∅

/-- The configuration when the allocation of the node was granted. -/
def NameConf.opened (c : NameConf) (name : List UInt8) : NameConf :=
  if c.curlyBraces && !fmtAddQs name then fmtFlattenHash { c with curlyBraces := false } else c

theorem Registry.opened (h : Registry c S) (name : List UInt8) : Registry (c.opened name) S := by
  unfold NameConf.opened
  split
  · exact h.flatten
  · exact h

/-- The list that a new name goes to. -/
theorem scanOf_opened (c : NameConf) (name : List UInt8) : (c.opened name).scanOf name =
    some (if (c.opened name).curlyBraces then some (fmtBeg (name.getD 1 0)) else none) := by
  unfold NameConf.opened NameConf.scanOf
  by_cases hc : c.curlyBraces = true
  · by_cases hq : fmtAddQs name = true
    · simp [hc, hq]
    · simp only [hc, hq]
      rfl
  · simp [hc]

/-- The maximum after a name of some length was added. -/
def NameConf.raised (c : NameConf) (scan : Option (Fin 37)) (len : Nat) : NameConf :=
  if c.chain scan = [] ∨ (c.nameMax ≠ 0 ∧ c.nameMax < len) then { c with nameMax := len } else c

theorem raised_chain (c : NameConf) (scan scan' : Option (Fin 37)) (len : Nat) :
    (c.raised scan len).chain scan' = c.chain scan' := by
  unfold NameConf.raised
  split <;> cases scan' <;> rfl

/-- The outcomes of `vstr_fmt_add`. -/
theorem fmtAdd_cases (granted : Nat → Bool) (name : List UInt8) (func : Nat)
    (types : List FmtType) (c : NameConf) :
    (fmtSrch c name = true ∧ fmtAdd granted name func types c = (false, c)) ∨
    (fmtSrch c name = false ∧ granted 0 = false ∧
      fmtAdd granted name func types c = (false, { c with mallocBad := true })) ∨
    (fmtSrch c name = false ∧ granted 0 = true ∧ ¬ Granted granted types ∧
      fmtAdd granted name func types c = (false, { c.opened name with mallocBad := true })) ∨
    (fmtSrch c name = false ∧ Granted granted types ∧
      ∃ scan, (c.opened name).scanOf name = some scan ∧
        fmtAdd granted name func types c = (true, ((c.opened name).raised scan name.length).setChain
          scan (fmtInsert ((c.opened name).chain scan)
            ⟨name, func, types, types.length + 1⟩))) := by
  have hall : (List.range types.length).all (fun i => granted (i + 1)) = true ↔
      ∀ i < types.length, granted (i + 1) = true := by simp
  unfold fmtSrch
  by_cases hs : (fmtUsrSrch c name).isSome = true
  · exact .inl ⟨hs, if_pos hs⟩
  have hs' : (fmtUsrSrch c name).isSome = false := by simpa using hs
  by_cases h0 : granted 0 = true
  · by_cases hg : (List.range types.length).all (fun i => granted (i + 1)) = true
    · refine .inr (.inr (.inr ⟨hs', ⟨h0, hall.mp hg⟩, _, scanOf_opened c name, ?_⟩))
      unfold fmtAdd
      rw [if_neg hs, if_neg (by simpa using h0)]
      dsimp only
      rw [if_neg (by simpa using hall.mp hg)]
      change (true, NameConf.setChain _ _ (fmtInsert
        (((c.opened name).raised _ name.length).chain _)
        _)) = _
      rw [raised_chain]
      rfl
    · refine .inr (.inr (.inl ⟨hs', h0, fun h => hg (hall.mpr h.2), ?_⟩))
      unfold fmtAdd
      rw [if_neg hs, if_neg (by simpa using h0)]
      dsimp only
      rw [if_pos hg]
      rfl
  · refine .inr (.inl ⟨hs', by simpa using h0, ?_⟩)
    unfold fmtAdd
    rw [if_neg hs, if_pos (by simpa using h0)]

/-- The outcomes of `vstr_fmt_del`. -/
theorem fmtDel_cases (name : List UInt8) (c : NameConf) :
    (fmtSrch c name = false ∧ (fmtDel name c).2 = fmtDelEnd c) ∨
    ∃ scan i n, (c.chain scan)[i]? = some n ∧ n.nameStr = name ∧ (fmtDel name c).2 =
      fmtDelEnd { c.setChain scan ((c.chain scan).eraseIdx i) with
        nameMax := if n.nameLen = c.nameMax then 0 else c.nameMax } := by
  unfold fmtDel fmtSrch
  cases hs : fmtUsrSrch c name with
  | none => exact .inl ⟨rfl, rfl⟩
  | some r =>
    have hs' : fmtUsrSrch c name = some (r.1, r.2) := hs
    obtain ⟨n, hn, hname⟩ := fmtUsrSrch_some hs'
    refine .inr ⟨r.1, r.2, n, hn, hname, ?_⟩
    dsimp only
    rw [hn, Option.map_some]
    simp only [Option.some.injEq]

theorem Registry.delEnd (h : Registry c S) : Registry (fmtDelEnd c) S := by
  unfold fmtDelEnd
  split
  · rename_i he
    refine ⟨?_, fun _ => he.2, (fun h0 => by cases h0), h.bucket, h.nodup, h.mem⟩
    rintro (_ | num)
    · exact h.sorted none
    · exact h.sorted (some num)
  · exact h

theorem Registry.raised (h : Registry c S) (scan : Option (Fin 37)) (len : Nat) :
    Registry (c.raised scan len) S := by
  unfold NameConf.raised
  split
  · exact h.frame rfl rfl rfl
  · exact h

theorem registerStep_add_same {granted : Nat → Bool} {func : Nat} {types : List FmtType}
    (h : name ∈ S ∨ ¬ Granted granted types) :
    registerStep S (.add granted name func types) = S := by
  ext m
  constructor
  · rintro (hm | ⟨hg, rfl⟩)
    · exact hm
    · exact h.resolve_right (not_not_intro hg)
  · exact .inl

/-- The table holds the registered names after a call too. -/
theorem Registry.callStep (h : Registry c S) (a : Call) :
    Registry (callStep c a) (registerStep S a) := by
  cases a with
  | add granted name func types =>
    rcases fmtAdd_cases granted name func types c with ⟨hs, e⟩ | ⟨-, h0, e⟩ | ⟨-, -, hg, e⟩ |
      ⟨hs, hg, scan, hscan, e⟩
    · rw [registerStep_add_same (.inl ((h.srch name).mp hs)), Fmt.callStep, e]
      exact h
    · rw [registerStep_add_same (.inr fun hg => by simp [hg.1] at h0), Fmt.callStep, e]
      exact h.frame rfl rfl rfl
    · rw [registerStep_add_same (.inr hg), Fmt.callStep, e]
      exact (h.opened name).frame rfl rfl rfl
    · have hnot : name ∉ S := fun hin => by simp [(h.srch name).mpr hin] at hs
      have hset : registerStep S (.add granted name func types) = Set.insert name S := by
        ext m
        change m ∈ S ∨ Granted granted types ∧ m = name ↔ m = name ∨ m ∈ S
        simp [hg, or_comm]
      have hr := (h.opened name).raised scan name.length
      have hscan' : ((c.opened name).raised scan name.length).scanOf name = some scan := by
        rw [← hscan]
        unfold NameConf.raised
        split <;> rfl
      rw [hset, Fmt.callStep, e, ← raised_chain (c.opened name) scan scan name.length]
      exact hr.insert (n := ⟨name, func, types, types.length + 1⟩) hscan' hnot
  | del name =>
    rcases fmtDel_cases name c with ⟨hs, e⟩ | ⟨scan, i, n, hn, rfl, e⟩
    · have hnot : name ∉ S := fun hin => by simp [(h.srch name).mpr hin] at hs
      rw [Fmt.callStep, e, registerStep, Set.sdiff_singleton_eq_self hnot]
      exact h.delEnd
    · rw [Fmt.callStep, e]
      refine Registry.delEnd ?_
      exact (h.erase hn).frame rfl rfl rfl
  | usrMatch fmt =>
    have he : (fmtUsrMatch fmt c).2.names = c.names ∧ (fmtUsrMatch fmt c).2.hash = c.hash ∧
        (fmtUsrMatch fmt c).2.curlyBraces = c.curlyBraces := by
      unfold fmtUsrMatch
      split
      · split <;> exact ⟨rfl, rfl, rfl⟩
      · exact ⟨rfl, rfl, rfl⟩
    exact h.frame he.1 he.2.1 he.2.2

/-- A call returns whether it registered the name. -/
theorem Registry.add_returns (h : Registry c S) (granted : Nat → Bool) (name : List UInt8)
    (func : Nat) (types : List FmtType) :
    (fmtAdd granted name func types c).1 = true ↔ name ∉ S ∧ Granted granted types := by
  rw [← h.srch]
  rcases fmtAdd_cases granted name func types c with ⟨hs, e⟩ | ⟨hs, h0, e⟩ | ⟨hs, -, hg, e⟩ |
    ⟨hs, hg, scan, -, e⟩
  · simp [e, hs]
  · have hg : ¬ Granted granted types := fun hg => by simp [hg.1] at h0
    simp [e, hg]
  · simp [e, hg]
  · simp [e, hs, hg]

/-! ## Matching -/

/-- The registry as a user sees it. -/
structure RegistryExact (c : NameConf) (S : Set (List UInt8)) : Prop where
  /-- `vstr_fmt_srch` finds the registered names. -/
  srch : ∀ name, fmtSrch c name = true ↔ name ∈ S
  /-- A format is matched if a registered name is a prefix of it. -/
  finds : ∀ fmt, (fmtUsrMatch fmt c).1.isSome = true ↔ ∃ m ∈ S, m <+: fmt
  /-- The match is the shortest such name. -/
  shortest : ∀ fmt n, (fmtUsrMatch fmt c).1 = some n →
    n.nameStr ∈ S ∧ n.nameStr <+: fmt ∧ ∀ m ∈ S, m <+: fmt → n.nameStr.length ≤ m.length
  /-- While all names are bracketed, it is the bracketed text at the beginning. -/
  bracketed : c.curlyBraces = true → ∀ fmt, (fmtUsrMatch fmt c).1.isSome = true ↔
    ∃ t ∈ S, BracketText fmt t

/-- The maximum of the flat list is not too small, when it is known. -/
def MaxFits (c : NameConf) : Prop :=
  c.curlyBraces = false → c.nameMax = 0 ∨ ∀ n ∈ c.names, n.nameLen ≤ c.nameMax

/-- The maximum that is computed. -/
theorem le_foldl_max (l : List UsrNameNode) (m : Nat) :
    m ≤ l.foldl (fun m n => if m < n.nameLen then n.nameLen else m) m ∧
      ∀ n ∈ l, n.nameLen ≤ l.foldl (fun m n => if m < n.nameLen then n.nameLen else m) m := by
  induction l generalizing m with
  | nil => exact ⟨Nat.le_refl _, fun n hn => by cases hn⟩
  | cons a l ih =>
    obtain ⟨h1, h2⟩ := ih (if m < a.nameLen then a.nameLen else m)
    have hm : m ≤ (if m < a.nameLen then a.nameLen else m) ∧
        a.nameLen ≤ (if m < a.nameLen then a.nameLen else m) := by
      split <;> omega
    refine ⟨hm.1.trans h1, fun n hn => ?_⟩
    rcases List.mem_cons.mp hn with rfl | hn
    · exact hm.2.trans h1
    · exact h2 n hn

/-- With the hash table. -/
theorem Registry.match_hashed (h : Registry c S) (hc : c.curlyBraces = true) (fmt : List UInt8) :
    (∀ n, (fmtUsrMatch fmt c).1 = some n → n.nameStr ∈ S ∧ BracketText fmt n.nameStr) ∧
      ((fmtUsrMatch fmt c).1 = none → ∀ t ∈ S, ¬ BracketText fmt t) := by
  have hnames : ∀ t ∈ S, ∃ n ∈ c.hash (fmtBeg (t.getD 1 0)), n.nameStr = t := by
    intro t ht
    obtain ⟨scan, n, hn, rfl⟩ := h.mem_chain.mp ht
    cases scan with
    | none =>
      rw [show c.chain none = c.names from rfl, h.flat hc] at hn
      cases hn
    | some num =>
      refine ⟨n, ?_, rfl⟩
      rw [(h.bucket num n hn).2]
      exact hn
  unfold fmtUsrMatch
  rw [if_pos hc]
  cases hat : closingAt fmt with
  | none =>
    refine ⟨(fun n hn => by cases hn), fun _ t _ ht => ?_⟩
    rw [(closingAt_of ht).1] at hat
    cases hat
  | some ptr =>
    obtain ⟨ht, hlen⟩ := bracketText_of hat
    obtain ⟨hnone, hsome⟩ :=
      matchHashed_spec (h.sorted (some (fmtBeg (fmt.getD 1 0)))) fmt hlen
    refine ⟨fun n hn => ?_, fun hn t hin htext => ?_⟩
    · obtain ⟨hmem, e⟩ := hsome n hn
      rw [e]
      exact ⟨e ▸ h.mem_chain.mpr ⟨_, n, hmem, rfl⟩, ht⟩
    · obtain ⟨hptr, htake, htwo⟩ := closingAt_of htext
      have hlen' : t.length = ptr + 1 := by
        rw [hat] at hptr
        have := Option.some.inj hptr
        omega
      obtain ⟨n, hmem, hname⟩ := hnames t hin
      have hsecond : t.getD 1 0 = fmt.getD 1 0 := by
        rw [← htake, List.getD_eq_getElem?_getD, List.getD_eq_getElem?_getD,
          List.getElem?_take_of_lt htwo]
      rw [hsecond] at hmem
      exact hnone hn n hmem (by rw [hname, ← hlen', htake])

/-- With the flat list. -/
theorem Registry.match_flat (h : Registry c S) (hc : c.curlyBraces = false) (hm : MaxFits c)
    (fmt : List UInt8) :
    (∀ n, (fmtUsrMatch fmt c).1 = some n → n.nameStr ∈ S ∧ n.nameStr <+: fmt ∧
        ∀ m ∈ S, m <+: fmt → n.nameStr.length ≤ m.length) ∧
      ((fmtUsrMatch fmt c).1 = none → ∀ m ∈ S, ¬ m <+: fmt) := by
  have hnames : ∀ t, t ∈ S ↔ ∃ n ∈ c.names, n.nameStr = t := by
    intro t
    rw [h.mem_chain]
    constructor
    · rintro ⟨_ | num, n, hn, rfl⟩
      · exact ⟨n, hn, rfl⟩
      · rw [show c.chain (some num) = c.hash num from rfl, h.hashed hc] at hn
        cases hn
    · rintro ⟨n, hn, rfl⟩
      exact ⟨none, n, hn, rfl⟩
  have hmax : ∀ n ∈ c.names, n.nameLen ≤
      (if c.nameMax = 0 then c.names.foldl (fun m n => if m < n.nameLen then n.nameLen else m) 0
        else c.nameMax) := by
    intro n hn
    split
    · exact (le_foldl_max c.names 0).2 n hn
    · rename_i h0
      exact (hm hc).resolve_left h0 n hn
  unfold fmtUsrMatch
  rw [if_neg (by simp [hc])]
  obtain ⟨hnone, hsome⟩ := matchFlat_spec (h.sorted none) fmt (min fmt.length
    (if c.nameMax = 0 then c.names.foldl (fun m n => if m < n.nameLen then n.nameLen else m) 0
      else c.nameMax))
  refine ⟨fun n hn => ?_, fun hn m hin hp => ?_⟩
  · obtain ⟨hmem, -, hp, hshort⟩ := hsome n hn
    refine ⟨(hnames _).mpr ⟨n, hmem, rfl⟩, hp, fun m hin hmp => ?_⟩
    obtain ⟨k, hk, rfl⟩ := (hnames m).mp hin
    exact hshort k hk hmp
  · obtain ⟨k, hk, rfl⟩ := (hnames m).mp hin
    exact hnone hn k hk (Nat.le_min.mpr ⟨hp.length_le, hmax k hk⟩) hp

/-- With a maximum that fits, the registry is exact. -/
theorem Registry.exact (h : Registry c S) (hm : MaxFits c) : RegistryExact c S := by
  have hname : ∀ fmt, (fmtUsrMatch fmt c).1 = none ∨ ∃ n, (fmtUsrMatch fmt c).1 = some n := by
    intro fmt
    cases (fmtUsrMatch fmt c).1 with
    | none => exact .inl rfl
    | some n => exact .inr ⟨n, rfl⟩
  by_cases hc : c.curlyBraces = true
  · have hbr : ∀ t ∈ S, ∀ fmt, t <+: fmt → BracketText fmt t := by
      intro t ht fmt hp
      obtain ⟨scan, n, hn, rfl⟩ := h.mem_chain.mp ht
      cases scan with
      | none =>
        rw [show c.chain none = c.names from rfl, h.flat hc] at hn
        cases hn
      | some num => exact bracketText_of_prefix (h.bucket num n hn).1 hp
    have hpre : ∀ {fmt t}, BracketText fmt t → t <+: fmt := by
      intro fmt t ht
      rw [← (closingAt_of ht).2.1]
      exact List.take_prefix _ _
    have hsome : ∀ fmt, (fmtUsrMatch fmt c).1.isSome = true ↔ ∃ t ∈ S, BracketText fmt t := by
      intro fmt
      obtain ⟨hs, hn⟩ := h.match_hashed hc fmt
      rcases hname fmt with e | ⟨n, e⟩
      · simp only [e, Option.isSome_none, Bool.false_eq_true, false_iff, not_exists, not_and]
        exact hn e
      · simp only [e, Option.isSome_some, true_iff]
        exact ⟨n.nameStr, hs n e⟩
    refine ⟨h.srch, fun fmt => ?_, fun fmt n hn => ?_, fun _ => hsome⟩
    · rw [hsome fmt]
      exact ⟨fun ⟨t, ht, hb⟩ => ⟨t, ht, hpre hb⟩, fun ⟨t, ht, hp⟩ => ⟨t, ht, hbr t ht fmt hp⟩⟩
    · obtain ⟨hin, hb⟩ := (h.match_hashed hc fmt).1 n hn
      refine ⟨hin, hpre hb, fun m hm hp => ?_⟩
      have h1 := closingAt_of hb
      have h2 := closingAt_of (hbr m hm fmt hp)
      have h3 := Option.some.inj (h1.1.symm.trans h2.1)
      omega
  · have hc' : c.curlyBraces = false := by simpa using hc
    refine ⟨h.srch, fun fmt => ?_, fun fmt => (h.match_flat hc' hm fmt).1, fun h0 => absurd h0 hc⟩
    obtain ⟨hs, hn⟩ := h.match_flat hc' hm fmt
    rcases hname fmt with e | ⟨n, e⟩
    · simp only [e, Option.isSome_none, Bool.false_eq_true, false_iff, not_exists, not_and]
      exact hn e
    · simp only [e, Option.isSome_some, true_iff]
      exact ⟨n.nameStr, (hs n e).1, (hs n e).2.1⟩

/-! ## Runs -/

/-- A call that switches to the flat list finds a maximum that is not too small. -/
def SwitchFits (c : NameConf) : Call → Prop
  | .add granted name _ _ => c.curlyBraces = true → fmtAddQs name = false → granted 0 = true →
    c.nameMax = 0 ∨ ∀ num, ∀ n ∈ c.hash num, n.nameLen ≤ c.nameMax
  | _ => True

/-- After the switch the maximum fits. -/
theorem MaxFits.opened (h : Registry c S) (hm : MaxFits c)
    (hs : c.curlyBraces = true → fmtAddQs name = false →
      c.nameMax = 0 ∨ ∀ num, ∀ n ∈ c.hash num, n.nameLen ≤ c.nameMax) :
    MaxFits (c.opened name) := by
  unfold NameConf.opened
  split
  · rename_i hsw
    rw [Bool.and_eq_true, Bool.not_eq_true'] at hsw
    intro _
    refine (hs hsw.1 hsw.2).imp_right fun hle n hn => ?_
    have hall : (fmtFlattenHash { c with curlyBraces := false }).all = c.all := all_flatten _
    have hin : n ∈ c.all := by
      rw [← hall]
      exact mem_all.mpr ⟨none, hn⟩
    obtain ⟨_ | num, hn'⟩ := mem_all.mp hin
    · rw [show c.chain none = c.names from rfl, h.flat hsw.1] at hn'
      cases hn'
    · exact hle num n hn'
  · exact hm

/-- The maximum fits after a call, if it was not too small at a switch. -/
theorem MaxFits.callStep (h : Registry c S) (hm : MaxFits c) {a : Call} (hs : SwitchFits c a) :
    MaxFits (callStep c a) := by
  cases a with
  | add granted name func types =>
    rcases fmtAdd_cases granted name func types c with ⟨-, e⟩ | ⟨-, h0, e⟩ | ⟨-, h0, -, e⟩ |
      ⟨-, hg, scan, hscan, e⟩
    · rw [Fmt.callStep, e]
      exact hm
    · rw [Fmt.callStep, e]
      exact hm
    · rw [Fmt.callStep, e]
      exact hm.opened h fun hc hq => hs hc hq h0
    · have ho := hm.opened h fun hc hq => hs hc hq hg.1
      rw [Fmt.callStep, e]
      generalize c.opened name = d at ho hscan
      intro hc
      have hcd : d.curlyBraces = false := by
        rw [← hc, setChain_curlyBraces]
        unfold NameConf.raised
        split <;> rfl
      obtain rfl : scan = none := by
        rw [NameConf.scanOf, if_neg (by simp [hcd])] at hscan
        exact (Option.some.inj hscan).symm
      change (d.raised none name.length).nameMax = 0 ∨
        ∀ n ∈ fmtInsert d.names _, n.nameLen ≤ (d.raised none name.length).nameMax
      unfold NameConf.raised
      split
      · rename_i hr
        refine .inr fun n hn => ?_
        rcases (List.mem_orderedInsert _).mp hn with rfl | hn
        · exact Nat.le_refl _
        · rcases hr with hnil | ⟨h0, hlt⟩
          · rw [show d.names = [] from hnil] at hn
            cases hn
          · have hle := (ho hcd).resolve_left h0 n hn
            change n.nameLen ≤ name.length
            omega
      · rename_i hr
        by_cases h0 : d.nameMax = 0
        · exact .inl h0
        · refine .inr fun n hn => ?_
          rcases (List.mem_orderedInsert _).mp hn with rfl | hn
          · change name.length ≤ d.nameMax
            by_contra hlt
            exact hr (.inr ⟨h0, by omega⟩)
          · exact (ho hcd).resolve_left h0 n hn
  | del name =>
    have hend : ∀ d, MaxFits d → MaxFits (fmtDelEnd d) := by
      intro d hd
      unfold fmtDelEnd
      split
      · exact fun h0 => by cases h0
      · exact hd
    rcases fmtDel_cases name c with ⟨-, e⟩ | ⟨scan, i, n, hn, rfl, e⟩
    · rw [Fmt.callStep, e]
      exact hend c hm
    · rw [Fmt.callStep, e]
      refine hend _ fun hc => ?_
      have hcc : c.curlyBraces = false := (setChain_curlyBraces c scan _).symm.trans hc
      by_cases he : n.nameLen = c.nameMax
      · exact .inl (if_pos he)
      · have hnm : (if n.nameLen = c.nameMax then 0 else c.nameMax) = c.nameMax := if_neg he
        have hsub : ∀ k ∈ (c.setChain scan ((c.chain scan).eraseIdx i)).names, k ∈ c.names := by
          intro k hk
          cases scan with
          | none => exact List.mem_of_mem_eraseIdx hk
          | some num => exact hk
        refine (hm hcc).imp (fun h0 => hnm.trans h0) fun hle k hk => ?_
        exact (hle k (hsub k hk)).trans_eq hnm.symm
  | usrMatch fmt =>
    unfold Fmt.callStep fmtUsrMatch
    dsimp only
    split
    · split <;> exact hm
    · rename_i hc
      intro hc'
      by_cases h0 : c.nameMax = 0
      · refine .inr fun n hn => ?_
        simp only [h0, if_true]
        exact (le_foldl_max c.names 0).2 n hn
      · simp only [h0, if_false]
        exact .inr ((hm hc').resolve_left h0)

/-- **Registry.** After every sequence of calls, each of which finds a maximum that fits if it
switches to the flat list, formats are matched against the names that were added and not
deleted since. -/
theorem registry_exact {calls : List Call} {nameMax : Nat}
    (r : Run callStep SwitchFits (.made nameMax) calls c) : RegistryExact c (registered calls) := by
  have h : Registry c (registered calls) ∧ MaxFits c := by
    induction r with
    | nil => exact ⟨registry_made nameMax, fun h0 => by cases h0⟩
    | snoc r ha ih =>
      unfold registered
      rw [List.foldl_append, List.foldl_cons, List.foldl_nil]
      exact ⟨ih.1.callStep _, ih.2.callStep ih.1 ha⟩
  exact h.1.exact h.2

/-- A name without arguments is added, and memory is there. -/
def addName (name : List UInt8) : Call := .add (fun _ => true) name 0 []

/-- The names `{a}`, `{aaaa}`, `{b}` and `x`. -/
def nameA : List UInt8 := [0x7B, 0x61, 0x7D]

@[inherit_doc nameA]
def nameAaaa : List UInt8 := [0x7B, 0x61, 0x61, 0x61, 0x61, 0x7D]

@[inherit_doc nameA]
def nameB : List UInt8 := [0x7B, 0x62, 0x7D]

@[inherit_doc nameA]
def nameX : List UInt8 := [0x78]

/-- Two names of the hash table and one that makes it a flat list. -/
theorem registry_exact_three :
    RegistryExact ([addName nameA, addName nameB, addName nameX].foldl callStep (.made 0))
      (registered [addName nameA, addName nameB, addName nameX]) := by
  have hopen : ∀ c name, fmtAddQs name = true → SwitchFits c (addName name) :=
    fun c name hq _ h0 => by simp [hq] at h0
  have hmax : SwitchFits (callStep (callStep (.made 0) (addName nameA)) (addName nameB))
      (addName nameX) := by
    intro _ _ _
    exact .inr (by decide)
  exact registry_exact (((Run.nil.snoc (hopen _ nameA rfl)).snoc (hopen _ nameB rfl)).snoc hmax)

/-- A shorter name in another list of the hash table hides a longer one after the switch. -/
theorem registry_hides_name :
    nameAaaa ∈ registered [addName nameAaaa, addName nameB, addName nameX] ∧
    (fmtUsrMatch nameAaaa
      ([addName nameAaaa, addName nameB, addName nameX].foldl callStep (.made 0))).1 = none ∧
    ¬ RegistryExact ([addName nameAaaa, addName nameB, addName nameX].foldl callStep (.made 0))
      (registered [addName nameAaaa, addName nameB, addName nameX]) := by
  have hin : nameAaaa ∈ registered [addName nameAaaa, addName nameB, addName nameX] := by
    refine .inl (.inl (.inr ⟨⟨rfl, fun i hi => by cases hi⟩, rfl⟩))
  have hnone : (fmtUsrMatch nameAaaa
      ([addName nameAaaa, addName nameB, addName nameX].foldl callStep (.made 0))).1 = none := by
    decide
  refine ⟨hin, hnone, fun h => ?_⟩
  have hsome := (h.finds nameAaaa).mpr ⟨nameAaaa, hin, List.prefix_refl _⟩
  rw [hnone] at hsome
  cases hsome

end Vstr.Fmt
