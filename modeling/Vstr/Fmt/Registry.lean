import Vstr.Lib.Run
import Vstr.Model.FmtName
import Mathlib.Algebra.BigOperators.Fin
import Mathlib.Data.Multiset.Basic
import Mathlib.Tactic.Abel

/-!
# The registered names

What a sequence of calls registers is a set of names; the lists of the configuration hold
exactly these. The longest name is only known to the flat list: a switch from the hash
table takes over whatever length the table had written last.
-/

namespace Vstr.Fmt

open Runs

variable {c : NameConf} {S : Set (List UInt8)} {name fmt : List UInt8} {scan : Option (Fin 37)}
  {l : List UsrNameNode}

/-! ## All nodes -/

/-- The nodes of all lists. -/
def NameConf.all (c : NameConf) : Multiset UsrNameNode :=
  (c.names : Multiset UsrNameNode) + ∑ num, (c.hash num : Multiset UsrNameNode)

theorem mem_all {n : UsrNameNode} : n ∈ c.all ↔ ∃ scan, n ∈ c.chain scan := by
  unfold NameConf.all
  rw [Multiset.mem_add, Multiset.mem_sum]
  constructor
  · rintro (h | ⟨num, -, h⟩)
    · exact ⟨none, h⟩
    · exact ⟨some num, h⟩
  · rintro ⟨_ | num, h⟩
    · exact .inl h
    · exact .inr ⟨num, Finset.mem_univ _, h⟩

/-- One list is exchanged for another. -/
theorem all_setChain (c : NameConf) (scan : Option (Fin 37)) (l : List UsrNameNode) :
    (c.setChain scan l).all + (c.chain scan : Multiset UsrNameNode) = c.all + l := by
  cases scan with
  | none =>
    change (l : Multiset UsrNameNode) + ∑ num, (c.hash num : Multiset UsrNameNode) +
      (c.names : Multiset UsrNameNode) = _
    unfold NameConf.all
    abel
  | some num =>
    have hsum : ∀ f : Fin 37 → List UsrNameNode,
        ∑ i, (f i : Multiset UsrNameNode) =
          f num + ∑ i ∈ Finset.univ.erase num, (f i : Multiset UsrNameNode) :=
      fun f => (Finset.add_sum_erase _ _ (Finset.mem_univ num)).symm
    have hrest : ∑ i ∈ Finset.univ.erase num,
          (Function.update c.hash num l i : Multiset UsrNameNode) =
        ∑ i ∈ Finset.univ.erase num, (c.hash i : Multiset UsrNameNode) :=
      Finset.sum_congr rfl fun i hi => by
        rw [Function.update_of_ne (Finset.ne_of_mem_erase hi)]
    change (c.names : Multiset UsrNameNode) +
      ∑ i, (Function.update c.hash num l i : Multiset UsrNameNode) + _ = _
    unfold NameConf.all NameConf.chain
    rw [hsum, hsum c.hash, hrest, Function.update_self]
    abel

theorem fmtInsert_perm (l : List UsrNameNode) (n : UsrNameNode) :
    (fmtInsert l n : Multiset UsrNameNode) = n ::ₘ l :=
  Multiset.coe_eq_coe.mpr (List.perm_orderedInsert _ n l)

theorem foldl_fmtInsert (l init : List UsrNameNode) :
    ((l.foldl fmtInsert init : List UsrNameNode) : Multiset UsrNameNode) = init + l := by
  induction l generalizing init with
  | nil => simp
  | cons n l ih =>
    rw [List.foldl_cons, ih, fmtInsert_perm, Multiset.cons_add, ← Multiset.add_cons,
      Multiset.cons_coe]

/-- The flat list takes all nodes over. -/
theorem all_flatten (c : NameConf) : (fmtFlattenHash c).all = c.all := by
  have hfold : ∀ (nums : List (Fin 37)) (init : List UsrNameNode),
      ((nums.foldl (fun names num => (c.hash num).foldl fmtInsert names) init :
          List UsrNameNode) : Multiset UsrNameNode) =
        init + (nums.map fun num => (c.hash num : Multiset UsrNameNode)).sum := by
    intro nums
    induction nums with
    | nil => simp
    | cons num nums ih =>
      intro init
      rw [List.foldl_cons, ih, foldl_fmtInsert, List.map_cons, List.sum_cons, add_assoc]
  have hempty : ∑ num : Fin 37, ((fmtFlattenHash c).hash num : Multiset UsrNameNode) = 0 :=
    Finset.sum_eq_zero fun _ _ => rfl
  unfold NameConf.all
  rw [hempty, add_zero, Fin.sum_univ_def]
  exact hfold _ _

/-! ## Sorted lists -/

/-- The names of a list do not get shorter. -/
def Sorted (l : List UsrNameNode) : Prop := l.Pairwise fun a b => a.nameLen ≤ b.nameLen

theorem Sorted.insert (h : Sorted l) (n : UsrNameNode) : Sorted (fmtInsert l n) := by
  have ht : IsTrans UsrNameNode fun a b => a.nameLen ≤ b.nameLen := ⟨fun _ _ _ => Nat.le_trans⟩
  have hc : Std.Total fun a b : UsrNameNode => a.nameLen ≤ b.nameLen :=
    ⟨fun a b => Nat.le_total a.nameLen b.nameLen⟩
  exact List.Pairwise.orderedInsert n l h

theorem Sorted.foldl (hs : Sorted l) (ns : List UsrNameNode) : Sorted (ns.foldl fmtInsert l) := by
  induction ns generalizing l with
  | nil => exact hs
  | cons n ns ih => exact ih (hs.insert n)

theorem sorted_flatten (h : Sorted c.names) : Sorted (fmtFlattenHash c).names := by
  have hfold : ∀ (nums : List (Fin 37)) (init : List UsrNameNode), Sorted init →
      Sorted (nums.foldl (fun names num => (c.hash num).foldl fmtInsert names) init) := by
    intro nums
    induction nums with
    | nil => exact fun _ hi => hi
    | cons num nums ih => exact fun init hi => ih _ (hi.foldl _)
  exact hfold _ _ h

/-- What the loop over the flat list finds. -/
theorem matchFlat_spec (hs : Sorted l) (fmt : List UInt8) (m : Nat) :
    (matchFlat fmt m l = none → ∀ n ∈ l, n.nameLen ≤ m → ¬ n.nameStr <+: fmt) ∧
    ∀ n, matchFlat fmt m l = some n → n ∈ l ∧ n.nameLen ≤ m ∧ n.nameStr <+: fmt ∧
      ∀ k ∈ l, k.nameStr <+: fmt → n.nameLen ≤ k.nameLen := by
  induction l with
  | nil => exact ⟨(fun _ n hn => by cases hn), fun n hn => by cases hn⟩
  | cons a l ih =>
    obtain ⟨hnone, hsome⟩ := ih (List.pairwise_cons.mp hs).2
    have hle := (List.pairwise_cons.mp hs).1
    rw [matchFlat]
    by_cases hm : a.nameLen ≤ m
    · rw [if_pos hm]
      by_cases he : fmt.take a.nameLen = a.nameStr
      · rw [if_pos he]
        refine ⟨(fun h => by cases h), ?_⟩
        rintro n ⟨⟩
        refine ⟨List.mem_cons_self, hm, he ▸ List.take_prefix _ _, fun k hk _ => ?_⟩
        rcases List.mem_cons.mp hk with rfl | hk
        · exact Nat.le_refl _
        · exact hle k hk
      · have hnp : ¬ a.nameStr <+: fmt := fun hp => he (List.prefix_iff_eq_take.mp hp).symm
        rw [if_neg he]
        refine ⟨fun h n hn hnm => ?_, fun n hn => ?_⟩
        · rcases List.mem_cons.mp hn with rfl | hn
          · exact hnp
          · exact hnone h n hn hnm
        · obtain ⟨h1, h2, h3, h4⟩ := hsome n hn
          refine ⟨List.mem_cons_of_mem _ h1, h2, h3, fun k hk hkp => ?_⟩
          rcases List.mem_cons.mp hk with rfl | hk
          · exact absurd hkp hnp
          · exact h4 k hk hkp
    · rw [if_neg hm]
      refine ⟨fun _ n hn hnm => ?_, fun n hn => by cases hn⟩
      rcases List.mem_cons.mp hn with rfl | hn
      · exact absurd hnm hm
      · have := hle n hn
        omega

/-- What the loop over a list of the hash table finds. -/
theorem matchHashed_spec (hs : Sorted l) (fmt : List UInt8) {len : Nat} (hlen : len ≤ fmt.length) :
    (matchHashed fmt len l = none → ∀ n ∈ l, n.nameStr ≠ fmt.take len) ∧
    ∀ n, matchHashed fmt len l = some n → n ∈ l ∧ n.nameStr = fmt.take len := by
  have htake : (fmt.take len).length = len := by
    rw [List.length_take]
    omega
  induction l with
  | nil => exact ⟨(fun _ n hn => by cases hn), fun n hn => by cases hn⟩
  | cons a l ih =>
    obtain ⟨hnone, hsome⟩ := ih (List.pairwise_cons.mp hs).2
    have hle := (List.pairwise_cons.mp hs).1
    have hiff : (a.nameLen = len ∧ a.nameStr.take len = fmt.take len) ↔
        a.nameStr = fmt.take len := by
      constructor
      · rintro ⟨h1, h2⟩
        rwa [List.take_of_length_le (Nat.le_of_eq h1)] at h2
      · intro h
        have h1 : a.nameLen = len := by rw [UsrNameNode.nameLen, h, htake]
        exact ⟨h1, by rw [List.take_of_length_le (Nat.le_of_eq h1), h]⟩
    rw [matchHashed]
    by_cases he : a.nameLen = len ∧ a.nameStr.take len = fmt.take len
    · rw [if_pos he]
      refine ⟨(fun h => by cases h), ?_⟩
      rintro n ⟨⟩
      exact ⟨List.mem_cons_self, hiff.mp he⟩
    · rw [if_neg he]
      by_cases hl : a.nameLen ≤ len
      · rw [if_pos hl]
        refine ⟨fun h n hn => ?_, fun n hn => ?_⟩
        · rcases List.mem_cons.mp hn with rfl | hn
          · exact fun h => he (hiff.mpr h)
          · exact hnone h n hn
        · exact ⟨List.mem_cons_of_mem _ (hsome n hn).1, (hsome n hn).2⟩
      · rw [if_neg hl]
        refine ⟨fun _ n hn h => ?_, fun n hn => by cases hn⟩
        have hnl : n.nameLen = len := by rw [UsrNameNode.nameLen, h, htake]
        rcases List.mem_cons.mp hn with rfl | hn
        · omega
        · have := hle n hn
          omega

/-! ## Brackets -/

/-- The bracketed text at the beginning of a format. -/
def BracketText (fmt t : List UInt8) : Prop :=
  ∃ b1 b2 inner rest, closing b1 = some b2 ∧ b2 ∉ inner ∧ fmt = b1 :: (inner ++ b2 :: rest) ∧
    t = b1 :: (inner ++ [b2])

theorem closing_ne {b1 b2 : UInt8} (h : closing b1 = some b2) : b1 ≠ b2 := by
  unfold closing at h
  rintro rfl
  split at h
  · subst_vars
    cases h
  · split at h
    · subst_vars
      cases h
    · split at h
      · subst_vars
        cases h
      · split at h
        · subst_vars
          cases h
        · cases h

/-- A name that passes one of the tests. -/
theorem fmtAddQ_eq {b1 b2 : UInt8} (h : fmtAddQ name b1 b2 = true) :
    ∃ inner, name = b1 :: (inner ++ [b2]) ∧ b2 ∉ inner := by
  unfold fmtAddQ at h
  simp only [Bool.and_eq_true, Bool.or_eq_true, decide_eq_true_eq] at h
  obtain ⟨⟨hhead, hlast⟩, hlen⟩ := h
  obtain ⟨t, rfl⟩ := List.head?_eq_some_iff.mp hhead
  rcases List.eq_nil_or_concat t with rfl | ⟨inner, b, rfl⟩
  · rcases hlen with hlen | ⟨⟨hlen, -⟩, -⟩
    · cases hlen
    · rw [List.length_singleton] at hlen
      omega
  · obtain rfl : b = b2 := by simpa [List.getLast?_cons] using hlast
    refine ⟨inner, by simp, ?_⟩
    rcases hlen with hlen | ⟨-, hin⟩
    · obtain rfl : inner = [] := by simpa using hlen
      exact List.not_mem_nil
    · simpa using hin

theorem fmtAddQs_eq (h : fmtAddQs name = true) :
    ∃ b1 b2 inner, closing b1 = some b2 ∧ b2 ∉ inner ∧ name = b1 :: (inner ++ [b2]) := by
  unfold fmtAddQs at h
  simp only [Bool.or_eq_true] at h
  rcases h with ((h | h) | h) | h
  all_goals
    obtain ⟨inner, e, hin⟩ := fmtAddQ_eq h
    exact ⟨_, _, inner, rfl, hin, e⟩

/-- A bracketed name is the bracketed text of the formats that begin with it. -/
theorem bracketText_of_prefix (h : fmtAddQs name = true) (hp : name <+: fmt) :
    BracketText fmt name := by
  obtain ⟨b1, b2, inner, hb, hin, rfl⟩ := fmtAddQs_eq h
  obtain ⟨rest, rfl⟩ := hp
  exact ⟨b1, b2, inner, rest, hb, hin, by simp, rfl⟩

/-- `strchr` finds the end of the bracketed text. -/
theorem closingAt_of {t : List UInt8} (h : BracketText fmt t) :
    closingAt fmt = some (t.length - 1) ∧ fmt.take t.length = t ∧ 2 ≤ t.length := by
  obtain ⟨b1, b2, inner, rest, hb, hin, rfl, rfl⟩ := h
  have hne := closing_ne hb
  have hidx : (inner ++ b2 :: rest).findIdx? (fun x => decide (x = b2)) = some inner.length := by
    rw [List.findIdx?_append, List.findIdx?_eq_none_iff.mpr fun x hx => by
      simpa using fun e : x = b2 => hin (e ▸ hx)]
    simp [List.findIdx?_cons]
  refine ⟨?_, ?_, by simp⟩
  · unfold closingAt
    rw [List.head?_cons, Option.bind_some, hb]
    dsimp only
    rw [List.findIdx?_cons, if_neg (by simpa using hne), hidx]
    simp
  · rw [show b1 :: (inner ++ b2 :: rest) = (b1 :: (inner ++ [b2])) ++ rest by simp]
    exact List.take_left

theorem bracketText_of {ptr : Nat} (h : closingAt fmt = some ptr) :
    BracketText fmt (fmt.take (ptr + 1)) ∧ ptr + 1 ≤ fmt.length := by
  unfold closingAt at h
  cases hb : fmt.head?.bind closing with
  | none =>
    rw [hb] at h
    cases h
  | some b2 =>
    rw [hb] at h
    obtain ⟨b1, hhead, hclose⟩ := Option.bind_eq_some_iff.mp hb
    obtain ⟨t, rfl⟩ := List.head?_eq_some_iff.mp hhead
    dsimp only at h
    rw [List.findIdx?_cons, if_neg (by simpa using closing_ne hclose)] at h
    obtain ⟨i, hi, rfl⟩ := Option.map_eq_some_iff.mp h
    obtain ⟨hlt, hget, hbefore⟩ := List.findIdx?_eq_some_iff_getElem.mp hi
    have hget' : t[i] = b2 := by simpa using hget
    have htake : t = t.take i ++ b2 :: t.drop (i + 1) := by
      rw [← hget', List.cons_getElem_drop_succ, List.take_append_drop]
    refine ⟨⟨b1, b2, t.take i, t.drop (i + 1), hclose, ?_, by rw [← htake], ?_⟩, ?_⟩
    · intro hmem
      obtain ⟨j, hj, e⟩ := List.mem_iff_getElem.mp hmem
      rw [List.length_take] at hj
      rw [List.getElem_take] at e
      exact absurd (by simpa using e) (hbefore j (by omega))
    · rw [List.take_succ_cons, ← List.take_append_getElem hlt, hget']
    · rw [List.length_cons]
      omega

/-! ## The lists and the registered names -/

/-- The list that a name is in. -/
def NameConf.scanOf (c : NameConf) (name : List UInt8) : Option (Option (Fin 37)) :=
  if c.curlyBraces then if fmtAddQs name then some (some (fmtBeg (name.getD 1 0))) else none
  else some none

/-- The lists hold the registered names. -/
structure Registry (c : NameConf) (S : Set (List UInt8)) : Prop where
  /-- The lists are sorted. -/
  sorted : ∀ scan, Sorted (c.chain scan)
  /-- With the hash table the flat list is empty. -/
  flat : c.curlyBraces = true → c.names = []
  /-- With the flat list the hash table is empty. -/
  hashed : c.curlyBraces = false → ∀ num, c.hash num = []
  /-- The names of the hash table are bracketed and in the right list. -/
  bucket : ∀ num, ∀ n ∈ c.hash num, fmtAddQs n.nameStr = true ∧ fmtBeg (n.nameStr.getD 1 0) = num
  /-- No name is there twice. -/
  nodup : (c.all.map UsrNameNode.nameStr).Nodup
  /-- The names of the lists. -/
  mem : ∀ name, name ∈ S ↔ name ∈ c.all.map UsrNameNode.nameStr

theorem registry_made (nameMax : Nat) : Registry (.made nameMax) ∅ where
  sorted scan := by cases scan <;> exact List.Pairwise.nil
  flat _ := rfl
  hashed _ _ := rfl
  bucket num n hn := by cases hn
  nodup := by simp [NameConf.all, NameConf.made]
  mem name := by simp [NameConf.all, NameConf.made]

/-- A registered name has a node in a list. -/
theorem Registry.mem_chain (h : Registry c S) :
    name ∈ S ↔ ∃ scan, ∃ n ∈ c.chain scan, n.nameStr = name := by
  rw [h.mem, Multiset.mem_map]
  constructor
  · rintro ⟨n, hn, rfl⟩
    obtain ⟨scan, hn⟩ := mem_all.mp hn
    exact ⟨scan, n, hn, rfl⟩
  · rintro ⟨scan, n, hn, rfl⟩
    exact ⟨n, mem_all.mpr ⟨scan, hn⟩, rfl⟩

/-- The list of a node is the one that is searched. -/
theorem Registry.scanOf (h : Registry c S) {n : UsrNameNode} (hn : n ∈ c.chain scan) :
    c.scanOf n.nameStr = some scan := by
  unfold NameConf.scanOf
  by_cases hc : c.curlyBraces = true
  · rw [if_pos hc]
    cases scan with
    | none =>
      rw [show c.chain none = c.names from rfl, h.flat hc] at hn
      cases hn
    | some num =>
      obtain ⟨hq, hb⟩ := h.bucket num n hn
      rw [if_pos hq, hb]
  · rw [if_neg hc]
    cases scan with
    | none => rfl
    | some num =>
      rw [show c.chain (some num) = c.hash num from rfl, h.hashed (by simpa using hc)] at hn
      cases hn

theorem fmtUsrSrch_eq (c : NameConf) (name : List UInt8) :
    fmtUsrSrch c name = (c.scanOf name).bind fun scan =>
      ((c.chain scan).findIdx? fun n => n.nameLen = name.length && n.nameStr = name).map
        (scan, ·) := by
  unfold fmtUsrSrch NameConf.scanOf
  dsimp only
  split
  · split <;> rfl
  · rfl

/-- What is found is the name. -/
theorem fmtUsrSrch_some {i : Nat} (h : fmtUsrSrch c name = some (scan, i)) :
    ∃ n, (c.chain scan)[i]? = some n ∧ n.nameStr = name := by
  rw [fmtUsrSrch_eq] at h
  obtain ⟨scan', -, h⟩ := Option.bind_eq_some_iff.mp h
  obtain ⟨j, hj, e⟩ := Option.map_eq_some_iff.mp h
  obtain ⟨rfl, rfl⟩ := Prod.mk.inj e
  obtain ⟨hlt, hget, -⟩ := List.findIdx?_eq_some_iff_getElem.mp hj
  refine ⟨_, List.getElem?_eq_getElem hlt, ?_⟩
  simp only [Bool.and_eq_true, decide_eq_true_eq] at hget
  exact hget.2

/-- Registered names are found, and no others. -/
theorem Registry.srch (h : Registry c S) (name : List UInt8) :
    fmtSrch c name = true ↔ name ∈ S := by
  unfold fmtSrch
  rw [h.mem_chain]
  constructor
  · intro hs
    obtain ⟨⟨scan, i⟩, hs⟩ := Option.isSome_iff_exists.mp hs
    obtain ⟨n, hn, e⟩ := fmtUsrSrch_some hs
    exact ⟨scan, n, List.mem_of_getElem? hn, e⟩
  · rintro ⟨scan, n, hn, rfl⟩
    rw [fmtUsrSrch_eq, h.scanOf hn, Option.bind_some, Option.isSome_map,
      List.findIdx?_isSome]
    exact List.any_eq_true.mpr ⟨n, hn, by simp [UsrNameNode.nameLen]⟩

/-! ## What the calls keep -/

/-- A change of other fields. -/
theorem Registry.frame (h : Registry c S) {d : NameConf} (hn : d.names = c.names)
    (hh : d.hash = c.hash) (hc : d.curlyBraces = c.curlyBraces) : Registry d S := by
  have hchain : ∀ scan, d.chain scan = c.chain scan := by
    rintro (_ | num)
    · exact hn
    · exact congrFun hh num
  have hall : d.all = c.all := by
    unfold NameConf.all
    rw [hn, hh]
  refine ⟨fun scan => hchain scan ▸ h.sorted scan, ?_, ?_, ?_, hall ▸ h.nodup, hall ▸ h.mem⟩
  · rw [hn, hc]
    exact h.flat
  · rw [hh, hc]
    exact h.hashed
  · rw [hh]
    exact h.bucket

/-- The switch to the flat list. -/
theorem Registry.flatten (h : Registry c S) :
    Registry (fmtFlattenHash { c with curlyBraces := false }) S := by
  have hall : (fmtFlattenHash { c with curlyBraces := false }).all = c.all := all_flatten _
  refine ⟨?_, (fun h0 => by cases h0), fun _ _ => rfl, (fun num n hn => by cases hn),
    hall ▸ h.nodup, hall ▸ h.mem⟩
  rintro (_ | num)
  · exact sorted_flatten (h.sorted none)
  · exact List.Pairwise.nil

/-- A list of the same nodes and one more. -/
theorem all_insert (c : NameConf) (scan : Option (Fin 37)) (n : UsrNameNode) :
    (c.setChain scan (fmtInsert (c.chain scan) n)).all = n ::ₘ c.all := by
  have h := all_setChain c scan (fmtInsert (c.chain scan) n)
  rw [fmtInsert_perm, Multiset.add_cons, ← Multiset.cons_add] at h
  exact add_right_cancel h

/-- A list without one of its nodes. -/
theorem all_erase {i : Nat} {n : UsrNameNode} (hn : (c.chain scan)[i]? = some n) :
    n ::ₘ (c.setChain scan ((c.chain scan).eraseIdx i)).all = c.all := by
  have h := all_setChain c scan ((c.chain scan).eraseIdx i)
  obtain ⟨hlt, rfl⟩ := List.getElem?_eq_some_iff.mp hn
  have hperm : ((c.chain scan : List UsrNameNode) : Multiset UsrNameNode) =
      (c.chain scan)[i] ::ₘ ((c.chain scan).eraseIdx i : List UsrNameNode) :=
    Multiset.coe_eq_coe.mpr (List.getElem_cons_eraseIdx_perm hlt).symm
  rw [hperm, Multiset.add_cons, ← Multiset.cons_add] at h
  exact add_right_cancel h

/-- The lists after one of them is written. -/
theorem chain_setChain (c : NameConf) (scan scan' : Option (Fin 37)) (l : List UsrNameNode) :
    (c.setChain scan l).chain scan' = if scan' = scan then l else c.chain scan' := by
  cases scan with
  | none => cases scan' <;> rfl
  | some num =>
    cases scan' with
    | none => rfl
    | some num' =>
      change Function.update c.hash num l num' = _
      by_cases he : num' = num
      · subst he
        rw [if_pos rfl, Function.update_self]
      · rw [if_neg (by simpa using he), Function.update_of_ne he]
        rfl

theorem setChain_curlyBraces (c : NameConf) (scan : Option (Fin 37)) (l : List UsrNameNode) :
    (c.setChain scan l).curlyBraces = c.curlyBraces := by
  cases scan <;> rfl

/-- One list is written: what has to be shown of it. -/
theorem Registry.setChain (h : Registry c S) {S' : Set (List UInt8)} (hs : Sorted l)
    (hl : ∀ n ∈ l, c.scanOf n.nameStr = some scan)
    (hd : ((c.setChain scan l).all.map UsrNameNode.nameStr).Nodup)
    (hm : ∀ name, name ∈ S' ↔ name ∈ (c.setChain scan l).all.map UsrNameNode.nameStr) :
    Registry (c.setChain scan l) S' where
  sorted scan' := by
    rw [chain_setChain]
    split
    · exact hs
    · exact h.sorted scan'
  flat hc := by
    rw [setChain_curlyBraces] at hc
    cases scan with
    | some num => exact h.flat hc
    | none =>
      refine List.eq_nil_iff_forall_not_mem.mpr fun n hn => ?_
      have := hl n hn
      rw [NameConf.scanOf, if_pos hc] at this
      split at this <;> cases this
  hashed hc num := by
    rw [setChain_curlyBraces] at hc
    cases scan with
    | none => exact h.hashed hc num
    | some num' =>
      have hnil : l = [] := by
        refine List.eq_nil_iff_forall_not_mem.mpr fun n hn => ?_
        have := hl n hn
        rw [NameConf.scanOf, if_neg (by simp [hc])] at this
        cases this
      have e := chain_setChain c (some num') (some num) l
      change (c.setChain (some num') l).hash num = _ at e
      rw [e]
      split
      · exact hnil
      · exact h.hashed hc num
  bucket num n hn := by
    have e := chain_setChain c scan (some num) l
    change (c.setChain scan l).hash num = _ at e
    rw [e] at hn
    split at hn
    · rename_i he
      have hscan := hl n hn
      rw [← he, NameConf.scanOf] at hscan
      split at hscan
      · split at hscan
        · rename_i hq
          exact ⟨hq, Option.some.inj (Option.some.inj hscan)⟩
        · cases hscan
      · cases hscan
    · exact h.bucket num n hn
  nodup := hd
  mem := hm

/-- A new node in its list. -/
theorem Registry.insert (h : Registry c S) {n : UsrNameNode}
    (hscan : c.scanOf n.nameStr = some scan)
    (hn : n.nameStr ∉ S) :
    Registry (c.setChain scan (fmtInsert (c.chain scan) n)) (insert n.nameStr S) := by
  refine h.setChain ((h.sorted scan).insert n) ?_ ?_ ?_
  · intro m hm
    rcases (List.mem_orderedInsert _).mp hm with rfl | hm
    · exact hscan
    · exact h.scanOf hm
  · rw [all_insert, Multiset.map_cons, Multiset.nodup_cons, ← h.mem]
    exact ⟨hn, h.nodup⟩
  · intro name
    rw [all_insert, Multiset.map_cons, Multiset.mem_cons, ← h.mem, Set.mem_insert_iff]

/-- A node is taken out of its list. -/
theorem Registry.erase (h : Registry c S) {i : Nat} {n : UsrNameNode}
    (hn : (c.chain scan)[i]? = some n) :
    Registry (c.setChain scan ((c.chain scan).eraseIdx i)) (S \ {n.nameStr}) := by
  have hall := all_erase hn
  have hnodup := h.nodup
  rw [← hall, Multiset.map_cons, Multiset.nodup_cons] at hnodup
  refine h.setChain ((h.sorted scan).sublist (List.eraseIdx_sublist _ _)) ?_ hnodup.2 ?_
  · exact fun m hm => h.scanOf (List.mem_of_mem_eraseIdx hm)
  · intro name
    rw [Set.mem_sdiff, Set.mem_singleton_iff, h.mem, ← hall, Multiset.map_cons, Multiset.mem_cons]
    constructor
    · rintro ⟨rfl | hmem, hne⟩
      · exact absurd rfl hne
      · exact hmem
    · intro hmem
      refine ⟨.inr hmem, ?_⟩
      rintro rfl
      exact hnodup.1 hmem

end Vstr.Fmt
