import Vstr.Model.Path
import Vstr.Parse.Split
import Vstr.Srch.Span

/-!
# Paths

A path is cut into a directory, slashes, its last component and slashes. Both functions look
for the last slash, and start again without the slashes at the end where the path ends with
one. `vstr_sc_dirname` finds the directory of every path; `vstr_sc_basename` takes a component
behind the one slash that a path begins with for the name of the root.
-/

namespace Vstr

open Memory Splice Query Occur

variable {E : Env} {P : Own} {s t : St} {pos len fuel : Nat} {xs ys as bs : List (Option UInt8)}

/-! ## Searches one after the other -/

/-- Reading a string that may have vectors. -/
structure Looks (s t : St) : Prop where
  /-- The string is read. -/
  reads : Reads s t
  /-- The number of the node in the position cache stays right. -/
  posOk : s.base.iovecUptoDate = true → PosOk True s.base → PosOk True t.base

theorem Reads.iovecUptoDate (r : Reads s t) : t.base.iovecUptoDate = s.base.iovecUptoDate := by
  obtain ⟨d, e⟩ := r.base
  rw [e]

theorem Reads.iovecOk (r : Reads s t) (iv : IovecOk s) : IovecOk t := by
  obtain ⟨d, e⟩ := r.base
  have e' : t = ⟨s.heap, { s.base with posData := d }⟩ := by rw [← e, ← r.heap]
  rw [e']
  exact iv

instance : IsPreorder St Looks where
  refl s := ⟨Std.Refl.refl s, fun _ => id⟩
  trans := fun _ _ _ a b => ⟨IsTrans.trans _ _ _ a.reads b.reads, fun hup pk =>
    b.posOk (a.reads.iovecUptoDate.trans hup) (a.posOk hup pk)⟩

/-- A slice that can be searched backwards. -/
structure Ready (E : Env) (P : Own) (s : St) (pos len : Nat) (xs : List (Option UInt8)) :
    Prop where
  /-- The slice. -/
  window : Window E P s pos len xs
  /-- The position cache. -/
  posOk : s.base.iovecUptoDate = true → PosOk True s.base
  /-- The vectors. -/
  iovecOk : IovecOk s

theorem Ready.looks (w : Ready E P s pos len xs) (l : Looks s t) : Ready E P t pos len xs :=
  ⟨w.window.reads l.reads,
    fun hup => l.posOk (l.reads.iovecUptoDate.symm.trans hup)
      (w.posOk (l.reads.iovecUptoDate.symm.trans hup)),
    l.reads.iovecOk w.iovecOk⟩

theorem Ready.front (w : Ready E P s pos len (as ++ bs)) : Ready E P s pos as.length as :=
  ⟨w.window.front as, w.posOk, w.iovecOk⟩

/-- Starting a scan keeps the position cache right. -/
theorem Window.posOk_scan (w : Window E P s pos len xs) (pk : PosOk True s.base) :
    PosOk True (baseScanRevBeg s pos len).2.base := by
  have h1 := w.one_le
  have h2 := w.le_len
  have v := w.usable.sound.valid
  have hd := w.usable.sound.owned.nodes.nodup
  rw [baseScanRevBeg]
  split
  · exact pk
  · rename_i hbad
    have pk₁ := posOk_basePos v hd pk h1 (show pos ≤ s.base.len by omega) true
    obtain ⟨d, hb⟩ := basePos_base s.base pos true
    have pk₂ : PosOk True (basePos (basePos s.base pos true).2 (pos + (len - 1)) false).2 := by
      rw [hb] at pk₁ ⊢
      have v₁ : Valid s.conf.bufSz { s.base with posData := d } :=
        ⟨v.len, v.num, v.endNode, v.pos, v.used, v.flags, v.buf, v.max⟩
      exact posOk_basePos v₁ hd pk₁ (show 1 ≤ pos + (len - 1) by omega)
        (show pos + (len - 1) ≤ s.base.len by omega) false
    dsimp only
    split
    · exact pk₂
    · exact pk₂

/-- `vstr_srch_chr_rev` on a path. -/
theorem Ready.chrRev (w : Ready E P s pos len xs) (c : UInt8) :
    Ensures Looks (srchChrRev pos len c) s (Last [some c] xs pos) := by
  by_cases hup : s.base.iovecUptoDate = true
  · have h := w.window.chrRev (w.posOk hup) w.iovecOk c
    refine ⟨h.1, h.2, fun _ pk => ?_⟩
    have hp := w.window.posOk_scan pk
    have e : (srchChrRev pos len c).run s = srchChrRevFast pos len c s := if_pos hup
    rw [e, srchChrRevFast]
    rcases hb : baseScanRevBeg s pos len with ⟨- | sc, t⟩ <;> rw [hb] at hp <;> exact hp
  · have h := w.window.chrRevSlow c
    have e : (srchChrRev pos len c).run s = (srchChrRevSlow pos len c).run s := if_neg hup
    rw [Ensures, e]
    exact ⟨h.1, h.2, fun hup' => absurd hup' hup⟩

/-- `vstr_spn_chrs_rev` on a path. -/
theorem Ready.spnRev (w : Ready E P s pos len xs) (chrs : List UInt8) :
    Yields Looks (Spn.chrsRev pos len (some chrs)) s
      (xs.rtakeWhile (inChrs (some chrs))).length := by
  by_cases hup : s.base.iovecUptoDate = true
  · have h := w.window.yields_spnChrsRev (w.posOk hup) w.iovecOk (some chrs)
    refine ⟨h.1, h.2, fun _ pk => ?_⟩
    have hp := w.window.posOk_scan pk
    have e : (Spn.chrsRev pos len (some chrs)).run s = spanRevFast (spnSet (some chrs)) pos len s :=
      if_pos hup
    rw [e, spanRevFast]
    rcases hb : baseScanRevBeg s pos len with ⟨- | sc, t⟩ <;> rw [hb] at hp <;> exact hp
  · have h := w.window.yields_spnChrsRevSlow (some chrs)
    have e : (Spn.chrsRev pos len (some chrs)).run s =
        (Spn.chrsRevSlow pos len (some chrs)).run s := if_neg hup
    rw [Yields, e]
    exact ⟨h.1, h.2, fun hup' => absurd hup' hup⟩

/-! ## The slashes at the end -/

/-- The slashes at the end of a path. -/
def endSlashes (xs : List (Option UInt8)) : List (Option UInt8) :=
  xs.rtakeWhile (inChrs (some [0x2F]))

/-- A path without the slashes at its end. -/
def trimmed (xs : List (Option UInt8)) : List (Option UInt8) :=
  xs.rdropWhile (inChrs (some [0x2F]))

theorem inSlash (x : Option UInt8) : inChrs (some [0x2F]) x = true ↔ x = some 0x2F := by
  simp [inChrs]

theorem trimmed_append (xs : List (Option UInt8)) : trimmed xs ++ endSlashes xs = xs :=
  List.rdropWhile_append_rtakeWhile

theorem mem_endSlashes {x : Option UInt8} (h : x ∈ endSlashes xs) : x = some 0x2F :=
  (inSlash x).mp (List.mem_rtakeWhile_imp h)

theorem trimmed_ne (xs as : List (Option UInt8)) : trimmed xs ≠ as ++ [some 0x2F] := by
  intro h
  have hne : trimmed xs ≠ [] := by
    rw [h]
    simp
  refine List.rdropWhile_last_not _ _ hne ((inSlash _).mpr ?_)
  simp only [trimmed] at h
  simp [h]

theorem trimmed_of_ne (h : ∀ as, xs ≠ as ++ [some 0x2F]) : trimmed xs = xs := by
  refine List.rdropWhile_eq_self_iff.mpr fun hne hl => h xs.dropLast ?_
  conv_lhs => rw [← List.dropLast_append_getLast hne]
  rw [(inSlash _).mp hl]

theorem trimmed_concat (as : List (Option UInt8)) : trimmed (as ++ [some 0x2F]) = trimmed as :=
  List.rdropWhile_concat_pos _ _ _ ((inSlash _).mpr rfl)

theorem Ready.spnSlashes (w : Ready E P s pos len xs) :
    Ensures Looks (Spn.chrsRev pos len (some [0x2F])) s (· = (endSlashes xs).length) :=
  (w.spnRev [0x2F]).ensures rfl

theorem Ready.trim (w : Ready E P s pos len xs) :
    Ready E P s pos (len - (endSlashes xs).length) (trimmed xs) := by
  have hl := w.window.length
  have e := trimmed_append xs
  have hlen := congrArg List.length e
  rw [List.length_append] at hlen
  rw [show len - (endSlashes xs).length = (trimmed xs).length by omega]
  rw [← e] at w
  exact w.front

/-! ## The last component -/

/-- What `vstr_sc_basename` answers on the path without the slashes at its end. -/
inductive NameAt (pos : Nat) (ys : List (Option UInt8)) : Nat × Nat → Prop
  /-- There is no slash. -/
  | whole (h : some 0x2F ∉ ys) : NameAt pos ys (pos, ys.length)
  /-- The last slash is the first byte. -/
  | root {bs : List (Option UInt8)} (e : ys = some 0x2F :: bs) (h : some 0x2F ∉ bs) :
      NameAt pos ys (pos, 0)
  /-- The last slash is behind the first byte. -/
  | behind {as bs : List (Option UInt8)} (e : ys = as ++ some 0x2F :: bs) (ha : as ≠ [])
      (h : some 0x2F ∉ bs) : NameAt pos ys (pos + as.length + 1, bs.length)

theorem scBasename_trimmed (w : Ready E P s pos len ys) (hy : ∀ as, ys ≠ as ++ [some 0x2F])
    (hf : 0 < fuel) :
    Ensures Looks (scBasename fuel pos len) s fun r => ∃ p, r = some p ∧ NameAt pos ys p := by
  obtain ⟨fuel, rfl⟩ := Nat.exists_eq_add_one.mpr hf
  have h1 := w.window.one_le
  have hl := w.window.length
  unfold scBasename
  refine (w.chrRev 0x2F).bind fun ls t l hls => ?_
  rcases last_singleton hls with ⟨rfl, hx⟩ | ⟨as, bs, rfl, hb, rfl⟩
  · rw [if_pos rfl]
    refine .pure _ ⟨_, rfl, ?_⟩
    rw [← hl]
    exact .whole hx
  · rw [if_neg (by omega)]
    have hb0 : bs ≠ [] := by
      rintro rfl
      exact hy as rfl
    have hbl := List.length_pos_iff.mpr hb0
    rw [List.length_append, List.length_cons] at hl
    by_cases ha : as = []
    · subst ha
      rw [if_pos (by simp)]
      exact .pure _ ⟨_, rfl, .root rfl hb⟩
    · have hal := List.length_pos_iff.mpr ha
      rw [if_neg (by omega), if_neg (by omega)]
      refine .pure _ ⟨_, rfl, ?_⟩
      rw [show len - (pos + as.length + 1 - pos) = bs.length by omega]
      exact .behind rfl ha hb

/-- `vstr_sc_basename`. -/
theorem Ready.basename (w : Ready E P s pos len xs) (hf : 2 ≤ fuel) :
    Ensures Looks (scBasename fuel pos len) s fun r =>
      ∃ p, r = some p ∧ NameAt pos (trimmed xs) p := by
  by_cases hx : ∀ as, xs ≠ as ++ [some 0x2F]
  · rw [trimmed_of_ne hx]
    exact scBasename_trimmed w hx (by omega)
  · push Not at hx
    obtain ⟨as, rfl⟩ := hx
    obtain ⟨fuel, rfl⟩ := Nat.exists_eq_add_one.mpr (show 0 < fuel by omega)
    have h1 := w.window.one_le
    have hl := w.window.length
    rw [List.length_append, List.length_singleton] at hl
    unfold scBasename
    refine (w.chrRev 0x2F).bind fun ls t l hls => ?_
    obtain rfl := hls.unique (last_of_split List.not_mem_nil)
    rw [if_neg (by omega)]
    by_cases ha : as = []
    · subst ha
      rw [if_pos (by simp)]
      exact .pure _ ⟨_, rfl, .whole (by simp [trimmed, List.rdropWhile_singleton, inChrs])⟩
    · have hal := List.length_pos_iff.mpr ha
      rw [if_neg (by omega), if_pos (by omega)]
      have wt := w.looks l
      refine (wt.spnSlashes).bind fun ls u l' hs => ?_
      rw [hs]
      exact scBasename_trimmed (wt.looks l').trim (trimmed_ne _) (by omega)

/-! ## The directory -/

/-- What `vstr_sc_dirname` answers on the path without the slashes at its end. -/
inductive DirAt (ys : List (Option UInt8)) : Nat → Prop
  /-- There are only slashes. -/
  | root (e : ys = []) : DirAt ys 1
  /-- There is no slash. -/
  | none (hy : ys ≠ []) (h : some 0x2F ∉ ys) : DirAt ys 0
  /-- The first of the slashes in front of the last component. -/
  | front {as bs : List (Option UInt8)} (e : ys = as ++ some 0x2F :: bs) (hb : bs ≠ [])
      (h : some 0x2F ∉ bs) : DirAt ys ((trimmed as).length + 1)

theorem length_trimmed (xs : List (Option UInt8)) :
    (trimmed xs).length + (endSlashes xs).length = xs.length := by
  rw [← List.length_append, trimmed_append]

theorem scDirname_trimmed (w : Ready E P s pos len ys) (hy : ∀ as, ys ≠ as ++ [some 0x2F])
    (hne : ys ≠ []) (hf : 0 < fuel) :
    Ensures Looks (scDirname fuel pos len) s fun r => ∃ n, r = some n ∧ DirAt ys n := by
  obtain ⟨fuel, rfl⟩ := Nat.exists_eq_add_one.mpr hf
  have h1 := w.window.one_le
  have hl := w.window.length
  unfold scDirname
  refine (w.chrRev 0x2F).bind fun ls t l hls => ?_
  rcases last_singleton hls with ⟨rfl, hx⟩ | ⟨as, bs, rfl, hb, rfl⟩
  · rw [if_pos rfl]
    exact .pure _ ⟨_, rfl, .none hne hx⟩
  · have hb0 : bs ≠ [] := by
      rintro rfl
      exact hy as rfl
    have hbl := List.length_pos_iff.mpr hb0
    rw [List.length_append, List.length_cons] at hl
    rw [if_neg (by omega), if_neg (by omega)]
    have wa : Ready E P t pos as.length as := (w.looks l).front
    have e : pos + as.length - pos + 1 - 1 = as.length := by omega
    dsimp only
    rw [e]
    refine wa.spnSlashes.bind fun ls u l' hs => .pure _ ⟨_, rfl, ?_⟩
    have ht := length_trimmed as
    rw [hs, show pos + as.length - pos + 1 - (endSlashes as).length = (trimmed as).length + 1 by
      omega]
    exact .front rfl hb0 hb

/-- `vstr_sc_dirname`. -/
theorem Ready.dirname (w : Ready E P s pos len xs) (hx0 : xs ≠ []) (hf : 2 ≤ fuel) :
    Ensures Looks (scDirname fuel pos len) s fun r => ∃ n, r = some n ∧ DirAt (trimmed xs) n := by
  by_cases hx : ∀ as, xs ≠ as ++ [some 0x2F]
  · rw [trimmed_of_ne hx]
    exact scDirname_trimmed w hx hx0 (by omega)
  · push Not at hx
    obtain ⟨as, rfl⟩ := hx
    obtain ⟨fuel, rfl⟩ := Nat.exists_eq_add_one.mpr (show 0 < fuel by omega)
    have h1 := w.window.one_le
    have hl := w.window.length
    rw [List.length_append, List.length_singleton] at hl
    unfold scDirname
    refine (w.chrRev 0x2F).bind fun ls t l hls => ?_
    obtain rfl := hls.unique (last_of_split List.not_mem_nil)
    rw [if_neg (by omega), if_pos (by omega)]
    have wt := w.looks l
    refine wt.spnSlashes.bind fun ls u l' hs => ?_
    rw [hs]
    have ht := length_trimmed (as ++ [some 0x2F])
    rw [List.length_append, List.length_singleton] at ht
    by_cases he : trimmed (as ++ [some 0x2F]) = []
    · rw [he, List.length_nil] at ht
      rw [if_pos (by omega)]
      exact .pure _ ⟨_, rfl, .root he⟩
    · have hp := List.length_pos_iff.mpr he
      rw [if_neg (by omega)]
      exact scDirname_trimmed (wt.looks l').trim (trimmed_ne _) he (by omega)

/-! ## The path -/

/-- A path cut into its directory, slashes, its last component and slashes. -/
structure PathSplit (dir sl name tail : List (Option UInt8)) : Prop where
  /-- Slashes. -/
  slashes : ∀ x ∈ sl ++ tail, x = some 0x2F
  /-- The last component has no slash. -/
  noSlash : some 0x2F ∉ name
  /-- The directory is the root, or empty, or ends with the first of its slashes. -/
  front : (name = [] ∧ dir = [some 0x2F] ∧ sl = []) ∨
    (name ≠ [] ∧ dir = [] ∧ sl = []) ∨
    (name ≠ [] ∧ ∃ as, dir = as ++ [some 0x2F] ∧ ∀ bs, as ≠ bs ++ [some 0x2F])

/-- A base name and the length of a directory name are those of the path. -/
def PathExact (xs : List (Option UInt8)) (pos : Nat) (base : Nat × Nat) (dirLen : Nat) : Prop :=
  ∃ dir sl name tail, xs = dir ++ sl ++ name ++ tail ∧ PathSplit dir sl name tail ∧
    base.2 = name.length ∧ (name ≠ [] → base.1 = pos + dir.length + sl.length) ∧
    dirLen = dir.length

/-- One slash, a component and slashes. -/
def Rooted (xs : List (Option UInt8)) : Prop :=
  ∃ name tail, xs = some 0x2F :: name ++ tail ∧ name ≠ [] ∧ some 0x2F ∉ name ∧
    ∀ x ∈ tail, x = some 0x2F

theorem trimmed_append_slashes (as : List (Option UInt8)) (h : ∀ x ∈ bs, x = some 0x2F) :
    trimmed (as ++ bs) = trimmed as := by
  induction bs using List.reverseRecOn with
  | nil => rw [List.append_nil]
  | append_singleton bs b ih =>
    obtain rfl := h b (by simp)
    rw [← List.append_assoc, trimmed_concat, ih fun x hx => h x (by simp [hx])]

theorem trimmed_slashes (h : ∀ x ∈ bs, x = some 0x2F) : trimmed bs = [] :=
  (trimmed_append_slashes [] h).trans rfl

theorem rooted_iff : Rooted xs ↔
    ∃ bs, trimmed xs = some 0x2F :: bs ∧ bs ≠ [] ∧ some 0x2F ∉ bs := by
  constructor
  · rintro ⟨name, tail, rfl, hn, hs, ht⟩
    refine ⟨name, ?_, hn, hs⟩
    rw [trimmed_append_slashes _ ht]
    refine trimmed_of_ne fun as e => ?_
    cases as with
    | nil => exact hn (List.cons.inj e).2
    | cons a as => exact hs ((List.cons.inj e).2 ▸ by simp)
  · rintro ⟨bs, e, hn, hs⟩
    refine ⟨bs, endSlashes xs, ?_, hn, hs, fun x hx => mem_endSlashes hx⟩
    rw [← e, trimmed_append]

theorem lastSlash_unique {as' bs' : List (Option UInt8)}
    (e : as ++ some 0x2F :: bs = as' ++ some 0x2F :: bs') (h : some 0x2F ∉ bs)
    (h' : some 0x2F ∉ bs') : as = as' ∧ bs = bs' := by
  have hl : Last [some 0x2F] (as ++ some 0x2F :: bs) 1 (1 + as.length) := last_of_split h
  have hl' : Last [some 0x2F] (as' ++ some 0x2F :: bs') 1 (1 + as'.length) := last_of_split h'
  rw [e] at hl
  have hlen := hl.unique hl'
  have hs := List.append_inj e (by omega)
  exact ⟨hs.1, (List.cons.inj hs.2).2⟩

/-- The slashes in front of the last component, the first of them apart. -/
theorem front_slashes (as : List (Option UInt8)) :
    as ++ [some 0x2F] = trimmed as ++ [some 0x2F] ++ endSlashes as := by
  have hr : endSlashes as = List.replicate (endSlashes as).length (some 0x2F) :=
    List.eq_replicate_iff.mpr ⟨rfl, fun x hx => mem_endSlashes hx⟩
  conv_lhs => rw [← trimmed_append as, hr]
  conv_rhs => rw [hr]
  rw [List.append_assoc, List.append_assoc, List.singleton_append, ← List.replicate_succ',
    List.replicate_succ]

/-- The cut of a path with a slash in front of its last component. -/
theorem split_front (e : trimmed xs = as ++ some 0x2F :: bs) (hb : bs ≠ [])
    (h : some 0x2F ∉ bs) :
    xs = trimmed as ++ [some 0x2F] ++ endSlashes as ++ bs ++ endSlashes xs ∧
      PathSplit (trimmed as ++ [some 0x2F]) (endSlashes as) bs (endSlashes xs) := by
  refine ⟨?_, fun x hx => ?_, h, .inr (.inr ⟨hb, _, rfl, trimmed_ne as⟩)⟩
  · rw [← front_slashes, List.append_assoc as, List.singleton_append, ← e, trimmed_append]
  · exact (List.mem_append.mp hx).elim mem_endSlashes mem_endSlashes

/-- A path of slashes is the root and slashes. -/
theorem split_root (e : trimmed xs = []) (hne : xs ≠ []) :
    ∃ tail, xs = [some 0x2F] ++ [] ++ [] ++ tail ∧ PathSplit [some 0x2F] [] [] tail := by
  have hx := trimmed_append xs
  rw [e, List.nil_append] at hx
  obtain ⟨x, tail, rfl⟩ := List.exists_cons_of_ne_nil hne
  have hall : ∀ y ∈ x :: tail, y = some 0x2F := fun y hy => mem_endSlashes (hx ▸ hy)
  obtain rfl := hall x List.mem_cons_self
  exact ⟨tail, rfl, fun y hy => hall y (List.mem_cons_of_mem _ hy), List.not_mem_nil,
    .inl ⟨rfl, rfl, rfl⟩⟩

/-- A component without a slash in front of it. -/
theorem split_none (hy : trimmed xs ≠ []) (h : some 0x2F ∉ trimmed xs) :
    xs = [] ++ [] ++ trimmed xs ++ endSlashes xs ∧
      PathSplit [] [] (trimmed xs) (endSlashes xs) :=
  ⟨(trimmed_append xs).symm, fun _ hx => mem_endSlashes hx, h, .inr (.inl ⟨hy, rfl, rfl⟩)⟩

/-- The directory is always found. -/
theorem DirAt.split {n : Nat} (hne : xs ≠ []) (h : DirAt (trimmed xs) n) :
    ∃ dir sl name tail, xs = dir ++ sl ++ name ++ tail ∧ PathSplit dir sl name tail ∧
      n = dir.length := by
  generalize hy : trimmed xs = ys at h
  cases h with
  | root e =>
    obtain ⟨tail, ex, sp⟩ := split_root (hy.trans e) hne
    exact ⟨_, _, _, _, ex, sp, rfl⟩
  | none h0 h =>
    subst hy
    obtain ⟨ex, sp⟩ := split_none h0 h
    exact ⟨_, _, _, _, ex, sp, rfl⟩
  | front e hb h =>
    obtain ⟨ex, sp⟩ := split_front (hy.trans e) hb h
    exact ⟨_, _, _, _, ex, sp, by simp⟩

/-- A component behind the one slash of the root is lost. -/
theorem not_pathExact {p : Nat × Nat} {n : Nat} (hx : trimmed xs ≠ []) (hp : p.2 = 0) :
    ¬ PathExact xs pos p n := by
  rintro ⟨dir, sl, name, tail, rfl, sp, hlen, -, -⟩
  have hname : name = [] := List.length_eq_zero_iff.mp (hlen.symm.trans hp)
  rcases sp.front with ⟨-, rfl, rfl⟩ | ⟨hn, -⟩ | ⟨hn, -⟩
  · refine hx (trimmed_slashes fun x hm => ?_)
    rw [hname] at hm
    rcases List.mem_cons.mp (show x ∈ some 0x2F :: tail by simpa using hm) with rfl | hm
    · rfl
    · exact sp.slashes x hm
  · exact hn hname
  · exact hn hname

theorem pathExact_iff {p : Nat × Nat} {n : Nat} (hne : xs ≠ []) (hb : NameAt pos (trimmed xs) p)
    (hd : DirAt (trimmed xs) n) : PathExact xs pos p n ↔ ¬ Rooted xs := by
  rw [rooted_iff]
  generalize hy : trimmed xs = ys at hb hd
  cases hb with
  | whole h =>
    refine iff_of_true ?_ ?_
    · cases hd with
      | root e =>
        obtain ⟨tail, ex, sp⟩ := split_root (hy.trans e) hne
        exact ⟨_, _, _, _, ex, sp, by rw [e], fun h0 => absurd rfl h0, rfl⟩
      | none h0 _ =>
        subst hy
        obtain ⟨ex, sp⟩ := split_none h0 h
        exact ⟨_, _, _, _, ex, sp, rfl, fun _ => rfl, rfl⟩
      | front e => exact absurd (e ▸ by simp) h
    · rintro ⟨bs, e, -⟩
      exact h (e ▸ List.mem_cons_self)
  | root e h =>
    rename_i bs
    have hbs : bs ≠ [] := by
      rintro rfl
      exact trimmed_ne xs [] (hy.trans e)
    refine iff_of_false (not_pathExact ?_ rfl) fun h0 => h0 ⟨bs, e, hbs, h⟩
    rw [hy, e]
    exact List.cons_ne_nil _ _
  | behind e ha h =>
    rename_i as bs
    have hbs : bs ≠ [] := by
      rintro rfl
      exact trimmed_ne xs as (hy.trans e)
    refine iff_of_true ?_ ?_
    · cases hd with
      | root e' => exact absurd (e.symm.trans e') (by simp)
      | none _ h' => exact absurd (e ▸ by simp) h'
      | front e' hb' h' =>
        obtain ⟨rfl, rfl⟩ := lastSlash_unique (e.symm.trans e') h h'
        obtain ⟨ex, sp⟩ := split_front (hy.trans e) hbs h
        refine ⟨_, _, _, _, ex, sp, rfl, fun _ => ?_, by simp⟩
        have hl := length_trimmed as
        simp only [List.length_append, List.length_singleton]
        omega
    · rintro ⟨bs', e', -, h'⟩
      exact ha (lastSlash_unique (e.symm.trans e') h h').1

theorem ready_text (text : List UInt8) :
    ∃ P, Ready alone P (written text).vectored 1 text.length (text.map some) := by
  obtain ⟨P, w⟩ := window_text text
  exact ⟨P, w.vectored, fun _ => posOk_of_none rfl, iovecOk_vectored _⟩

end Vstr
