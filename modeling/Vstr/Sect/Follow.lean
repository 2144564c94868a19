import Vstr.Model.Sect
import Vstr.Run.Calls

/-!
# Sections follow the text

The bytes of a section are tagged. Insertions and deletions edit the tagged text, and a
byte that goes in between two bytes of the section gets the tag. The section is then
where the tags are, whatever other sections are registered.
-/

namespace Vstr

open Memory Splice Runs

variable {E : Env} {P : Own} {pos len n : Nat} {x : Sect}

/-! ## Tags of a section -/

/-- Tags of a text of `n` bytes for the range of `len` bytes from `pos` on. -/
def tags (n pos len : Nat) : List Bool :=
  (List.range n).map fun i => decide (pos ≤ i + 1 ∧ i + 1 < pos + len)

theorem getElem?_tags (n pos len i : Nat) :
    (tags n pos len)[i]? = if i < n then some (decide (pos ≤ i + 1 ∧ i + 1 < pos + len))
    else none := by
  by_cases hi : i < n
  · simp [tags, hi]
  · simp [tags, hi]

@[simp] theorem length_tags (n pos len : Nat) : (tags n pos len).length = n := by
  simp [tags]

/-- The tags of a section; a deleted one has none. -/
def Sect.tags (n : Nat) (x : Sect) : List Bool :=
  Vstr.tags n x.pos (if x.pos = 0 then 0 else x.len)

/-- The section is deleted, or it is a range of a text of `n` bytes that is not empty. -/
def Sect.Ok (n : Nat) (x : Sect) : Prop := x.pos = 0 ∨ (0 < x.len ∧ x.pos + x.len ≤ n + 1)

/-- Whether the bytes on both sides of an insertion have the tag. -/
def between (ts : List Bool) (pos : Nat) : Bool :=
  decide (1 ≤ pos) && ts[pos - 1]?.getD false && ts[pos]?.getD false

theorem getElem?_deleteRange {α : Type} (l : List α) (pos len i : Nat) (h : pos - 1 ≤ l.length) :
    (deleteRange l pos len)[i]? = if i < pos - 1 then l[i]? else l[i + len]? := by
  rw [deleteRange]
  split
  · rename_i hi
    rw [List.getElem?_append_left (by rw [List.length_take]; omega), List.getElem?_take_of_lt hi]
  · rename_i hi
    rw [List.getElem?_append_right (by rw [List.length_take]; omega), List.getElem?_drop,
      List.length_take]
    congr 1
    omega

theorem getElem?_insertAfter_replicate {α : Type} (l : List α) (pos len i : Nat) (a : α)
    (h : pos ≤ l.length) :
    (insertAfter l pos (List.replicate len a))[i]? =
      if i < pos then l[i]? else if i < pos + len then some a else l[i - len]? := by
  have hl : (l.take pos).length = pos := by
    rw [List.length_take]
    omega
  rw [insertAfter, List.append_assoc]
  split
  · rename_i hi
    rw [List.getElem?_append_left (by omega), List.getElem?_take_of_lt hi]
  · rw [List.getElem?_append_right (by omega), hl]
    split
    · rw [List.getElem?_append_left (by rw [List.length_replicate]; omega),
        List.getElem?_replicate, if_pos (by omega)]
    · rw [List.getElem?_append_right (by rw [List.length_replicate]; omega),
        List.length_replicate, List.getElem?_drop]
      congr 1
      omega

/-- Whether an insertion is inside a section. -/
theorem between_tags (hpos : pos ≤ n) (p l : Nat) (hl : p + l ≤ n + 1) :
    between (tags n p l) pos = decide (1 ≤ pos ∧ p ≤ pos ∧ pos + 1 < p + l) := by
  unfold between
  rw [getElem?_tags, getElem?_tags]
  by_cases h1 : 1 ≤ pos
  · rw [if_pos (by omega), show pos - 1 + 1 = pos by omega]
    by_cases h2 : pos < n
    · rw [if_pos h2]
      simp only [h1, decide_true, Bool.true_and, Option.getD_some, true_and, ← Bool.decide_and]
      congr 1
      apply propext
      omega
    · rw [if_neg h2]
      simp only [Option.getD_none, Bool.and_false]
      symm
      rw [decide_eq_false_iff_not]
      omega
  · simp [h1]

/-- An insertion before a range shifts it, one inside it makes it longer, and one behind it
leaves it. -/
theorem insertAfter_tags (hpos : pos ≤ n) {p l : Nat} (hl : p + l ≤ n + 1) (hp : 1 ≤ p ∨ l = 0)
    (len : Nat) :
    insertAfter (tags n p l) pos (List.replicate len (between (tags n p l) pos)) =
      if pos < p then tags (n + len) (p + len) l
      else if pos + 1 < p + l ∧ 1 ≤ pos then tags (n + len) p (l + len)
      else tags (n + len) p l := by
  rw [between_tags hpos p l hl]
  apply List.ext_getElem?
  intro i
  rw [getElem?_insertAfter_replicate _ _ _ _ _ (by rw [length_tags]; exact hpos), getElem?_tags,
    getElem?_tags]
  split_ifs <;> rw [getElem?_tags] <;> split_ifs <;>
    first
    | rfl
    | (exfalso; omega)
    | (rw [Option.some.injEq, decide_eq_decide]; omega)

/-- What a deletion leaves of a range. -/
theorem deleteRange_tags (h1 : 1 ≤ pos) (h2 : pos + len ≤ n + 1) (p l : Nat) :
    deleteRange (tags n p l) pos len =
      if pos ≤ p then
        if len ≤ p - pos then tags (n - len) (p - len) l
        else tags (n - len) pos (l - (len - (p - pos)))
      else if pos < p + l then
        tags (n - len) p (max (pos - p) (l - len))
      else tags (n - len) p l := by
  apply List.ext_getElem?
  intro i
  rw [getElem?_deleteRange _ _ _ _ (by rw [length_tags]; omega), getElem?_tags, getElem?_tags]
  split_ifs <;> rw [getElem?_tags] <;> split_ifs <;>
    first
    | rfl
    | (exfalso; omega)
    | (rw [Option.some.injEq, decide_eq_decide]; omega)

theorem Sect.tags_live (h : x.pos ≠ 0) (n : Nat) : x.tags n = Vstr.tags n x.pos x.len := by
  rw [Sect.tags, if_neg h]

theorem Sect.tags_dead (h : x.pos = 0) (n : Nat) : x.tags n = Vstr.tags n 0 0 := by
  rw [Sect.tags, if_pos h, h]

/-- A range of no bytes has no tags. -/
theorem tags_zero (n p p' : Nat) : tags n p 0 = tags n p' 0 := by
  apply List.ext_getElem?
  intro i
  rw [getElem?_tags, getElem?_tags]
  split
  · rw [Option.some.injEq, decide_eq_decide]
    omega
  · rfl

/-- The callback of an insertion. -/
theorem sectAdd_tags (ok : x.Ok n) (hpos : pos ≤ n) (len : Nat) :
    (sectAdd pos len x).Ok (n + len) ∧ (sectAdd pos len x).tags (n + len) =
      insertAfter (x.tags n) pos (List.replicate len (between (x.tags n) pos)) := by
  by_cases h0 : x.pos = 0
  · have e : sectAdd pos len x = x := if_neg fun hl => hl.1 h0
    rw [e, Sect.tags_dead h0, Sect.tags_dead h0, insertAfter_tags hpos (by omega) (.inr rfl),
      if_neg (by omega), if_neg (by omega)]
    exact ⟨.inl h0, rfl⟩
  · obtain ⟨hlen, hle⟩ := ok.resolve_left h0
    rw [Sect.tags_live h0, insertAfter_tags hpos hle (.inl (by omega))]
    unfold sectAdd
    rw [if_pos ⟨h0, by omega⟩]
    by_cases hp : pos < x.pos
    · rw [if_pos hp, if_pos hp]
      dsimp only
      rw [if_neg (by omega)]
      refine ⟨.inr ⟨hlen, ?_⟩, Sect.tags_live ?_ _⟩
      · dsimp only
        omega
      · dsimp only
        omega
    · rw [if_neg hp, if_neg hp]
      dsimp only
      by_cases hq : pos + 1 < x.pos + x.len ∧ 1 ≤ pos
      · rw [if_pos hq, if_pos (by omega)]
        refine ⟨.inr ⟨?_, ?_⟩, Sect.tags_live (x := ⟨x.pos, x.len + len⟩) h0 _⟩
        · dsimp only
          omega
        · dsimp only
          omega
      · rw [if_neg hq, if_neg (by omega)]
        exact ⟨.inr ⟨hlen, by omega⟩, Sect.tags_live h0 _⟩

/-- The callback of a deletion, for one section. -/
theorem sectDel_tags (ok : x.Ok n) (h1 : 1 ≤ pos) (h2 : pos + len ≤ n + 1) :
    (sectDel pos len x).2.Ok (n - len) ∧
      (sectDel pos len x).2.tags (n - len) = deleteRange (x.tags n) pos len := by
  by_cases h0 : x.pos = 0
  · have e : sectDel pos len x = (len, x) := if_neg fun hl => hl.1 h0
    rw [e]
    dsimp only
    rw [Sect.tags_dead h0, Sect.tags_dead h0, deleteRange_tags h1 h2,
      if_neg (by omega), if_neg (by omega)]
    exact ⟨.inl h0, rfl⟩
  · obtain ⟨hlen, hle⟩ := ok.resolve_left h0
    rw [Sect.tags_live h0, deleteRange_tags h1 h2]
    unfold sectDel
    rw [if_pos ⟨h0, by omega⟩]
    by_cases hp : pos ≤ x.pos
    · rw [if_pos hp, if_pos hp]
      dsimp only
      by_cases ht : len ≤ x.pos - pos
      · rw [if_pos ht, if_pos ht]
        refine ⟨.inr ⟨hlen, ?_⟩, Sect.tags_live ?_ _⟩
        · dsimp only
          omega
        · dsimp only
          omega
      · rw [if_neg ht, if_neg ht]
        by_cases hd : x.len ≤ len - (x.pos - pos)
        · rw [if_pos hd]
          refine ⟨.inl rfl, ?_⟩
          rw [Sect.tags_dead rfl, show x.len - (len - (x.pos - pos)) = 0 by omega]
          exact tags_zero _ _ _
        · rw [if_neg hd]
          refine ⟨.inr ⟨?_, ?_⟩, ?_⟩
          · dsimp only
            omega
          · dsimp only
            omega
          · rw [Sect.tags_live (by dsimp only; omega)]
            dsimp only
            rw [show x.pos - (x.pos - pos) = pos by omega]
    · rw [if_neg hp, if_neg hp]
      by_cases hq : pos < x.pos + x.len
      · rw [if_pos hq, if_pos (by omega)]
        dsimp only
        by_cases hd : x.len - (pos - x.pos) ≤ len
        · rw [if_pos hd]
          refine ⟨.inr ⟨?_, ?_⟩, ?_⟩
          · dsimp only
            omega
          · dsimp only
            omega
          · rw [show max (pos - x.pos) (x.len - len) = pos - x.pos by omega]
            exact Sect.tags_live (x := ⟨x.pos, pos - x.pos⟩) h0 _
        · rw [if_neg hd]
          refine ⟨.inr ⟨?_, ?_⟩, ?_⟩
          · dsimp only
            omega
          · dsimp only
            omega
          · rw [show max (pos - x.pos) (x.len - len) = x.len - len by omega]
            exact Sect.tags_live (x := ⟨x.pos, x.len - len⟩) h0 _
      · rw [if_neg hq, if_neg (by omega)]
        exact ⟨.inr ⟨hlen, by dsimp only; omega⟩, Sect.tags_live h0 _⟩

/-! ## All sections of a base -/

/-- No section that begins behind the first byte of a deletion, and inside it, comes before
one that goes on to the deletion or behind it. -/
def Untangled (pos len : Nat) (xs : List Sect) : Prop :=
  xs.Pairwise fun x y => x.Live → pos < x.pos → x.pos < pos + len → y.Live → y.pos + y.len ≤ pos

instance (pos len : Nat) (xs : List Sect) : Decidable (Untangled pos len xs) :=
  inferInstanceAs (Decidable (List.Pairwise _ xs))

/-- A section that ends before a deletion is left, whatever is deleted. -/
theorem sectDel_before (h : x.Live → x.pos + x.len ≤ pos) (len : Nat) :
    sectDel pos len x = (len, x) := by
  unfold sectDel
  split
  · rename_i hl
    have := h hl
    have := hl.2
    rw [if_neg (by omega), if_neg (by omega)]
  · rfl

/-- The length that is left to delete changes in one case only. -/
theorem sectDel_len (pos len : Nat) (x : Sect) :
    (sectDel pos len x).1 = len ∨ (x.Live ∧ pos < x.pos ∧ x.pos < pos + len) := by
  unfold sectDel
  split
  · rename_i hl
    split
    · dsimp only
      split
      · exact .inl rfl
      · by_cases hp : x.pos = pos
        · refine .inl ?_
          split
          · dsimp only
            omega
          · dsimp only
            omega
        · exact .inr ⟨hl, by omega, by omega⟩
    · split
      · dsimp only
        split <;> exact .inl rfl
      · exact .inl rfl
  · exact .inl rfl

/-- What the loops over sections that are not tangled do: either the length is still the
whole one, or no section is left that depends on it. -/
theorem sectsDel_eq {len' : Nat} (xs ys : List Sect) (h : Untangled pos len (xs ++ ys))
    (hl : len' = len ∨ ∀ y ∈ xs ++ ys, y.Live → y.pos + y.len ≤ pos) :
    (sectsDel pos len' xs).2 = xs.map (fun x => (sectDel pos len x).2) ∧
      ((sectsDel pos len' xs).1 = len ∨ ∀ y ∈ ys, y.Live → y.pos + y.len ≤ pos) := by
  induction xs generalizing len' with
  | nil => exact ⟨rfl, hl⟩
  | cons x xs ih =>
    rw [List.cons_append] at h hl
    obtain ⟨hx, hxs⟩ := List.pairwise_cons.mp h
    have hstep : (sectDel pos len' x).2 = (sectDel pos len x).2 ∧
        ((sectDel pos len' x).1 = len ∨ ∀ y ∈ xs ++ ys, y.Live → y.pos + y.len ≤ pos) := by
      rcases hl with rfl | hl
      · refine ⟨rfl, ?_⟩
        rcases sectDel_len pos len' x with e | ⟨h1, h2, h3⟩
        · exact .inl e
        · exact .inr fun y hy hly => hx y hy h1 h2 h3 hly
      · have hb := hl x List.mem_cons_self
        rw [sectDel_before hb, sectDel_before hb]
        exact ⟨rfl, .inr fun y hy => hl y (List.mem_cons_of_mem _ hy)⟩
    obtain ⟨e, hrest⟩ := ih hxs hstep.2
    refine ⟨?_, hrest⟩
    rw [sectsDel, List.map_cons, ← e, ← hstep.1]

/-- Every list is updated section by section. -/
theorem updatesDel_eq {len' : Nat} {updates : List (List Sect)}
    (h : Untangled pos len updates.flatten)
    (hl : len' = len ∨ ∀ y ∈ updates.flatten, y.Live → y.pos + y.len ≤ pos) :
    updatesDel pos len' updates = updates.map (·.map fun x => (sectDel pos len x).2) := by
  induction updates generalizing len' with
  | nil => rfl
  | cons sects updates ih =>
    rw [List.flatten_cons] at h hl
    obtain ⟨e, hrest⟩ := sectsDel_eq sects updates.flatten h hl
    rw [updatesDel, List.map_cons, ih (List.pairwise_append.mp h).2.1 hrest, e]

/-! ## Edits of a tagged text -/

/-- Bytes with the tag of a section. -/
abbrev Tagged := List (Option UInt8 × Bool)

/-- Inserted bytes get the tag when they go in between two bytes that have it. -/
def Tagged.insert (text : Tagged) (pos : Nat) (bs : List (Option UInt8)) : Tagged :=
  insertAfter text pos (bs.map fun b => (b, between (text.map Prod.snd) pos))

/-- One insertion into a string, or one deletion. -/
inductive Edit where
  | insert (pos : Nat) (bs : List (Option UInt8))
  | delete (pos len : Nat)

namespace Edit

/-- The edit is one of a text of `n` bytes. -/
def InRange (n : Nat) : Edit → Prop
  | insert pos _ => pos ≤ n
  | delete pos len => 1 ≤ pos ∧ pos + len ≤ n + 1

/-- The text after the edit. -/
def apply (c : List (Option UInt8)) : Edit → List (Option UInt8)
  | insert pos bs => insertAfter c pos bs
  | delete pos len => deleteRange c pos len

/-- The tagged text after the edit. -/
def tagged (text : Tagged) : Edit → Tagged
  | insert pos bs => text.insert pos bs
  | delete pos len => deleteRange text pos len

/-- The number of bytes that the edit inserts or deletes. -/
def size : Edit → Nat
  | insert _ bs => bs.length
  | delete _ len => len

/-- The callback that the edit runs. -/
def update (updates : List (List Sect)) : Edit → List (List Sect)
  | insert pos bs => sectsUpdateCb pos bs.length .add updates
  | delete pos len => sectsUpdateCb pos len .del updates

/-- A deletion does not meet tangled sections. -/
def Untangled (updates : List (List Sect)) : Edit → Prop
  | insert _ _ => True
  | delete pos len => Vstr.Untangled pos len updates.flatten

end Edit

/-- Registered section lists, and the text of their string with the tag of one section. -/
structure Watch where
  /-- The section lists, in the order of their registration. -/
  updates : List (List Sect)
  /-- The tagged bytes. -/
  text : Tagged

/-- The section at an index of a list. -/
def Watch.sect (w : Watch) (i j : Nat) : Option Sect := w.updates[i]?.bind (·[j]?)

/-- The bytes of one section of a text are tagged. -/
def watch (c : List (Option UInt8)) (updates : List (List Sect)) (x : Sect) : Watch :=
  ⟨updates, c.zip (x.tags c.length)⟩

/-- An edit changes the text and runs the callback. -/
def Watch.step (w : Watch) (e : Edit) : Watch := ⟨e.update w.updates, e.tagged w.text⟩

/-- A sequence of edits, where no deletion meets tangled sections. -/
def EditRun : Watch → List Edit → Watch → Prop :=
  Run Watch.step fun w e => e.InRange w.text.length ∧ e.Untangled w.updates

theorem map_insertAfter {α β : Type} (f : α → β) (l xs : List α) (pos : Nat) :
    (insertAfter l pos xs).map f = insertAfter (l.map f) pos (xs.map f) := by
  simp only [insertAfter, List.map_append, List.map_take, List.map_drop]

theorem map_deleteRange {α β : Type} (f : α → β) (l : List α) (pos len : Nat) :
    (deleteRange l pos len).map f = deleteRange (l.map f) pos len := by
  simp only [deleteRange, List.map_append, List.map_take, List.map_drop]

/-- The bytes of a tagged text are edited as any text is. -/
theorem Edit.map_fst_tagged (text : Tagged) (e : Edit) :
    (e.tagged text).map Prod.fst = e.apply (text.map Prod.fst) := by
  cases e with
  | insert pos bs =>
    change (text.insert pos bs).map Prod.fst = insertAfter (text.map Prod.fst) pos bs
    rw [Tagged.insert, map_insertAfter, List.map_map]
    congr 1
    exact List.map_id _
  | delete pos len => exact map_deleteRange _ _ _ _

theorem Tagged.map_snd_insert (text : Tagged) (pos : Nat) (bs : List (Option UInt8)) :
    (text.insert pos bs).map Prod.snd = insertAfter (text.map Prod.snd) pos
      (List.replicate bs.length (between (text.map Prod.snd) pos)) := by
  rw [Tagged.insert, map_insertAfter, List.map_map]
  congr 1
  exact List.map_const

/-- A function is applied to every section of every list. -/
theorem bind_map_map {us : List (List Sect)} {i j : Nat} (f : Sect → Sect)
    (h : us[i]?.bind (·[j]?) = some x) : (us.map (·.map f))[i]?.bind (·[j]?) = some (f x) := by
  rw [List.getElem?_map]
  cases hi : us[i]? with
  | none =>
    rw [hi] at h
    cases h
  | some l =>
    rw [hi] at h
    change l[j]? = some x at h
    change (l.map f)[j]? = some (f x)
    rw [List.getElem?_map, h]
    rfl

/-- The section at an index is where the tags are. -/
def Follows (i j : Nat) (w : Watch) : Prop :=
  ∃ y, w.sect i j = some y ∧ y.Ok w.text.length ∧ w.text.map Prod.snd = y.tags w.text.length

/-- One edit. -/
theorem Follows.step {i j : Nat} {w : Watch} {e : Edit} (f : Follows i j w)
    (hr : e.InRange w.text.length) (hu : e.Untangled w.updates) : Follows i j (w.step e) := by
  obtain ⟨x, hx, ok, ht⟩ := f
  cases e with
  | insert pos bs =>
    have hl : (w.text.insert pos bs).length = w.text.length + bs.length := by
      rw [Tagged.insert, length_insertAfter, List.length_map]
    obtain ⟨ok', e⟩ := sectAdd_tags ok hr bs.length
    refine ⟨sectAdd pos bs.length x, bind_map_map _ hx, ?_, ?_⟩
    · change (sectAdd pos bs.length x).Ok (w.text.insert pos bs).length
      rwa [hl]
    · change (w.text.insert pos bs).map Prod.snd = Sect.tags (w.text.insert pos bs).length _
      rw [Tagged.map_snd_insert, ht, hl, e]
  | delete pos len =>
    have hl : (deleteRange w.text pos len).length = w.text.length - len := by
      have := hr.1
      have := hr.2
      rw [deleteRange, List.length_append, List.length_take, List.length_drop]
      omega
    obtain ⟨ok', e⟩ := sectDel_tags ok hr.1 hr.2
    refine ⟨(sectDel pos len x).2, ?_, ?_, ?_⟩
    · change (updatesDel pos len w.updates)[i]?.bind (·[j]?) = _
      rw [updatesDel_eq hu (.inl rfl)]
      exact bind_map_map _ hx
    · change (sectDel pos len x).2.Ok (deleteRange w.text pos len).length
      rwa [hl]
    · change (deleteRange w.text pos len).map Prod.snd =
        Sect.tags (deleteRange w.text pos len).length _
      rw [map_deleteRange, ht, hl, e]

/-- A range with bytes has a tag. -/
theorem true_mem_tags_iff {p l : Nat} (hp : p ≠ 0) (hl : p + l ≤ n + 1) :
    true ∈ tags n p l ↔ 0 < l := by
  unfold tags
  simp only [List.mem_map, List.mem_range, decide_eq_true_eq]
  constructor
  · rintro ⟨i, -, hi⟩
    omega
  · intro h
    exact ⟨p - 1, by omega, by omega⟩

/-- A section is marked as deleted exactly when it has no tags. -/
theorem Sect.Ok.dead_iff (ok : x.Ok n) : x.pos = 0 ↔ true ∉ x.tags n := by
  by_cases h0 : x.pos = 0
  · rw [Sect.tags_dead h0]
    refine ⟨fun _ hm => ?_, fun _ => h0⟩
    unfold Vstr.tags at hm
    simp only [List.mem_map, decide_eq_true_eq] at hm
    obtain ⟨k, -, hk⟩ := hm
    omega
  · obtain ⟨hpos, hle⟩ := ok.resolve_left h0
    rw [Sect.tags_live h0, true_mem_tags_iff h0 hle]
    exact ⟨fun h => absurd h h0, fun h => absurd hpos h⟩

/-- Every section that holds something follows the text through every sequence of edits, as
long as no deletion meets tangled sections: it is the range of the bytes that are tagged, and
it is marked as deleted exactly when none is left. -/
theorem sects_follow {c : List (Option UInt8)} {updates : List (List Sect)} {w : Watch}
    {es : List Edit} {i j : Nat} (hx : updates[i]?.bind (·[j]?) = some x) (hl : x.Live)
    (hin : x.pos + x.len ≤ c.length + 1) (r : EditRun (watch c updates x) es w) :
    w.text.map Prod.fst = es.foldl Edit.apply c ∧
      ∃ y, w.sect i j = some y ∧ w.text.map Prod.snd = y.tags w.text.length ∧
        (y.pos = 0 ↔ true ∉ w.text.map Prod.snd) := by
  have hlen : c.length = (x.tags c.length).length := by rw [Sect.tags, length_tags]
  have htext : (watch c updates x).text.length = c.length := by
    change (c.zip (x.tags c.length)).length = c.length
    rw [List.length_zip, ← hlen, Nat.min_self]
  have f₀ : Follows i j (watch c updates x) := by
    refine ⟨x, hx, .inr ⟨?_, ?_⟩, ?_⟩
    · have := hl.2
      omega
    · rwa [htext]
    · rw [htext]
      exact List.map_snd_zip (Nat.le_of_eq hlen.symm)
  have f : Follows i j w := r.invariant _ f₀ fun w e f h => f.step h.1 h.2
  have hfst : w.text.map Prod.fst = es.foldl Edit.apply c := by
    clear f f₀
    induction r with
    | nil => exact List.map_fst_zip (Nat.le_of_eq hlen)
    | snoc r h ih =>
      rw [List.foldl_append, ← ih]
      exact Edit.map_fst_tagged _ _
  obtain ⟨y, hy, ok, ht⟩ := f
  refine ⟨hfst, y, hy, ht, ?_⟩
  rw [ht]
  exact ok.dead_iff

/-! ## The edit functions -/

/-- A string with registered section lists. -/
structure Tracked where
  /-- The string. -/
  st : St
  /-- The section lists. -/
  updates : List (List Sect)

/-- The edit that a call makes. -/
def Call.edit (h : Heap) : Call → Edit
  | addBuf pos buffer len => .insert pos ((read h.mem buffer len).map some)
  | addNon pos len => .insert pos (List.replicate len none)
  | addRepChr pos chr len => .insert pos (List.replicate len (some chr))
  | del pos len => .delete pos len
  | externAddBuf pos buffer len => .insert pos ((read h.mem buffer len).map some)
  | externAddRepChr pos chr len => .insert pos (List.replicate len (some chr))
  | externDel pos len => .delete pos len

/-- A call on a string with sections: once it has done something, its callback runs. A string
that has sections has caches that are not only internal, so no call takes the paths that
leave out the callbacks. -/
def Tracked.step (t : Tracked) (c : Call) : Tracked :=
  let e := c.edit t.st.heap
  let r := c.run t.st
  ⟨r.2, if r.1 ∧ e.size ≠ 0 then e.update t.updates else t.updates⟩

/-- A run of calls on a string with sections. -/
def TrackedRun (E : Env) (P : Own) : Tracked → List Call → Tracked → Prop :=
  Run Tracked.step fun t c => c.InRange t.st.base ∧ c.Apart E P ∧
    (c.edit t.st.heap).Untangled t.updates

theorem Call.apply_edit (h : Heap) (c : Call) (l : List (Option UInt8)) :
    (c.edit h).apply l = c.meaning h l := by
  cases c <;> rfl

theorem Edit.apply_of_size {e : Edit} (h : e.size = 0) (l : List (Option UInt8)) :
    e.apply l = l := by
  cases e with
  | insert pos bs =>
    obtain rfl : bs = [] := List.length_eq_zero_iff.mp h
    exact insertAfter_nil_right l pos
  | delete pos len =>
    obtain rfl : len = 0 := h
    exact deleteRange_zero l pos

theorem Call.InRange.edit {b : Base} {c : Call} (hr : c.InRange b) (h : Heap) :
    (c.edit h).InRange b.len := by
  cases c with
  | addBuf pos a len => exact hr
  | addNon pos len => exact hr
  | addRepChr pos chr len => exact hr
  | del pos len => exact hr
  | externAddBuf pos a len => exact hr.1
  | externAddRepChr pos chr len => exact hr.1
  | externDel pos len => exact ⟨hr.1, hr.2.1⟩

/-- Every run of the edit functions is a sequence of edits of the content, with the same
sections. -/
theorem TrackedRun.edits {t t' : Tracked} {cs : List Call} (u : Usable E P t.st)
    (hf : Fits t.st.base.nodes) (r : TrackedRun E P t cs t') (x : Sect) :
    ∃ es w, EditRun (watch (content t.st) t.updates x) es w ∧ w.updates = t'.updates ∧
      w.text.map Prod.fst = content t'.st := by
  have h : ∃ P', Usable E P' t'.st ∧ Frame E P t.st.heap P' t'.st.heap ∧ Fits t'.st.base.nodes ∧
      ∃ es w, EditRun (watch (content t.st) t.updates x) es w ∧ w.updates = t'.updates ∧
        w.text.map Prod.fst = content t'.st := by
    apply r.invariant fun t' => ∃ P', Usable E P' t'.st ∧ Frame E P t.st.heap P' t'.st.heap ∧
      Fits t'.st.base.nodes ∧ ∃ es w, EditRun (watch (content t.st) t.updates x) es w ∧
        w.updates = t'.updates ∧ w.text.map Prod.fst = content t'.st
    · refine ⟨P, u, Frame.refl _ _ _, hf, [], _, .nil, rfl, List.map_fst_zip ?_⟩
      exact Nat.le_of_eq (by rw [Sect.tags, length_tags])
    · rintro t₁ c ⟨P₁, u₁, fr₁, hf₁, es, w, rw, hw, hc⟩ ⟨hr, ha, hu⟩
      have k := c.keeps u₁ hf₁ hr (ha.frame fr₁)
      obtain ⟨P₂, u₂, fr₂⟩ := k.usable
      refine ⟨P₂, u₂, fr₁.trans fr₂, k.fits, ?_⟩
      by_cases hs : (c.run t₁.st).1 = true ∧ (c.edit t₁.st.heap).size ≠ 0
      · have e : t₁.step c = ⟨(c.run t₁.st).2, (c.edit t₁.st.heap).update t₁.updates⟩ := by
          simp [Tracked.step, hs]
        have hlen : w.text.length = t₁.st.base.len := by
          rw [← length_content u₁.sound.valid, ← hc, List.length_map]
        rw [e]
        refine ⟨es ++ [c.edit t₁.st.heap], _, rw.snoc ⟨?_, ?_⟩, ?_, ?_⟩
        · rw [hlen]
          exact hr.edit _
        · rwa [hw]
        · change (c.edit t₁.st.heap).update w.updates = (c.edit t₁.st.heap).update t₁.updates
          rw [hw]
        · exact (Edit.map_fst_tagged _ _).trans (by rw [hc, c.apply_edit, k.success hs.1])
      · have e : t₁.step c = ⟨(c.run t₁.st).2, t₁.updates⟩ := by
          simp only [Tracked.step, if_neg hs]
        rw [e]
        refine ⟨es, w, rw, hw, hc.trans ?_⟩
        cases h₁ : (c.run t₁.st).1 with
        | false => exact (k.failure h₁).symm
        | true =>
          have h0 : (c.edit t₁.st.heap).size = 0 := by
            by_contra hne
            exact hs ⟨h₁, hne⟩
          exact (Edit.apply_of_size h0 _).symm.trans ((c.apply_edit _ _).trans (k.success h₁).symm)
  obtain ⟨-, -, -, -, h⟩ := h
  exact h

/-! ## Examples -/

/-- The text `abcdefgh`. -/
def eight : List (Option UInt8) := [97, 98, 99, 100, 101, 102, 103, 104].map some

/-- Deleting `bc` shifts the section of `fg`. -/
theorem sects_follow_eight : ∃ y,
    ((watch eight [[⟨6, 2⟩], [⟨3, 3⟩]] ⟨6, 2⟩).step (.delete 2 2)).sect 0 0 = some y ∧
      [false, false, false, true, true, false] = y.tags 6 := by
  have r : EditRun (watch eight [[⟨6, 2⟩], [⟨3, 3⟩]] ⟨6, 2⟩) [.delete 2 2]
      ((watch eight [[⟨6, 2⟩], [⟨3, 3⟩]] ⟨6, 2⟩).step (.delete 2 2)) :=
    Run.single ⟨show 1 ≤ 2 ∧ 2 + 2 ≤ 8 + 1 by decide,
      show Untangled 2 2 [⟨6, 2⟩, ⟨3, 3⟩] by decide⟩
  have hx : ([[⟨6, 2⟩], [⟨3, 3⟩]] : List (List Sect))[0]?.bind (·[0]?) = some ⟨6, 2⟩ := rfl
  obtain ⟨-, y, hy, ht, -⟩ := sects_follow hx (by decide) (by decide) r
  exact ⟨y, hy, ht⟩

/-- Behind a section that begins inside the deletion, the section of `fg` is left at `gh`. -/
theorem sects_tangled :
    ((watch eight [[⟨3, 3⟩, ⟨6, 2⟩]] ⟨6, 2⟩).step (.delete 2 2)).sect 0 1 = some ⟨5, 2⟩ ∧
    ¬ ∃ y, ((watch eight [[⟨3, 3⟩, ⟨6, 2⟩]] ⟨6, 2⟩).step (.delete 2 2)).sect 0 1 = some y ∧
      ((watch eight [[⟨3, 3⟩, ⟨6, 2⟩]] ⟨6, 2⟩).step (.delete 2 2)).text.map Prod.snd =
        y.tags 6 := by
  have hy : ((watch eight [[⟨3, 3⟩, ⟨6, 2⟩]] ⟨6, 2⟩).step (.delete 2 2)).sect 0 1 =
      some ⟨5, 2⟩ := by decide
  refine ⟨hy, ?_⟩
  rintro ⟨y, h, ht⟩
  obtain rfl := Option.some.inj (hy.symm.trans h)
  exact absurd ht (by decide)

end Vstr
