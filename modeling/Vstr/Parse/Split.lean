import Vstr.Model.Ip
import Vstr.Model.IpFmt
import Vstr.Parse.Srch

/-!
# The sections of an address

What `vstr_split_buf` does at a field, at a null field and at the end of a slice, with the
flags that `vstr_parse_ipv6` gives it. The fields of a slice are then its sections.
-/

namespace Vstr

open Memory Splice Query

variable {E : Env} {P : Own} {s : St} {pos len : Nat} {xs rest : List (Option UInt8)}
  {sep : UInt8} {limit origPos fuel splitPos : Nat} {a : SplitAt} {g : List UInt8}
  {gs : List (List UInt8)} {v : Option (Nat × Sects)}

/-- A null field, and those behind it. -/
theorem splitNulls_succ (fl : SplitFlags) (null : Bool) (width k : Nat) (a : SplitAt) :
    splitNulls fl null width (k + 1) a =
      (if null then splitAdd fl a.pos 0 a else pure (none, a)) >>= fun r => match r with
        | (some ret, a) => pure (some ret, a)
        | (none, a) => splitNulls fl null width k
          { a with pos := a.pos + width, len := sizeSub a.len width } := by
  rw [splitNulls]
  cases null <;> rfl

/-- `vstr_srch_buf_fwd` for one character. -/
theorem Window.srchBuf (w : Window E P s pos len xs) (c : UInt8) :
    Yields Reads (srchBufFwd pos len [c]) s (srchOf c pos xs) := by
  unfold srchBufFwd
  split
  · rename_i h
    have hx := w.length
    simp only [List.length_singleton] at h
    obtain rfl : xs = [] := List.length_eq_zero_iff.mp (by omega)
    exact .pure _ _
  · exact w.srch c

/-- The slice behind a first part. -/
theorem Window.behind (as : List (Option UInt8)) (w : Window E P s pos len (as ++ xs)) :
    Window E P s (pos + as.length) (len - as.length) xs := by
  have hl := w.length
  rw [List.length_append] at hl
  have h := w.drop (show as.length ≤ len by omega)
  rwa [List.drop_left] at h

/-- The first part of a slice. -/
theorem Window.front (as : List (Option UInt8)) (w : Window E P s pos len (as ++ xs)) :
    Window E P s pos as.length as := by
  have hl := w.length
  rw [List.length_append] at hl
  have h := w.take (show as.length ≤ len by omega)
  rwa [List.take_left] at h

/-- One more section. -/
def Sects.push (x : Sects) (pos len : Nat) : Sects := { x with ptr := x.ptr ++ [⟨pos, len⟩] }

theorem sectsAdd_yields (s : St) {x : Sects} (pos len : Nat) (h : x.ptr.length < x.sz) :
    Yields Reads (sectsAdd pos len x) s (true, x.push pos len) := by
  have e : (sectsAdd pos len x).run s = ((true, x.push pos len), s) := by
    change sectsAdd pos len x s = _
    rw [sectsAdd, if_neg (by omega)]
    rfl
  refine ⟨?_, ?_⟩
  · rw [e]
  · rw [e]
    exact Std.Refl.refl s

theorem splitAdd_yields (s : St) (fl : SplitFlags) (pos len : Nat)
    (h : a.sects.ptr.length < a.sects.sz) :
    Yields Reads (splitAdd fl pos len a) s
      (none, { a with added := a.added + 1, sects := a.sects.push pos len }) := by
  unfold splitAdd
  refine (sectsAdd_yields s pos len h).bind fun t _ => ?_
  exact .pure _ _

/-! ## One turn of the loop -/

/-- A turn that another one follows. -/
theorem splitLoop_next {seps : Seps} {fl : SplitFlags} {p : Nat} {a' : SplitAt}
    (h : Yields Reads (splitTurn seps fl limit origPos splitPos a) s (.next p a'))
    (k : ∀ t, Reads s t → Yields Reads (splitLoop seps fl limit origPos fuel p a') t v) :
    Yields Reads (splitLoop seps fl limit origPos (fuel + 1) splitPos a) s v :=
  h.bind k

/-- A turn that is the last one. -/
theorem splitLoop_done {seps : Seps} {fl : SplitFlags} {r : Nat × Sects}
    (h : Yields Reads (splitTurn seps fl limit origPos splitPos a) s (.done r)) :
    Yields Reads (splitLoop seps fl limit origPos (fuel + 1) splitPos a) s (some r) :=
  h.bind fun _ _ => .pure _ _

/-- A split with a section more, behind the section and a separator. -/
def SplitAt.next (a : SplitAt) (len : Nat) : SplitAt where
  pos := a.pos + (len + 1)
  len := a.len - (len + 1)
  added := a.added + 1
  sects := a.sects.push a.pos len

/-- A field and the separator behind it. -/
theorem split_field (w : Window E P s a.pos a.len (g.map some ++ some sep :: rest))
    (hg : g ≠ []) (hsep : sep ∉ g) (horig : origPos ≤ a.pos) (hlim : a.added < limit)
    (hroom : a.sects.ptr.length < a.sects.sz)
    (k : ∀ t, Reads s t → Yields Reads
      (splitBufLoop ipv6SplitFlags [sep] limit origPos fuel (a.pos + g.length) (a.next g.length))
      t v) :
    Yields Reads (splitBufLoop ipv6SplitFlags [sep] limit origPos (fuel + 1) splitPos a) s v := by
  have hl := w.length
  simp only [List.length_append, List.length_map, List.length_cons] at hl
  have hpos := w.one_le
  have hlen : 0 < g.length := List.length_pos_iff.mpr hg
  have hno : some sep ∉ g.map some := by
    intro h
    obtain ⟨c, hc, e⟩ := List.mem_map.mp h
    exact hsep (Option.some.inj e ▸ hc)
  have hsrch := w.srchBuf sep
  rw [srchOf_append _ _ hno, srchOf_cons, List.length_map] at hsrch
  refine splitLoop_next ?_ k
  rw [splitTurn, if_neg (by
    rintro (h | ⟨-, h⟩)
    · omega
    · exact h hlim)]
  refine hsrch.bind fun t r => ?_
  rw [if_neg (by omega), if_neg (by omega)]
  have hdef : Yields Reads (splitHdlDef ipv6SplitFlags (a.pos + g.length) [sep].length a) t
      (none, a.next g.length) := by
    unfold splitHdlDef
    dsimp only
    rw [show a.pos + g.length - a.pos = g.length by omega]
    refine (splitAdd_yields t _ _ _ hroom).bind fun t' r' => ?_
    have e : sizeSub a.len (g.length + 1) = a.len - (g.length + 1) := if_pos (by omega)
    dsimp only [List.length_singleton]
    rw [e]
    exact .pure _ _
  exact hdef.bind fun t' r' => .pure _ _

/-- The last field. -/
theorem split_last (w : Window E P s a.pos a.len (g.map some)) (hg : g ≠ []) (hsep : sep ∉ g)
    (hlim : a.added < limit) (hroom : a.sects.ptr.length < a.sects.sz) :
    Yields Reads (splitBufLoop ipv6SplitFlags [sep] limit origPos (fuel + 1) splitPos a) s
      (some (a.added + 1, a.sects.push a.pos g.length)) := by
  have hl := w.length
  rw [List.length_map] at hl
  have hlen : 0 < g.length := List.length_pos_iff.mpr hg
  have hno : some sep ∉ g.map some := by
    intro h
    obtain ⟨c, hc, e⟩ := List.mem_map.mp h
    exact hsep (Option.some.inj e ▸ hc)
  have hsrch := w.srchBuf sep
  rw [srchOf_none _ hno] at hsrch
  refine splitLoop_done ?_
  rw [splitTurn, if_neg (by
    rintro (h | ⟨-, h⟩)
    · omega
    · exact h hlim)]
  refine hsrch.bind fun t r => ?_
  rw [if_pos rfl]
  have hend : Yields Reads (splitHdlEnd ipv6SplitFlags limit 0 a) t
      (a.added + 1, a.sects.push a.pos g.length) := by
    unfold splitHdlEnd splitLast
    rw [if_pos (show a.len ≠ 0 by omega), if_pos (by simp)]
    refine (splitAdd_yields t _ _ _ hroom).bind fun t' r' => ?_
    dsimp only
    rw [hl]
    exact .pure _ _
  exact hend.bind fun t' r' => .pure _ _

/-- The list is full. -/
theorem split_full (s : St) (hlen : a.len ≠ 0) (hlim : a.added = limit) (h0 : limit ≠ 0)
    (hsplit : splitPos ≠ 0) :
    Yields Reads (splitBufLoop ipv6SplitFlags [sep] limit origPos (fuel + 1) splitPos a) s
      (some (a.added, a.sects)) := by
  refine splitLoop_done ?_
  rw [splitTurn, if_pos (.inr ⟨h0, by rw [hlim]; exact Nat.lt_irrefl _⟩)]
  have hend : Yields Reads (splitHdlEnd ipv6SplitFlags limit splitPos a) s
      (a.added, a.sects) := by
    unfold splitHdlEnd splitLast
    rw [if_pos hlen, if_neg (by simp [ipv6SplitFlags, hsplit])]
    exact .pure _ _
  exact hend.bind fun t' r' => .pure _ _

/-- The loop over separators. -/
theorem splitNullRun_yields {k : Nat}
    (w : Window E P s pos len ((List.replicate k sep).map some ++ rest))
    (hrest : rest.head? ≠ some (some sep)) (hfuel : len < fuel) {num : Nat} (hn : num < 2 ^ 32) :
    Yields Reads (splitNullRun (.bytes [sep]) fuel pos len num) s
      (some (decide (rest = []), (num + k) % 2 ^ 32)) := by
  induction k generalizing s fuel pos len num with
  | zero =>
    rw [Nat.add_zero, Nat.mod_eq_of_lt hn]
    obtain ⟨fuel, rfl⟩ : ∃ f, fuel = f + 1 := ⟨fuel - 1, by omega⟩
    rw [List.replicate_zero, List.map_nil, List.nil_append] at w
    have hl := w.length
    rw [splitNullRun]
    cases rest with
    | nil =>
      rw [if_neg (by rw [← hl]; simp [Buf.len])]
      rw [← hl]
      exact .pure _ _
    | cons x rest =>
      rw [List.length_cons] at hl
      have w1 : Window E P s pos [sep].length [x] := w.front [x]
      rw [if_pos (show len ≥ (Buf.bytes [sep]).len from (show 1 ≤ len by omega))]
      refine (w1.cmpEq Nat.one_pos).bind fun t r => ?_
      rw [if_neg (by
        rw [decide_eq_true_iff]
        intro e
        exact hrest (by rw [(List.cons.inj e).1]; rfl))]
      exact .pure _ _
  | succ k ih =>
    obtain ⟨fuel, rfl⟩ : ∃ f, fuel = f + 1 := ⟨fuel - 1, by omega⟩
    have hl := w.length
    simp only [List.length_append, List.length_map, List.length_replicate] at hl
    rw [List.replicate_succ, List.map_cons, List.cons_append] at w
    rw [splitNullRun, if_pos (show len ≥ (Buf.bytes [sep]).len from (show 1 ≤ len by omega))]
    have w1 : Window E P s pos [sep].length [some sep] := w.front [some sep]
    refine (w1.cmpEq Nat.one_pos).bind fun t r => ?_
    rw [if_pos (decide_eq_true (by rfl))]
    have w2 : Window E P t (pos + 1) (len - 1) ((List.replicate k sep).map some ++ rest) :=
      (w.behind [some sep]).reads r
    have h := ih w2 (show len - 1 < fuel by omega) (Nat.mod_lt (num + 1) (Nat.two_pow_pos 32))
    rwa [Nat.mod_add_mod, show num + 1 + k = num + (k + 1) by omega] at h

/-- `vstr__split_buf_null_end`. -/
theorem splitBufNullEnd_yields {k more : Nat}
    (w : Window E P s pos len ((List.replicate (k + 1) sep).map some ++ rest))
    (hrest : rest.head? ≠ some (some sep)) :
    Yields Reads (splitBufNullEnd more pos len (.bytes [sep])) s
      (some (decide (rest = []), (k + 1) % 2 ^ 32)) := by
  have hl := w.length
  simp only [List.length_append, List.length_map, List.length_replicate] at hl
  unfold splitBufNullEnd
  split
  · rename_i h
    change len = 1 at h
    obtain rfl : rest = [] := List.length_eq_zero_iff.mp (by omega)
    obtain rfl : k = 0 := by omega
    exact .pure _ _
  · rw [List.replicate_succ, List.map_cons, List.cons_append] at w
    have w2 : Window E P s (pos + 1) (len - 1) ((List.replicate k sep).map some ++ rest) :=
      w.behind [some sep]
    have h := splitNullRun_yields w2 hrest (show len - 1 < len + 1 + more by omega)
      (show 1 < 2 ^ 32 by decide)
    rwa [Nat.add_comm 1 k] at h

/-- Separators that are no sections. -/
theorem splitNulls_skip (s : St) (fl : SplitFlags) {k : Nat} (hk : k ≤ a.len) :
    Yields Reads (splitNulls fl false 1 k a) s
      (none, { a with pos := a.pos + k, len := a.len - k }) := by
  induction k generalizing a s with
  | zero => exact .pure _ _
  | succ k ih =>
    rw [splitNulls]
    refine (Yields.pure s (none, a)).bind fun t r => ?_
    dsimp only
    have e : sizeSub a.len 1 = a.len - 1 := if_pos (by omega)
    have h := ih t (a := { a with pos := a.pos + 1, len := a.len - 1 })
      (show k ≤ a.len - 1 by omega)
    dsimp only at h
    rw [e]
    rwa [show a.pos + 1 + k = a.pos + (k + 1) by omega,
      show a.len - 1 - k = a.len - (k + 1) by omega] at h

/-- A null field. -/
theorem split_null (w : Window E P s a.pos a.len (some sep :: rest)) (hne : rest ≠ [])
    (hrest : rest.head? ≠ some (some sep)) (horig : origPos < a.pos) (hlim : a.added < limit)
    (hroom : a.sects.ptr.length < a.sects.sz)
    (k : ∀ t, Reads s t → Yields Reads
      (splitBufLoop ipv6SplitFlags [sep] limit origPos fuel a.pos (a.next 0)) t v) :
    Yields Reads (splitBufLoop ipv6SplitFlags [sep] limit origPos (fuel + 1) splitPos a) s v := by
  have hl := w.length
  rw [List.length_cons] at hl
  have hpos := w.one_le
  have hsrch := w.srchBuf sep
  rw [srchOf_cons] at hsrch
  refine splitLoop_next ?_ k
  rw [splitTurn, if_neg (by
    rintro (h | ⟨-, h⟩)
    · omega
    · exact h hlim)]
  refine hsrch.bind fun t r => ?_
  rw [if_neg (by omega), if_pos (.inr rfl)]
  refine (splitBufNullEnd_yields (k := 0) (w.reads r) hrest).bind fun t' r' => ?_
  rw [decide_eq_false hne]
  have hcount : splitCount ipv6SplitFlags limit 1 a.added = 1 := by
    unfold splitCount
    split
    · rename_i h
      have h2 := h.2
      unfold uintSub at h2 ⊢
      simp only [ipv6SplitFlags, Bool.false_eq_true, if_false, Nat.zero_le, if_true,
        Nat.sub_zero] at h2 ⊢
      rw [if_pos (by omega)] at h2 ⊢
      omega
    · rfl
  have hnulls : Yields Reads (splitNulls ipv6SplitFlags
      (if a.pos = origPos then ipv6SplitFlags.begNull else ipv6SplitFlags.midNull) 1
      (splitCount ipv6SplitFlags limit 1 a.added) a) t' (none, a.next 0) := by
    rw [hcount, if_neg (by omega), splitNulls]
    refine (splitAdd_yields t' _ _ _ hroom).bind fun t'' r'' => ?_
    have e : sizeSub a.len 1 = a.len - 1 := if_pos (by omega)
    dsimp only
    rw [e]
    exact .pure _ _
  exact hnulls.bind fun t'' r'' => .pure _ _

/-- Two separators at the beginning. -/
theorem split_lead (w : Window E P s a.pos a.len (some sep :: some sep :: rest)) (hne : rest ≠ [])
    (hrest : rest.head? ≠ some (some sep)) (hlim : a.added + 2 < limit)
    (k : ∀ t, Reads s t → Yields Reads
      (splitBufLoop ipv6SplitFlags [sep] limit a.pos fuel a.pos
        { a with pos := a.pos + 2, len := a.len - 2 }) t v) :
    Yields Reads (splitBufLoop ipv6SplitFlags [sep] limit a.pos (fuel + 1) splitPos a) s v := by
  have hl := w.length
  simp only [List.length_cons] at hl
  have hpos := w.one_le
  have hsrch := w.srchBuf sep
  rw [srchOf_cons] at hsrch
  refine splitLoop_next ?_ k
  rw [splitTurn, if_neg (by
    rintro (h | ⟨-, h⟩)
    · omega
    · exact h (Nat.lt_of_le_of_lt (Nat.le_add_right _ 2) hlim))]
  refine hsrch.bind fun t r => ?_
  rw [if_neg (by omega), if_pos (.inr rfl)]
  refine (splitBufNullEnd_yields (k := 1) (w.reads r) hrest).bind fun t' r' => ?_
  rw [decide_eq_false hne]
  have hcount : splitCount ipv6SplitFlags limit 2 a.added = 2 := by
    have e : uintSub limit a.added = limit - a.added := if_pos (by omega)
    rw [splitCount, if_neg (by rw [e]; omega)]
  have hnulls : Yields Reads (splitNulls ipv6SplitFlags
      (if a.pos = a.pos then ipv6SplitFlags.begNull else ipv6SplitFlags.midNull) 1
      (splitCount ipv6SplitFlags limit 2 a.added) a) t'
      (none, { a with pos := a.pos + 2, len := a.len - 2 }) := by
    rw [hcount, if_pos rfl]
    exact splitNulls_skip t' _ (show 2 ≤ a.len by omega)
  exact hnulls.bind fun t'' r'' => .pure _ _

/-- A slice that ends with a null field. -/
theorem split_null_end (w : Window E P s a.pos a.len [some sep]) (horig : origPos < a.pos)
    (hlim : a.added < limit) :
    Yields Reads (splitBufLoop ipv6SplitFlags [sep] limit origPos (fuel + 1) splitPos a) s
      (some (a.added, a.sects)) := by
  have hl := w.length
  rw [List.length_singleton] at hl
  have hpos := w.one_le
  have hsrch := w.srchBuf sep
  rw [srchOf_cons] at hsrch
  refine splitLoop_done ?_
  rw [splitTurn, if_neg (by
    rintro (h | ⟨-, h⟩)
    · omega
    · exact h hlim)]
  refine hsrch.bind fun t r => ?_
  rw [if_neg (by omega), if_pos (.inr rfl)]
  have wt : Window E P t a.pos a.len ((List.replicate (0 + 1) sep).map some ++ []) := w.reads r
  have hend : Yields Reads (splitBufNullEnd 0 a.pos a.len (.bytes [sep])) t (some (true, 1)) :=
    splitBufNullEnd_yields wt (by simp)
  refine hend.bind fun t' r' => ?_
  dsimp only
  rw [if_neg (by omega)]
  have hnull : Yields Reads (splitHdlNullEnd ipv6SplitFlags 1 limit 1 a) t'
      (a.added, a.sects) := by
    unfold splitHdlNullEnd
    refine (Yields.pure t' (none, a)).bind fun t'' r'' => ?_
    unfold splitLast
    dsimp only
    rw [if_neg (by simp [ipv6SplitFlags])]
    exact .pure _ _
  exact hnull.bind fun t'' r'' => .pure _ _

/-- A slice that is a null field. -/
theorem split_null_only (w : Window E P s a.pos a.len [some sep, some sep])
    (hlim : a.added < limit) :
    Yields Reads (splitBufLoop ipv6SplitFlags [sep] limit a.pos (fuel + 1) splitPos a) s
      (some (0, a.sects)) := by
  have hl := w.length
  simp only [List.length_cons, List.length_nil] at hl
  have hpos := w.one_le
  have hsrch := w.srchBuf sep
  rw [srchOf_cons] at hsrch
  refine splitLoop_done ?_
  rw [splitTurn, if_neg (by
    rintro (h | ⟨-, h⟩)
    · omega
    · exact h hlim)]
  refine hsrch.bind fun t r => ?_
  rw [if_neg (by omega), if_pos (.inr rfl)]
  have wt : Window E P t a.pos a.len ((List.replicate (1 + 1) sep).map some ++ []) := w.reads r
  have hend : Yields Reads (splitBufNullEnd 0 a.pos a.len (.bytes [sep])) t (some (true, 2)) :=
    splitBufNullEnd_yields wt (by simp)
  refine hend.bind fun t' r' => ?_
  dsimp only
  rw [if_pos ⟨rfl, by simp [ipv6SplitFlags]⟩]
  exact .pure _ _

/-! ## All fields -/

/-- The sections of fields with a separator behind each but the last. -/
def fieldsAt (pos : Nat) : List (List UInt8) → List Sect
  | [] => []
  | g :: gs => ⟨pos, g.length⟩ :: fieldsAt (pos + (g.length + 1)) gs

@[simp] theorem length_fieldsAt (pos : Nat) (gs : List (List UInt8)) :
    (fieldsAt pos gs).length = gs.length := by
  induction gs generalizing pos with
  | nil => rfl
  | cons g gs ih => rw [fieldsAt, List.length_cons, List.length_cons, ih]

/-- Fields with a separator behind each. -/
def closed (sep : UInt8) (gs : List (List UInt8)) : List UInt8 := gs.flatMap (· ++ [sep])

@[simp] theorem closed_nil (sep : UInt8) : closed sep [] = [] := rfl

@[simp] theorem closed_cons (sep : UInt8) (g : List UInt8) (gs : List (List UInt8)) :
    closed sep (g :: gs) = g ++ sep :: closed sep gs := by
  simp [closed]

theorem closed_append (sep : UInt8) (gs hs : List (List UInt8)) :
    closed sep (gs ++ hs) = closed sep gs ++ closed sep hs := by
  simp [closed]

/-- A separator between two lists of fields. -/
theorem joinGroups_append (sep : UInt8) (gs : List (List UInt8)) {hs : List (List UInt8)}
    (h : hs ≠ []) : joinGroups sep (gs ++ hs) = closed sep gs ++ joinGroups sep hs := by
  obtain ⟨h0, hs, rfl⟩ := List.exists_cons_of_ne_nil h
  induction gs with
  | nil => rfl
  | cons g gs ih =>
    have e : closed sep (g :: gs) ++ joinGroups sep (h0 :: hs) =
        g ++ sep :: joinGroups sep (gs ++ h0 :: hs) := by
      rw [ih, closed_cons, List.append_assoc, List.cons_append]
    rw [e, List.cons_append]
    cases gs with
    | nil => simp [joinGroups, List.intercalate_cons_cons]
    | cons g' gs => simp [joinGroups, List.intercalate_cons_cons]

/-- The fields are not empty, and no separator is in them. -/
def Fields (sep : UInt8) (gs : List (List UInt8)) : Prop := ∀ g ∈ gs, g ≠ [] ∧ sep ∉ g

theorem Fields.tail (h : Fields sep (g :: gs)) : Fields sep gs :=
  fun g' hg => h g' (List.mem_cons_of_mem _ hg)

/-- A list with more sections. -/
def Sects.extend (x : Sects) (ys : List Sect) : Sects := { x with ptr := x.ptr ++ ys }

/-- A split behind some fields. -/
def SplitAt.behind (a : SplitAt) (sep : UInt8) (gs : List (List UInt8)) : SplitAt where
  pos := a.pos + (closed sep gs).length
  len := a.len - (closed sep gs).length
  added := a.added + gs.length
  sects := a.sects.extend (fieldsAt a.pos gs)

theorem SplitAt.behind_nil (a : SplitAt) (sep : UInt8) : a.behind sep [] = a := by
  simp [SplitAt.behind, Sects.extend, fieldsAt]

theorem SplitAt.behind_cons (a : SplitAt) (sep : UInt8) (g : List UInt8)
    (gs : List (List UInt8)) : a.behind sep (g :: gs) = (a.next g.length).behind sep gs := by
  simp only [SplitAt.behind, SplitAt.next, Sects.extend, Sects.push, fieldsAt, closed_cons,
    List.length_append, List.length_cons, List.append_assoc, List.singleton_append]
  congr 1 <;> omega

/-- Fields with separators behind them. -/
theorem split_closed
    (w : Window E P s a.pos a.len ((closed sep gs).map some ++ rest)) (hf : Fields sep gs)
    (horig : origPos ≤ a.pos) (hlim : a.added + gs.length ≤ limit)
    (hroom : a.sects.ptr.length + gs.length ≤ a.sects.sz)
    (k : ∀ t p, Reads s t → (splitPos ≠ 0 ∨ gs ≠ [] → p ≠ 0) → Yields Reads
      (splitBufLoop ipv6SplitFlags [sep] limit origPos fuel p (a.behind sep gs)) t v) :
    Yields Reads
      (splitBufLoop ipv6SplitFlags [sep] limit origPos (fuel + gs.length) splitPos a) s v := by
  induction gs generalizing s a splitPos with
  | nil =>
    have h := k s splitPos (Std.Refl.refl s) fun h => h.resolve_right fun h => h rfl
    rwa [SplitAt.behind_nil] at h
  | cons g gs ih =>
    obtain ⟨hg, hsep⟩ := hf g List.mem_cons_self
    rw [List.length_cons] at hlim hroom ⊢
    rw [closed_cons, List.map_append, List.map_cons, List.append_assoc, List.cons_append] at w
    have h1 := w.one_le
    refine split_field w hg hsep horig (by omega) (by omega) fun t r => ?_
    have w' : Window E P t (a.next g.length).pos (a.next g.length).len
        ((closed sep gs).map some ++ rest) := by
      have h := w
      rw [← List.singleton_append, ← List.append_assoc] at h
      have h := (h.behind (g.map some ++ [some sep])).reads r
      simpa [SplitAt.next] using h
    refine ih w' hf.tail ?_ ?_ ?_ fun t' p r' hp => ?_
    · change origPos ≤ a.pos + _
      omega
    · change a.added + 1 + gs.length ≤ limit
      omega
    · change (a.sects.push a.pos g.length).ptr.length + gs.length ≤ a.sects.sz
      simp only [Sects.push, List.length_append, List.length_singleton]
      omega
    · have h := k t' p (IsTrans.trans _ _ _ r r') fun _ => hp (.inl (by omega))
      rwa [SplitAt.behind_cons] at h

/-- The slice behind some fields. -/
theorem Window.behindFields
    (w : Window E P s a.pos a.len ((closed sep gs).map some ++ rest)) :
    Window E P s (a.behind sep gs).pos (a.behind sep gs).len rest := by
  have h := w.behind
  rwa [List.length_map] at h

theorem SplitAt.behind_room (a : SplitAt) (sep : UInt8) (gs : List (List UInt8)) :
    (a.behind sep gs).sects.ptr.length = a.sects.ptr.length + gs.length := by
  simp [SplitAt.behind, Sects.extend]

theorem fieldsAt_append (sep : UInt8) (pos : Nat) (gs hs : List (List UInt8)) :
    fieldsAt pos (gs ++ hs) = fieldsAt pos gs ++ fieldsAt (pos + (closed sep gs).length) hs := by
  induction gs generalizing pos with
  | nil => rfl
  | cons g gs ih =>
    rw [List.cons_append, fieldsAt, fieldsAt, ih, closed_cons, List.cons_append]
    congr 3
    rw [List.length_append, List.length_cons]
    omega

/-- Fields up to the end of the slice. -/
theorem split_fields (w : Window E P s a.pos a.len ((joinGroups sep gs).map some))
    (hf : Fields sep gs) (hne : gs ≠ []) (horig : origPos ≤ a.pos)
    (hlim : a.added + gs.length ≤ limit) (hroom : a.sects.ptr.length + gs.length ≤ a.sects.sz) :
    Yields Reads (splitBufLoop ipv6SplitFlags [sep] limit origPos (fuel + gs.length) splitPos a) s
      (some (a.added + gs.length, a.sects.extend (fieldsAt a.pos gs))) := by
  obtain rfl | ⟨gs, g, rfl⟩ := List.eq_nil_or_concat' gs
  · exact absurd rfl hne
  · rw [List.length_append, List.length_singleton] at hlim hroom ⊢
    have hj : joinGroups sep [g] = g := by simp [joinGroups]
    rw [joinGroups_append sep gs (List.cons_ne_nil g []), hj, List.map_append] at w
    obtain ⟨hg, hsep⟩ := hf g (by simp)
    rw [show fuel + (gs.length + 1) = fuel + 1 + gs.length by omega]
    refine split_closed w (fun g' hg' => hf g' (by simp [hg'])) horig (by omega) (by omega)
      fun t p r hp => ?_
    have h : Yields Reads
        (splitBufLoop ipv6SplitFlags [sep] limit origPos (fuel + 1) p (a.behind sep gs)) t _ :=
      split_last (w.behindFields.reads r) hg hsep (show a.added + gs.length < limit by omega)
        (by rw [a.behind_room sep gs]; exact hroom)
    have e : (a.behind sep gs).sects.push (a.behind sep gs).pos g.length =
        a.sects.extend (fieldsAt a.pos (gs ++ [g])) := by
      rw [fieldsAt_append sep]
      simp [SplitAt.behind, Sects.extend, Sects.push, fieldsAt]
    rwa [e] at h

/-! ## The sections of an address -/

variable {ps qs : List (List UInt8)}

/-- Two separators are at the beginning, or not. -/
theorem cmpBufEq_lead (w : Window E P s pos len xs) (h2 : 2 ≤ len) :
    Yields Reads (cmpBufEq pos 2 [0x3A, 0x3A]) s
      (decide (xs.take 2 = [some 0x3A, some 0x3A])) := by
  have w2 : Window E P s pos [(0x3A : UInt8), 0x3A].length (xs.take 2) := w.take h2
  exact w2.cmpEq Nat.two_pos

theorem take_two_ne {g : List UInt8} (hg : g ≠ []) (hsep : sep ∉ g) :
    (g.map some ++ rest).take 2 ≠ [some sep, some sep] := by
  obtain ⟨c, g, rfl⟩ := List.exists_cons_of_ne_nil hg
  intro h
  rw [List.map_cons, List.cons_append, List.take_succ_cons] at h
  exact hsep (by simp [Option.some.inj (List.cons.inj h).1])

/-- A split that does not begin with a null field. -/
theorem sects_plain (w : Window E P s pos len xs) (h2 : 2 ≤ len)
    (hx : xs.take 2 ≠ [some 0x3A, some 0x3A]) (n : Nat) {ys : List Sect}
    (k : ∀ t, Reads s t → Yields Reads
      (splitBufLoop ipv6SplitFlags [0x3A] 8 pos (len + 1) 0 ⟨pos, len, 0, Sects.decl 8⟩) t
      (some (n, (Sects.decl 8).extend ys))) :
    Yields Reads (parseIpv6Sects pos len) s ys := by
  unfold parseIpv6Sects
  refine (cmpBufEq_lead w h2).bind fun t r => ?_
  rw [if_neg (by rw [decide_eq_true_iff]; exact hx)]
  refine (Yields.pure t (Sects.decl 8)).bind fun t' r' => ?_
  exact (k t' (IsTrans.trans _ _ _ r r')).bind fun t'' _ => .pure _ _

/-- A split that begins with a null field. -/
theorem sects_lead (w : Window E P s pos len xs) (h2 : 2 ≤ len)
    (hx : xs.take 2 = [some 0x3A, some 0x3A]) (n : Nat) {ys : List Sect}
    (k : ∀ t, Reads s t → Yields Reads
      (splitBufLoop ipv6SplitFlags [0x3A] 8 pos (len + 1) 0
        ⟨pos, len, 0, (Sects.decl 8).push pos 0⟩) t
      (some (n, ((Sects.decl 8).push pos 0).extend ys))) :
    Yields Reads (parseIpv6Sects pos len) s (⟨pos, 0⟩ :: ys) := by
  unfold parseIpv6Sects
  refine (cmpBufEq_lead w h2).bind fun t r => ?_
  rw [if_pos (decide_eq_true hx)]
  refine (sectsAdd_yields t pos 0 (show (Sects.decl 8).ptr.length < 8 by decide)).bind
    fun t' r' => ?_
  refine (Yields.pure t' ((Sects.decl 8).push pos 0)).bind fun t'' r'' => ?_
  have r := IsTrans.trans _ _ _ r (IsTrans.trans _ _ _ r' r'')
  exact (k t'' r).bind fun _ _ => .pure _ _

theorem Fields.length_closed (hf : Fields sep gs) : gs.length ≤ (closed sep gs).length := by
  induction gs with
  | nil => rfl
  | cons g gs ih =>
    have := ih hf.tail
    rw [closed_cons, List.length_append, List.length_cons, List.length_cons]
    omega

theorem Fields.length_join (hf : Fields sep gs) : gs.length ≤ (joinGroups sep gs).length := by
  obtain rfl | ⟨gs, g, rfl⟩ := List.eq_nil_or_concat' gs
  · exact Nat.zero_le _
  · have hj : joinGroups sep [g] = g := by simp [joinGroups]
    have hg := List.length_pos_iff.mpr (hf g (by simp)).1
    have hgs : Fields sep gs := fun g' hg' => hf g' (by simp [hg'])
    have hc := hgs.length_closed
    rw [joinGroups_append sep gs (List.cons_ne_nil g []), hj, List.length_append,
      List.length_append, List.length_singleton]
    omega

/-- The first character of fields is none of the separators. -/
theorem Fields.head_join (hf : Fields sep gs) :
    ((joinGroups sep gs).map some).head? ≠ some (some sep) := by
  cases gs with
  | nil => simp [joinGroups]
  | cons g gs =>
    obtain ⟨hg, hsep⟩ := hf g List.mem_cons_self
    obtain ⟨c, g, rfl⟩ := List.exists_cons_of_ne_nil hg
    have hc : c ≠ sep := fun e => hsep (by simp [e])
    cases gs with
    | nil => simpa [joinGroups] using hc
    | cons g' gs => simpa [joinGroups, List.intercalate_cons_cons] using hc

theorem Fields.join_ne_nil (hf : Fields sep gs) (hne : gs ≠ []) :
    (joinGroups sep gs).map some ≠ [] := by
  have h1 := hf.length_join
  have h2 := List.length_pos_iff.mpr hne
  intro e
  rw [List.map_eq_nil_iff] at e
  rw [e, List.length_nil] at h1
  omega

/-- An address without a null field. -/
theorem sects_fields (w : Window E P s pos len ((joinGroups 0x3A ps).map some)) (h2 : 2 ≤ len)
    (hf : Fields 0x3A ps) (hne : ps ≠ []) (hps : ps.length ≤ 8) :
    Yields Reads (parseIpv6Sects pos len) s (fieldsAt pos ps) := by
  have hl := w.length
  rw [List.length_map] at hl
  have hj := hf.length_join
  have hx : ((joinGroups 0x3A ps).map some).take 2 ≠ [some 0x3A, some 0x3A] := by
    intro e
    have h0 := congrArg List.head? e
    rw [List.head?_take, if_neg (by omega)] at h0
    exact hf.head_join h0
  refine sects_plain w h2 hx ps.length fun t r => ?_
  have h : Yields Reads (splitBufLoop ipv6SplitFlags [0x3A] 8 pos
      (len + 1 - ps.length + ps.length) 0 ⟨pos, len, 0, Sects.decl 8⟩) t _ :=
    split_fields (w.reads r) hf hne (Nat.le_refl _) (show 0 + ps.length ≤ 8 by omega)
      (show 0 + ps.length ≤ 8 by omega)
  rwa [show len + 1 - ps.length + ps.length = len + 1 by omega, Nat.zero_add] at h

/-- Fields before a null field. -/
theorem split_before (n : Nat) {ys : List Sect}
    (w : Window E P s pos len ((closed 0x3A ps).map some ++ some 0x3A :: rest))
    (hf : Fields 0x3A ps) (hne : ps ≠ []) (hps : ps.length ≤ 7)
    (k : ∀ t fuel p, Reads s t → len ≤ fuel + ps.length → p ≠ 0 → Yields Reads
      (splitBufLoop ipv6SplitFlags [0x3A] 8 pos (fuel + 1) p
        (SplitAt.behind ⟨pos, len, 0, Sects.decl 8⟩ 0x3A ps)) t
      (some (n, (Sects.decl 8).extend ys))) :
    Yields Reads (parseIpv6Sects pos len) s ys := by
  have hl := w.length
  simp only [List.length_append, List.length_map, List.length_cons] at hl
  have hc := hf.length_closed
  have hp := List.length_pos_iff.mpr hne
  have hx : ((closed 0x3A ps).map some ++ some 0x3A :: rest).take 2 ≠
      [some 0x3A, some 0x3A] := by
    obtain ⟨g, ps, rfl⟩ := List.exists_cons_of_ne_nil hne
    obtain ⟨hg, hsep⟩ := hf g List.mem_cons_self
    rw [closed_cons, List.map_append, List.append_assoc]
    exact take_two_ne hg hsep
  refine sects_plain w (by omega) hx n fun t r => ?_
  have h : Yields Reads (splitBufLoop ipv6SplitFlags [0x3A] 8 pos
      (len - ps.length + 1 + ps.length) 0 ⟨pos, len, 0, Sects.decl 8⟩) t _ :=
    split_closed (w.reads r) hf (Nat.le_refl _) (show 0 + ps.length ≤ 8 by omega)
      (show 0 + ps.length ≤ 8 by omega)
      fun t' p r' hp' => k t' _ p (IsTrans.trans _ _ _ r r') (by omega) (hp' (.inr hne))
  rwa [show len - ps.length + 1 + ps.length = len + 1 by omega] at h

/-- The position behind fields is behind the beginning. -/
theorem Fields.pos_lt (hf : Fields sep ps) (hne : ps ≠ []) (pos : Nat) :
    pos < pos + (closed sep ps).length := by
  have hc := hf.length_closed
  have hlen := List.length_pos_iff.mpr hne
  omega

/-- A null field between others. -/
theorem sects_mid
    (w : Window E P s pos len ((closed 0x3A ps ++ 0x3A :: joinGroups 0x3A qs).map some))
    (hf : Fields 0x3A ps) (hf' : Fields 0x3A qs) (hne : ps ≠ []) (hne' : qs ≠ [])
    (hps : ps.length + 1 + qs.length ≤ 8) :
    Yields Reads (parseIpv6Sects pos len) s (fieldsAt pos ps ++
      ⟨pos + (closed 0x3A ps).length, 0⟩ ::
        fieldsAt (pos + (closed 0x3A ps).length + 1) qs) := by
  rw [List.map_append, List.map_cons] at w
  have hl := w.length
  simp only [List.length_append, List.length_map, List.length_cons] at hl
  have hc := hf.length_closed
  have hj := hf'.length_join
  refine split_before (ps.length + 1 + qs.length) w hf hne (by omega) fun t fuel p r hfuel hp => ?_
  have wt := (Window.behindFields (a := ⟨pos, len, 0, Sects.decl 8⟩) w).reads r
  refine split_null wt (hf'.join_ne_nil hne') hf'.head_join (hf.pos_lt hne pos)
    (show 0 + ps.length < 8 by omega)
    (by rw [SplitAt.behind_room]; exact show 0 + ps.length < 8 by omega) fun t' r' => ?_
  have wt := (wt.behind [some 0x3A]).reads r'
  have h : Yields Reads (splitBufLoop ipv6SplitFlags [0x3A] 8 pos (fuel - qs.length + qs.length)
      (pos + (closed 0x3A ps).length)
      ((SplitAt.behind ⟨pos, len, 0, Sects.decl 8⟩ 0x3A ps).next 0)) t' _ :=
    split_fields wt hf' hne' (show pos ≤ pos + (closed 0x3A ps).length + (0 + 1) by omega)
      (show 0 + ps.length + 1 + qs.length ≤ 8 by omega)
      (by simpa [SplitAt.behind, SplitAt.next, Sects.push, Sects.extend, Sects.decl] using hps)
  rw [show fuel - qs.length + qs.length = fuel by omega] at h
  have e : ((SplitAt.behind ⟨pos, len, 0, Sects.decl 8⟩ 0x3A ps).next 0).sects.extend
      (fieldsAt ((SplitAt.behind ⟨pos, len, 0, Sects.decl 8⟩ 0x3A ps).next 0).pos qs) =
      (Sects.decl 8).extend (fieldsAt pos ps ++ ⟨pos + (closed 0x3A ps).length, 0⟩ ::
        fieldsAt (pos + (closed 0x3A ps).length + 1) qs) := by
    simp [SplitAt.behind, SplitAt.next, Sects.push, Sects.extend]
  rw [e] at h
  rwa [show ((SplitAt.behind ⟨pos, len, 0, Sects.decl 8⟩ 0x3A ps).next 0).added =
    ps.length + 1 from congrArg (· + 1) (Nat.zero_add _)] at h

/-- A null field with seven before it. -/
theorem sects_full
    (w : Window E P s pos len ((closed 0x3A ps ++ 0x3A :: joinGroups 0x3A qs).map some))
    (hf : Fields 0x3A ps) (hf' : Fields 0x3A qs) (hne' : qs ≠ []) (hps : ps.length = 7) :
    Yields Reads (parseIpv6Sects pos len) s (fieldsAt pos ps ++
      [⟨pos + (closed 0x3A ps).length, 0⟩]) := by
  have hne : ps ≠ [] := by
    rintro rfl
    cases hps
  rw [List.map_append, List.map_cons] at w
  have hl := w.length
  simp only [List.length_append, List.length_map, List.length_cons] at hl
  have hc := hf.length_closed
  have hj := hf'.length_join
  have hq := List.length_pos_iff.mpr hne'
  refine split_before 8 w hf hne (by omega) fun t fuel p r hfuel hp => ?_
  have wt := (Window.behindFields (a := ⟨pos, len, 0, Sects.decl 8⟩) w).reads r
  refine split_null wt (hf'.join_ne_nil hne') hf'.head_join (hf.pos_lt hne pos)
    (show 0 + ps.length < 8 by omega)
    (by rw [SplitAt.behind_room]; exact show 0 + ps.length < 8 by omega) fun t' r' => ?_
  obtain ⟨fuel, rfl⟩ : ∃ f, fuel = f + 1 := ⟨fuel - 1, by omega⟩
  have h1 := hf.pos_lt hne pos
  have h : Yields Reads (splitBufLoop ipv6SplitFlags [0x3A] 8 pos (fuel + 1)
      (pos + (closed 0x3A ps).length)
      ((SplitAt.behind ⟨pos, len, 0, Sects.decl 8⟩ 0x3A ps).next 0)) t' _ :=
    split_full t' (show len - (closed 0x3A ps).length - (0 + 1) ≠ 0 by omega)
      (show 0 + ps.length + 1 = 8 by omega) (by omega) (by omega)
  have e : ((SplitAt.behind ⟨pos, len, 0, Sects.decl 8⟩ 0x3A ps).next 0).sects =
      (Sects.decl 8).extend (fieldsAt pos ps ++ [⟨pos + (closed 0x3A ps).length, 0⟩]) := by
    simp [SplitAt.behind, SplitAt.next, Sects.push, Sects.extend]
  rw [e] at h
  rwa [show ((SplitAt.behind ⟨pos, len, 0, Sects.decl 8⟩ 0x3A ps).next 0).added = 8 from
    show 0 + ps.length + 1 = 8 by omega] at h

/-- A null field at the beginning. -/
theorem sects_beg (w : Window E P s pos len ((0x3A :: 0x3A :: joinGroups 0x3A qs).map some))
    (hf : Fields 0x3A qs) (hne : qs ≠ []) (hqs : qs.length ≤ 7) :
    Yields Reads (parseIpv6Sects pos len) s (⟨pos, 0⟩ :: fieldsAt (pos + 2) qs) := by
  have hl := w.length
  simp only [List.length_map, List.length_cons] at hl
  have hj := hf.length_join
  refine sects_lead w (by omega) rfl qs.length fun t r => ?_
  have wt := w.reads r
  refine split_lead (a := ⟨pos, len, 0, (Sects.decl 8).push pos 0⟩) wt (hf.join_ne_nil hne)
    hf.head_join (show 0 + 2 < 8 by omega) fun t' r' => ?_
  have wt := (wt.behind [some 0x3A, some 0x3A]).reads r'
  have h : Yields Reads (splitBufLoop ipv6SplitFlags [0x3A] 8 pos
      (len - qs.length + qs.length) pos ⟨pos + 2, len - 2, 0, (Sects.decl 8).push pos 0⟩) t' _ :=
    split_fields wt hf hne (show pos ≤ pos + 2 by omega) (show 0 + qs.length ≤ 8 by omega)
      (show 1 + qs.length ≤ 8 by omega)
  rwa [show len - qs.length + qs.length = len by omega, Nat.zero_add] at h

/-- A null field at the end is no section. -/
theorem sects_end (w : Window E P s pos len ((closed 0x3A ps ++ [0x3A]).map some))
    (hf : Fields 0x3A ps) (hne : ps ≠ []) (hps : ps.length ≤ 7) :
    Yields Reads (parseIpv6Sects pos len) s (fieldsAt pos ps) := by
  rw [List.map_append] at w
  refine split_before (0 + ps.length) w hf hne hps fun t fuel p r hfuel hp => ?_
  have wt := (Window.behindFields (a := ⟨pos, len, 0, Sects.decl 8⟩) w).reads r
  exact split_null_end wt (hf.pos_lt hne pos) (show 0 + ps.length < 8 by omega)

/-- A null field and nothing else. -/
theorem sects_null (w : Window E P s pos len [some 0x3A, some 0x3A]) :
    Yields Reads (parseIpv6Sects pos len) s [⟨pos, 0⟩] := by
  have hl : 2 = len := w.length
  refine sects_lead w (by omega) rfl 0 fun t r => ?_
  exact split_null_only (a := ⟨pos, len, 0, (Sects.decl 8).push pos 0⟩) (w.reads r)
    (show 0 < 8 by decide)

end Vstr
