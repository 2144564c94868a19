import Vstr.Lib.Numeral
import Vstr.Parse.Read

/-!
# Numbers in a slice

The number parser over a list of bytes, and that the parser of the library computes it
from the content of the slice.
-/

namespace Vstr

open Memory Splice Query

variable {E : Env} {P : Own} {s t : St} {pos len : Nat} {xs : List (Option UInt8)}

/-- A slice of a usable string, and its bytes. -/
structure Window (E : Env) (P : Own) (s : St) (pos len : Nat) (xs : List (Option UInt8)) :
    Prop where
  /-- The string can be read. -/
  usable : Usable E P s
  /-- The slice begins inside the string. -/
  one_le : 1 ≤ pos
  /-- The slice ends inside the string. -/
  le_len : pos + len ≤ s.base.len + 1
  /-- The bytes of the slice. -/
  bytes : slice (Vstr.content s) pos len = xs

theorem Window.length (w : Window E P s pos len xs) : xs.length = len := by
  have hl := length_content w.usable.sound.valid
  have h1 := w.one_le
  have h2 := w.le_len
  rw [← w.bytes, slice, List.length_take, List.length_drop, hl]
  omega

theorem Window.reads (w : Window E P s pos len xs) (r : Reads s t) : Window E P t pos len xs where
  usable := r.usable w.usable
  one_le := w.one_le
  le_len := by
    rw [r.len_eq]
    exact w.le_len
  bytes := by
    rw [r.content]
    exact w.bytes

/-- The slice without its first bytes. -/
theorem Window.drop (w : Window E P s pos len xs) {k : Nat} (hk : k ≤ len) :
    Window E P s (pos + k) (len - k) (xs.drop k) where
  usable := w.usable
  one_le := by
    have := w.one_le
    omega
  le_len := by
    have := w.le_len
    omega
  bytes := by
    have h1 := w.one_le
    rw [← w.bytes, slice, slice, List.drop_take, List.drop_drop]
    congr 2
    omega

/-- The first bytes of the slice. -/
theorem Window.take (w : Window E P s pos len xs) {k : Nat} (hk : k ≤ len) :
    Window E P s pos k (xs.take k) where
  usable := w.usable
  one_le := w.one_le
  le_len := by
    have := w.le_len
    omega
  bytes := by
    rw [← w.bytes, slice, slice, List.take_take, Nat.min_eq_left hk]

theorem Window.spn (w : Window E P s pos len xs) (chrs : List UInt8) :
    Yields Reads (spnChrsFwd pos len chrs) s (spanOf chrs xs) := by
  rw [← w.bytes]
  exact spnChrsFwd_yields w.usable w.one_le w.le_len chrs

theorem Window.chr (w : Window E P s pos len xs) {k : Nat} (hk : k < len) :
    Yields Reads (exportChr (pos + k)) s (byteAt xs k) := by
  have h1 := w.one_le
  have h2 := w.le_len
  have h := exportChr_yields w.usable (show 1 ≤ pos + k by omega) (by omega)
  rw [← w.bytes, slice, byteAt_take _ hk, byteAt_drop]
  rwa [show pos + k - 1 = pos - 1 + k by omega] at h

/-- Some string holds the text, with something behind it. -/
theorem window_written (text pad : List UInt8) :
    ∃ P, Window alone P (written (text ++ pad)) 1 text.length (text.map some) ∧
      Window alone P (written (text ++ pad)) 1 (text ++ pad).length ((text ++ pad).map some) := by
  obtain ⟨P, u⟩ := usable_written (text ++ pad)
  have hlen := length_content u.sound.valid
  rw [content_written, List.length_map] at hlen
  have w : Window alone P (written (text ++ pad)) 1 (text ++ pad).length
      ((text ++ pad).map some) := by
    refine ⟨u, Nat.le_refl _, by omega, ?_⟩
    rw [content_written, slice, Nat.sub_self, List.drop_zero, List.take_of_length_le (by simp)]
  refine ⟨P, ?_, w⟩
  have h := w.take (show text.length ≤ (text ++ pad).length by simp)
  rwa [List.map_append, List.take_left' (by simp)] at h

/-- Some string holds the text. -/
theorem window_text (text : List UInt8) :
    ∃ P, Window alone P (written text) 1 text.length (text.map some) := by
  obtain ⟨P, w, -⟩ := window_written text []
  rw [List.append_nil] at w
  exact ⟨P, w⟩

/-- All bytes of the string with unknown ones. -/
theorem window_mixed : ∃ P, Window alone P mixed 1 10 [some 97, some 98, none, some 99, some 100,
    some 97, some 98, none, some 99, some 100] := by
  obtain ⟨P, u⟩ := usable_mixed
  exact ⟨P, u, Nat.le_refl _, by decide, by rw [content_mixed]; rfl⟩

/-! ## The beginning of a number -/

/-- `parseNumSign` on bytes. -/
def signOf (xs : List (Option UInt8)) : Option (Nat × Bool) :=
  if spanOf [0x2D] xs > 1 then none
  else if spanOf [0x2D] xs = 0 then
    if spanOf [0x2B] xs > 1 then none else some (spanOf [0x2B] xs, false)
  else some (spanOf [0x2D] xs, true)

/-- `parseNumLetter` on bytes. -/
def letterOf (fl : ParseNumFlags) (base numBase pos : Nat) (xs : List (Option UInt8))
    (isNeg : Bool) : NumBeg :=
  if xs.length - 1 = 0 then .bad .onlySpmx
  else parseNumZeros fl (if fl.base = 0 then base else numBase) (pos + 1) (xs.length - 1)
    (spanOf [0x30] (xs.drop 1)) isNeg true

/-- `parseNumPrefix` on bytes. -/
def prefixOf (fl : ParseNumFlags) (numBase pos : Nat) (xs : List (Option UInt8)) (isNeg : Bool) :
    NumBeg :=
  if xs.length = 0 then .zero 0 .none
  else if spanOf [0x78, 0x58] xs > 1 then .zero xs.length .oob
  else if spanOf [0x78, 0x58] xs = 1 then letterOf fl 16 numBase pos xs isNeg
  else if spanOf [0x62, 0x42] xs > 1 then .zero xs.length .oob
  else if spanOf [0x62, 0x42] xs = 1 then letterOf fl 2 numBase pos xs isNeg
  else parseNumZeros fl (if fl.base = 0 then 8 else numBase) pos xs.length 0 isNeg true

/-- `parseNumDigits` on bytes. -/
def digitsOf (fl : ParseNumFlags) (pos : Nat) (xs : List (Option UInt8)) (isNeg : Bool) : NumBeg :=
  if xs.length = 0 then .bad .onlySpm
  else if spanOf [0x30] xs = 1 ∧ (fl.numBase = 0 ∨ fl.numBase = 16 ∨ fl.numBase = 2) then
    prefixOf fl fl.numBase (pos + 1) (xs.drop 1) isNeg
  else if spanOf [0x30] xs ≠ 0 ∧ fl.numBase = 0 then
    parseNumZeros fl 8 pos xs.length (spanOf [0x30] xs - 1) isNeg true
  else
    parseNumZeros fl (if fl.numBase = 0 then 10 else fl.numBase) pos xs.length
      (spanOf [0x30] xs) isNeg (spanOf [0x30] xs ≠ 0)

/-- `parseNumSigned` on bytes. -/
def signedOf (fl : ParseNumFlags) (pos : Nat) (xs : List (Option UInt8)) : NumBeg :=
  if fl.noBegPm then digitsOf fl pos xs false
  else
    match signOf xs with
    | none => .bad .oob
    | some (tmp, isNeg) => digitsOf fl (pos + tmp) (xs.drop tmp) isNeg

/-- `vstr__parse_num_beg` on bytes. -/
def numBegOf (fl : ParseNumFlags) (pos : Nat) (xs : List (Option UInt8)) : NumBeg :=
  if fl.space then
    if spanOf [0x20] xs ≥ xs.length then .bad .onlyS
    else signedOf fl (pos + spanOf [0x20] xs) (xs.drop (spanOf [0x20] xs))
  else signedOf fl pos xs

theorem parseNumSign_yields (w : Window E P s pos len xs) :
    Yields Reads (parseNumSign pos len) s (signOf xs) := by
  unfold parseNumSign signOf
  refine (w.spn _).bind fun t r => ?_
  split
  · exact .pure _ _
  · split
    · refine ((w.reads r).spn _).bind fun t' r' => ?_
      split
      · exact .pure _ _
      · exact .pure _ _
    · exact .pure _ _

theorem signOf_le {k : Nat} {neg : Bool} (h : signOf xs = some (k, neg)) : k ≤ xs.length := by
  unfold signOf at h
  split at h
  · cases h
  · split at h
    · split at h
      · cases h
      · obtain ⟨rfl, -⟩ := Prod.mk.inj (Option.some.inj h)
        exact spanOf_le _ _
    · obtain ⟨rfl, -⟩ := Prod.mk.inj (Option.some.inj h)
      exact spanOf_le _ _

/-- The sign of a number. -/
theorem signOf_eq {sgn : List UInt8} (h : sgn = [] ∨ sgn = [0x2B] ∨ sgn = [0x2D])
    (hx : NotAmong [0x2B, 0x2D] xs) :
    signOf (sgn.map some ++ xs) = some (sgn.length, decide (sgn = [0x2D])) := by
  have hm : NotAmong [0x2D] xs := fun c hc hin => hx c hc (by simp_all)
  have hp : NotAmong [0x2B] xs := fun c hc hin => hx c hc (by simp_all)
  unfold signOf
  rcases h with rfl | rfl | rfl
  · rw [List.map_nil, List.nil_append, ← spanOf_zero hm, ← spanOf_zero hp]
    rfl
  · have e1 : spanOf [0x2B] (([0x2B] : List UInt8).map some ++ xs) = 1 := spanOf_eq (by simp) hp
    have e2 : spanOf [0x2D] (([0x2B] : List UInt8).map some ++ xs) = 0 := rfl
    rw [e1, e2]
    rfl
  · have e1 : spanOf [0x2D] (([0x2D] : List UInt8).map some ++ xs) = 1 := spanOf_eq (by simp) hm
    rw [e1]
    rfl

theorem parseNumLetter_yields (w : Window E P s pos len xs) (fl : ParseNumFlags)
    (base numBase : Nat) (isNeg : Bool) :
    Yields Reads (parseNumLetter fl base numBase pos len isNeg) s
      (letterOf fl base numBase pos xs isNeg) := by
  unfold parseNumLetter letterOf
  rw [w.length]
  dsimp only
  split
  · exact .pure _ _
  · refine ((w.drop (show 1 ≤ len by omega)).spn _).bind fun t r => ?_
    exact .pure _ _

theorem parseNumPrefix_yields (w : Window E P s pos len xs) (fl : ParseNumFlags)
    (numBase : Nat) (isNeg : Bool) :
    Yields Reads (parseNumPrefix fl numBase pos len isNeg) s
      (prefixOf fl numBase pos xs isNeg) := by
  unfold parseNumPrefix prefixOf
  rw [w.length]
  split
  · exact .pure _ _
  · refine (w.spn _).bind fun t r => ?_
    have w := w.reads r
    split
    · exact .pure _ _
    · split
      · exact parseNumLetter_yields w fl 16 numBase isNeg
      · refine (w.spn _).bind fun t' r' => ?_
        have w := w.reads r'
        split
        · exact .pure _ _
        · split
          · exact parseNumLetter_yields w fl 2 numBase isNeg
          · exact .pure _ _

theorem parseNumDigits_yields (w : Window E P s pos len xs) (fl : ParseNumFlags) (isNeg : Bool) :
    Yields Reads (parseNumDigits fl pos len isNeg) s (digitsOf fl pos xs isNeg) := by
  unfold parseNumDigits digitsOf
  rw [w.length]
  split
  · exact .pure _ _
  · refine (w.spn _).bind fun t r => ?_
    have w := w.reads r
    split
    · exact parseNumPrefix_yields (w.drop (show 1 ≤ len by omega)) fl _ isNeg
    · split
      · exact .pure _ _
      · exact .pure _ _

theorem parseNumSigned_yields (w : Window E P s pos len xs) (fl : ParseNumFlags) :
    Yields Reads (parseNumSigned fl pos len) s (signedOf fl pos xs) := by
  unfold parseNumSigned signedOf
  split
  · exact parseNumDigits_yields w fl false
  · refine (parseNumSign_yields w).bind fun t r => ?_
    have w := w.reads r
    cases hs : signOf xs with
    | none => exact .pure _ _
    | some p =>
      have hle := signOf_le hs
      rw [w.length] at hle
      exact parseNumDigits_yields (w.drop hle) fl p.2

/-- `vstr__parse_num_beg`. -/
theorem parseNumBeg_yields (w : Window E P s pos len xs) (fl : ParseNumFlags) :
    Yields Reads (parseNumBeg fl pos len) s (numBegOf fl pos xs) := by
  unfold parseNumBeg numBegOf
  rw [w.length]
  split
  · refine (w.spn _).bind fun t r => ?_
    have w := w.reads r
    split
    · exact .pure _ _
    · exact parseNumSigned_yields (w.drop (by omega)) fl
  · exact parseNumSigned_yields w fl

/-! ## Where the digits are -/

/-- The digits that are left are at the end of the slice, and there are some. -/
def NumBeg.Within (pos len : Nat) : NumBeg → Prop
  | .digits _ pos' len' _ _ => pos ≤ pos' ∧ 0 < len' ∧ pos' + len' = pos + len
  | _ => True

theorem NumBeg.Within.undrop {b : NumBeg} {k : Nat} (h : b.Within (pos + k) (xs.drop k).length)
    (hk : k ≤ xs.length) : b.Within pos xs.length := by
  cases b with
  | digits numBase pos' len' isNeg isZeroed =>
    obtain ⟨h1, h2, h3⟩ := h
    rw [List.length_drop] at h3
    refine ⟨?_, h2, ?_⟩ <;> omega
  | _ => trivial

theorem parseNumZeros_within (fl : ParseNumFlags) (numBase pos : Nat) {len tmp : Nat}
    (isNeg isZeroed : Bool) (h : tmp ≤ len) :
    (parseNumZeros fl numBase pos len tmp isNeg isZeroed).Within pos len := by
  unfold parseNumZeros
  split
  · trivial
  · split
    · trivial
    · refine ⟨by omega, by omega, by omega⟩

theorem letterOf_within (fl : ParseNumFlags) (base numBase pos : Nat) (isNeg : Bool) :
    (letterOf fl base numBase pos xs isNeg).Within pos xs.length := by
  unfold letterOf
  split
  · trivial
  · have e := parseNumZeros_within fl (if fl.base = 0 then base else numBase) (pos + 1) isNeg true
      (spanOf_le [0x30] (xs.drop 1))
    rw [List.length_drop] at e
    exact NumBeg.Within.undrop (by rwa [List.length_drop]) (by omega)

theorem prefixOf_within (fl : ParseNumFlags) (numBase pos : Nat) (isNeg : Bool) :
    (prefixOf fl numBase pos xs isNeg).Within pos xs.length := by
  unfold prefixOf
  split
  · trivial
  · split
    · trivial
    · split
      · exact letterOf_within fl 16 numBase pos isNeg
      · split
        · trivial
        · split
          · exact letterOf_within fl 2 numBase pos isNeg
          · exact parseNumZeros_within fl _ pos isNeg true (Nat.zero_le _)

theorem digitsOf_within (fl : ParseNumFlags) (pos : Nat) (isNeg : Bool) :
    (digitsOf fl pos xs isNeg).Within pos xs.length := by
  have h := spanOf_le [0x30] xs
  unfold digitsOf
  split
  · trivial
  · split
    · exact (prefixOf_within fl fl.numBase (pos + 1) isNeg).undrop (by omega)
    · split
      · exact parseNumZeros_within fl _ pos isNeg true (by omega)
      · exact parseNumZeros_within fl _ pos isNeg _ h

theorem signedOf_within (fl : ParseNumFlags) (pos : Nat) :
    (signedOf fl pos xs).Within pos xs.length := by
  unfold signedOf
  split
  · exact digitsOf_within fl pos false
  · cases hs : signOf xs with
    | none => trivial
    | some p => exact (digitsOf_within fl (pos + p.1) p.2).undrop (signOf_le hs)

theorem numBegOf_within (fl : ParseNumFlags) (pos : Nat) :
    (numBegOf fl pos xs).Within pos xs.length := by
  unfold numBegOf
  split
  · split
    · trivial
    · exact (signedOf_within fl (pos + spanOf [0x20] xs)).undrop (spanOf_le _ _)
  · exact signedOf_within fl pos

/-! ## The digits -/

/-- The digit loop on bytes. -/
def numLoopOf (fl : ParseNumFlags) (w numBase : Nat) :
    List (Option UInt8) → Bool → NumLoop → NumLoop
  | [], _, r => r
  | x :: xs, doneOnce, r =>
    if doneOnce ∧ x.getD 0 = 0x5F then
      if ¬ fl.sep then r else numLoopOf fl w numBase xs doneOnce { r with len := r.len - 1 }
    else
      match asciiDigit fl.loc numBase (x.getD 0) with
      | none => r
      | some add => numLoopOf fl w numBase xs true (parseNumCalc fl w numBase add r)

/-- The loop visits the rest of the slice. -/
theorem parseNumLoop_eq {it : Iter} {pre post : List Node} (on : it.On s.base pre post)
    (hd : (s.base.nodes.map Node.id).Nodup) (hp : ∀ n ∈ s.base.nodes, 0 < n.len)
    (fl : ParseNumFlags) (w numBase : Nat) (hlen : it.len + it.remaining = len) (doneOnce : Bool)
    (r : NumLoop) :
    parseNumLoop fl s w numBase len it doneOnce r =
      numLoopOf fl w numBase (it.rest s.heap post) doneOnce r := by
  induction len generalizing it pre post doneOnce r with
  | zero =>
    rw [Iter.rest, hlen, List.take_zero]
    rfl
  | succ len ih =>
    obtain ⟨x, it', pre', post', e, on', hrest, hsum⟩ := iterFwdChr_spec on hd hp (by omega)
    rw [hrest, parseNumLoop, numLoopOf, e]
    dsimp only
    rw [ih on' (by omega)]
    cases asciiDigit fl.loc numBase (x.getD 0) with
    | none => rfl
    | some add =>
      dsimp only
      rw [ih on' (by omega)]

/-- `VSTR__PARSE_NUM_UFUNC` on bytes. -/
def ufuncOf (w : Nat) (fl : ParseNumFlags) (pos : Nat) (xs : List (Option UInt8)) : ParsedNum :=
  match numBegOf fl pos xs with
  | .bad err => ⟨0, 0, err⟩
  | .zero left err => ⟨0, xs.length - left, err⟩
  | .digits numBase _ len isNeg isZeroed =>
    if isNeg then ⟨0, 0, .negative⟩
    else
      let r := numLoopOf fl w numBase (xs.drop (xs.length - len)) isZeroed ⟨0, len, .none⟩
      ⟨r.ret, xs.length - r.len, if r.len ≠ 0 ∧ r.err = .none then .oob else r.err⟩

/-- No more than the slice is read. -/
theorem ufuncOf_len_le (w : Nat) (fl : ParseNumFlags) (pos : Nat) (xs : List (Option UInt8)) :
    (ufuncOf w fl pos xs).len ≤ xs.length := by
  unfold ufuncOf
  cases numBegOf fl pos xs with
  | bad err => exact Nat.zero_le _
  | zero left err => exact Nat.sub_le _ _
  | digits numBase pos' len' isNeg isZeroed =>
    dsimp only
    split
    · exact Nat.zero_le _
    · exact Nat.sub_le _ _

/-- The iteration over the digits, and the loop. -/
theorem Window.loop {pos' len' : Nat} (wd : Window E P t pos len xs) (hle : pos ≤ pos')
    (hpos : 0 < len') (hsum : pos' + len' = pos + len) (w : Nat) (fl : ParseNumFlags)
    (numBase : Nat) (isZeroed : Bool) :
    ∃ it t', iterFwdBeg t pos' len' = (some it, t') ∧ Reads t t' ∧
      parseNumLoop fl t' w numBase len' it isZeroed ⟨0, len', .none⟩ =
        numLoopOf fl w numBase (xs.drop (len - len')) isZeroed ⟨0, len', .none⟩ := by
  have wd' := wd.drop (show len - len' ≤ len by omega)
  rw [show pos + (len - len') = pos' by omega, show len - (len - len') = len' by omega] at wd'
  obtain ⟨it, b', pre, post, e, rfl, on, hit, -, -, -, hslice⟩ :=
    iterFwdBeg_spec wd'.usable.sound wd'.usable.posOk wd'.one_le wd'.le_len hpos
  have hns := nodes_of_core (core_basePos t.base pos' true)
  have hrest : it.rest t.heap post = xs.drop (len - len') := by
    rw [Iter.rest, hit, ← hslice, wd'.bytes]
  have hloop := parseNumLoop_eq (s := ⟨t.heap, (basePos t.base pos' true).2⟩) on
    (by rw [hns]; exact wd.usable.sound.owned.nodes.nodup)
    (by rw [hns]; exact wd.usable.sound.valid.pos) fl w numBase hit isZeroed
    ⟨0, len', .none⟩
  rw [hrest] at hloop
  exact ⟨it, _, e, reads_basePos wd'.usable wd'.one_le (by have := wd'.le_len; omega), hloop⟩

/-- The parsers of unsigned numbers answer from the bytes of the slice. -/
theorem parseNumUfunc_yields (wd : Window E P s pos len xs) (w : Nat) (fl : ParseNumFlags) :
    Yields Reads (parseNumUfunc w fl pos len) s (ufuncOf w fl pos xs) := by
  unfold parseNumUfunc ufuncOf
  refine (parseNumBeg_yields wd fl).bind fun t r => ?_
  have wd := wd.reads r
  have hin : (numBegOf fl pos xs).Within pos xs.length := numBegOf_within fl pos
  rw [wd.length] at hin ⊢
  cases hb : numBegOf fl pos xs with
  | bad err => exact .pure _ _
  | zero left err => exact .pure _ _
  | digits numBase pos' len' isNeg isZeroed =>
    rw [hb] at hin
    obtain ⟨hle, hpos, hsum⟩ := hin
    dsimp only
    split
    · exact .pure _ _
    · obtain ⟨it, t', e, hr, hloop⟩ := wd.loop hle hpos hsum w fl numBase isZeroed
      unfold Yields StateT.run
      beta_reduce
      rw [e]
      dsimp only
      rw [hloop]
      exact ⟨rfl, hr⟩

/-- `VSTR__PARSE_NUM_SFUNC` on bytes. -/
def sfuncOf (w : Nat) (fl : ParseNumFlags) (pos : Nat) (xs : List (Option UInt8)) : ParsedInt :=
  match numBegOf fl pos xs with
  | .bad err => ⟨0, 0, err⟩
  | .zero left err => ⟨0, xs.length - left, err⟩
  | .digits numBase _ len isNeg isZeroed =>
    if isNeg ∧ fl.noNegative then ⟨0, 0, .negative⟩
    else
      let r := parseNumEndS fl w isNeg
        (numLoopOf fl w numBase (xs.drop (xs.length - len)) isZeroed ⟨0, len, .none⟩)
      ⟨signedNum w isNeg r.ret, xs.length - r.len, r.err⟩

/-- The parsers of signed numbers answer from the bytes of the slice. -/
theorem parseNumSfunc_yields (wd : Window E P s pos len xs) (w : Nat) (fl : ParseNumFlags) :
    Yields Reads (parseNumSfunc w fl pos len) s (sfuncOf w fl pos xs) := by
  unfold parseNumSfunc sfuncOf
  refine (parseNumBeg_yields wd fl).bind fun t r => ?_
  have wd := wd.reads r
  have hin : (numBegOf fl pos xs).Within pos xs.length := numBegOf_within fl pos
  rw [wd.length] at hin ⊢
  cases hb : numBegOf fl pos xs with
  | bad err => exact .pure _ _
  | zero left err => exact .pure _ _
  | digits numBase pos' len' isNeg isZeroed =>
    rw [hb] at hin
    obtain ⟨hle, hpos, hsum⟩ := hin
    dsimp only
    split
    · exact .pure _ _
    · obtain ⟨it, t', e, hr, hloop⟩ := wd.loop hle hpos hsum w fl numBase isZeroed
      unfold Yields StateT.run
      beta_reduce
      rw [e]
      dsimp only
      rw [hloop]
      exact ⟨rfl, hr⟩

/-! ## Runs of digits -/

/-- Every byte is a digit of the base. -/
def AllDigits (loc : Bool) (b : Nat) (ds : List UInt8) : Prop :=
  ∀ c ∈ ds, (asciiDigit loc b c).isSome

/-- The bytes do not begin with a digit. -/
def NoDigit (loc : Bool) (b : Nat) (xs : List (Option UInt8)) : Prop :=
  ∀ x ys, xs = x :: ys → asciiDigit loc b (x.getD 0) = none

/-- The number that digits denote. -/
def digitsVal (loc : Bool) (b : Nat) (ds : List UInt8) : Nat :=
  Numeral.value b (ds.map fun c => (asciiDigit loc b c).getD 0)

/-- The place of a character in a row of characters. -/
theorem idxOf?_range' (a k : Nat) (hk : a + k ≤ 256) (c : UInt8) :
    ((List.range' a k).map UInt8.ofNat).idxOf? c =
      if a ≤ c.toNat ∧ c.toNat < a + k then some (c.toNat - a) else none := by
  induction k generalizing a with
  | zero => rw [if_neg (by omega)]; rfl
  | succ k ih =>
    rw [List.range'_succ, List.map_cons, List.idxOf?_cons, ih (a + 1) (by omega)]
    have ha : (UInt8.ofNat a).toNat = a := UInt8.toNat_ofNat_of_lt' (show a < 256 by omega)
    by_cases hc : UInt8.ofNat a = c
    · subst hc
      rw [if_pos (beq_self_eq_true _), ha, if_pos (by omega), Nat.sub_self]
    · have hne : c.toNat ≠ a := fun e => hc (UInt8.toNat_inj.mp (ha.trans e.symm))
      rw [if_neg (by simpa using hc)]
      by_cases hin : a + 1 ≤ c.toNat ∧ c.toNat < a + 1 + k
      · rw [if_pos hin, if_pos (by omega), Option.map_some]
        congr 1
        omega
      · rw [if_neg hin, if_neg (by omega), Option.map_none]

/-- The letters that are digits of a base. -/
theorem idxOf?_letters (a k : Nat) (ha : a + 26 ≤ 256) (hk : k ≤ 26) (c : UInt8) :
    (((List.range' a 26).map UInt8.ofNat).take k).idxOf? c =
      if a ≤ c.toNat ∧ c.toNat < a + k then some (c.toNat - a) else none := by
  rw [← List.map_take, List.take_range'_of_length_ge hk]
  exact idxOf?_range' a k (by omega) c

/-- On a host with ASCII characters `LOCAL` reads the same digits. -/
theorem localDigit_eq {b : Nat} (hb : b ≤ 36) (c : UInt8) :
    localDigit b c = asciiDigit false b c := by
  unfold localDigit localLetLow localLetHigh asciiDigit
  rw [idxOf?_letters _ _ (by decide) (by omega), idxOf?_letters _ _ (by decide) (by omega),
    if_neg Bool.false_ne_true]
  dsimp only
  have hend : (if b ≤ 10 then 0x30 + b - 1 else 0x39) ≤ 0x39 := by split <;> omega
  generalize (if b ≤ 10 then 0x30 + b - 1 else 0x39) = numEnd at hend
  by_cases hlo : c.toNat < 0x30 ∨ c.toNat ≥ 0x80
  · rw [if_pos hlo, if_neg (by omega)]
    split
    · rfl
    · rw [if_neg (by omega), if_neg (by omega)]
  · rw [if_neg hlo]
    by_cases hnum : c.toNat ≤ numEnd
    · rw [if_pos hnum, if_pos ⟨by omega, hnum⟩]
    · rw [if_neg hnum, if_neg fun h => hnum h.2]
      by_cases hten : b ≤ 10
      · rw [if_pos hten, if_pos hten]
      · have hgt : b > 10 := by omega
        rw [if_neg hten, if_neg hten, if_pos hgt, if_pos hgt]
        by_cases hup : c.toNat ≥ 0x41 ∧ c.toNat ≤ 0x41 + (b - 11)
        · rw [if_pos hup, if_neg (by omega), if_pos (by omega)]
        · rw [if_neg hup]
          by_cases hdown : c.toNat ≥ 0x61 ∧ c.toNat ≤ 0x61 + (b - 11)
          · rw [if_pos hdown, if_pos (by omega)]
          · rw [if_neg hdown, if_neg (by omega), if_neg (by omega)]

/-- No letter is below the figures. -/
theorem idxOf?_letters_of_lt {a : Nat} (ha : 0x30 ≤ a) (ha' : a + 26 ≤ 256) (k : Nat) {c : UInt8}
    (hc : c.toNat < 0x30) : (((List.range' a 26).map UInt8.ofNat).take k).idxOf? c = none := by
  rw [List.idxOf?_eq_none_iff]
  intro hin
  obtain ⟨i, hi, rfl⟩ := List.mem_map.mp (List.mem_of_mem_take hin)
  rw [List.mem_range'_1] at hi
  rw [UInt8.toNat_ofNat_of_lt' (show i < 256 by omega)] at hc
  omega

/-- What is below the figures is no digit. -/
theorem asciiDigit_of_lt (loc : Bool) (b : Nat) {c : UInt8} (hc : c.toNat < 0x30) :
    asciiDigit loc b c = none := by
  unfold asciiDigit localDigit localLetLow localLetHigh
  rw [idxOf?_letters_of_lt (by decide) (by decide) _ hc,
    idxOf?_letters_of_lt (by decide) (by decide) _ hc]
  dsimp only
  split
  · rw [if_neg (by omega), ite_self]
  · rw [if_pos (.inl hc)]

/-- The `LOCAL` flag does not matter. -/
theorem asciiDigit_eq {b : Nat} (hb : b ≤ 36) (loc : Bool) (c : UInt8) :
    asciiDigit loc b c = asciiDigit false b c := by
  cases loc with
  | false => rfl
  | true => exact localDigit_eq hb c

/-- The decimal digits. -/
theorem asciiDigit_ten (c : UInt8) :
    asciiDigit false 10 c =
      if 0x30 ≤ c.toNat ∧ c.toNat ≤ 0x39 then some (c.toNat - 0x30) else none := by
  unfold asciiDigit
  simp only [Bool.false_eq_true, if_false, Nat.le_refl, if_true]
  by_cases h : 0x30 ≤ c.toNat ∧ c.toNat ≤ 0x39
  · rw [if_pos h, if_neg (by omega), if_pos (by omega)]
  · rw [if_neg h]
    split
    · rfl
    · rw [if_neg (by omega)]

/-- The underscore is no digit. -/
theorem asciiDigit_underscore (loc : Bool) {b : Nat} (hb : b ≤ 36) :
    asciiDigit loc b 0x5F = none := by
  have h5F : (0x5F : UInt8).toNat = 0x5F := rfl
  rw [asciiDigit_eq hb]
  unfold asciiDigit
  rw [if_neg Bool.false_ne_true]
  dsimp only
  rw [h5F, if_neg (by omega), if_neg (by split <;> omega)]
  split
  · rfl
  · rw [if_neg (by split <;> omega), if_neg (by omega)]

/-- Bytes begin with all digits there are, and then something else. -/
theorem exists_digits (loc : Bool) (b : Nat) (xs : List (Option UInt8)) :
    ∃ ds rest, xs = ds.map some ++ rest ∧ AllDigits loc b ds ∧ NoDigit loc b rest := by
  induction xs with
  | nil => exact ⟨[], [], rfl, (fun c hc => by cases hc), fun x ys e => by cases e⟩
  | cons x xs ih =>
    cases hx : asciiDigit loc b (x.getD 0) with
    | none =>
      refine ⟨[], x :: xs, rfl, (fun c hc => by cases hc), fun y ys e => ?_⟩
      obtain ⟨rfl, -⟩ := List.cons.inj e
      exact hx
    | some d =>
      obtain ⟨ds, rest, e, hds, hrest⟩ := ih
      cases x with
      | none =>
        rw [asciiDigit_of_lt loc b (by decide)] at hx
        cases hx
      | some c =>
        refine ⟨c :: ds, rest, by rw [e]; rfl, fun c' hc => ?_, hrest⟩
        rcases List.mem_cons.mp hc with rfl | hc
        · exact Option.isSome_iff_exists.mpr ⟨d, hx⟩
        · exact hds c' hc

/-- Digits are zeros and then digits that begin with another one. -/
theorem exists_zeros (ds : List UInt8) :
    ∃ z ds', ds = List.replicate z 0x30 ++ ds' ∧ ds'.head? ≠ some 0x30 := by
  induction ds with
  | nil => exact ⟨0, [], rfl, by simp⟩
  | cons c ds ih =>
    by_cases hc : c = 0x30
    · obtain ⟨z, ds', rfl, h⟩ := ih
      exact ⟨z + 1, ds', by rw [hc, List.replicate_succ, List.cons_append], h⟩
    · exact ⟨0, c :: ds, rfl, by simpa using hc⟩

/-- Without separators the loop reads a run of digits and stops. -/
theorem numLoopOf_digits {fl : ParseNumFlags} (hsep : fl.sep = false) (w : Nat) {b : Nat}
    (hb : b ≤ 36) {ds : List UInt8} (hds : AllDigits fl.loc b ds) {rest : List (Option UInt8)}
    (hrest : NoDigit fl.loc b rest) (doneOnce : Bool) (r : NumLoop) :
    ∃ e, numLoopOf fl w b (ds.map some ++ rest) doneOnce r =
        ⟨(ds.map fun c => (asciiDigit fl.loc b c).getD 0).foldl
          (fun v d => (v * b + d) % 2 ^ w) r.ret, r.len - ds.length, e⟩ ∧
      (fl.overflow = false → e = r.err) := by
  induction ds generalizing doneOnce r with
  | nil =>
    refine ⟨r.err, ?_, fun _ => rfl⟩
    cases rest with
    | nil => rfl
    | cons x xs =>
      rw [List.map_nil, List.nil_append, numLoopOf, hrest x xs rfl, hsep]
      simp
  | cons c ds ih =>
    obtain ⟨d, hd⟩ := Option.isSome_iff_exists.mp (hds c List.mem_cons_self)
    have hc : c ≠ 0x5F := by
      rintro rfl
      rw [asciiDigit_underscore _ hb] at hd
      cases hd
    obtain ⟨e, he, hov⟩ := ih (fun c' hc' => hds c' (List.mem_cons_of_mem _ hc')) true
      (parseNumCalc fl w b d r)
    refine ⟨e, ?_, fun h => ?_⟩
    · rw [List.map_cons, List.cons_append, numLoopOf, Option.getD_some, if_neg (fun h => hc h.2),
        hd]
      dsimp only
      rw [he, List.map_cons, List.foldl_cons, hd, List.length_cons]
      congr 1
      change r.len - 1 - ds.length = r.len - (ds.length + 1)
      omega
    · rw [hov h, parseNumCalc, h]
      simp

end Vstr
