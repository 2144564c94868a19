import Vstr.Fmt.Sequential

/-!
# The layout of a number

The pieces that `vstr__add_fmt_number` adds are a field: a sign, a prefix and digits, with
spaces or zeros up to the field width. The width counts down in the code; the field says what
it counts.
-/

namespace Vstr.Fmt

variable {width width' : Nat} {left zero : Bool} {sgn pre ds : List UInt8} {spec : FmtSpec}

/-- A number in a field: the padding is behind, or between the prefix and the digits, or in
front. -/
def field (width : Nat) (left zero : Bool) (sgn pre ds : List UInt8) : List UInt8 :=
  let n := sgn.length + pre.length + ds.length
  if left then sgn ++ pre ++ ds ++ List.replicate (width - n) 0x20
  else if zero then sgn ++ pre ++ List.replicate (width - n) 0x30 ++ ds
  else List.replicate (width - n) 0x20 ++ sgn ++ pre ++ ds

/-- A field is as wide as it has to be. -/
theorem length_field (width : Nat) (left zero : Bool) (sgn pre ds : List UInt8) :
    (field width left zero sgn pre ds).length =
      max width (sgn.length + pre.length + ds.length) := by
  unfold field
  dsimp only
  split
  · simp only [List.length_append, List.length_replicate]
    omega
  · split
    · simp only [List.length_append, List.length_replicate]
      omega
    · simp only [List.length_append, List.length_replicate]
      omega

/-- A width up to the length of the number makes no difference. -/
theorem field_of_le (h : width ≤ sgn.length + pre.length + ds.length) (left zero : Bool) :
    field width left zero sgn pre ds = sgn ++ pre ++ ds := by
  unfold field
  dsimp only
  rw [Nat.sub_eq_zero_of_le h]
  cases left <;> cases zero <;> simp

/-- The number of characters that are not spaces, when the field is not filled with zeros. -/
theorem countP_field (p : UInt8 → Bool) (hp : p 0x20 = false) (width : Nat) (left : Bool)
    (sgn pre ds : List UInt8) :
    (field width left false sgn pre ds).countP p = sgn.countP p + pre.countP p + ds.countP p := by
  have hr : ∀ n, (List.replicate n (0x20 : UInt8)).countP p = 0 := fun n => by
    rw [List.countP_replicate, hp]
    rfl
  unfold field
  cases left <;> simp [hr] <;> omega

/-! ## The pieces of a number -/

/-- `wr_hex_0x`. -/
def fmtHex (spec : FmtSpec) : Bool := spec.special && spec.numBase = 16 && !spec.numIsZero

/-- The prefix of a number. -/
def fmtPrefix (spec : FmtSpec) : List UInt8 :=
  if fmtHex spec then [0x30, chrsBase spec.large 33] else []

/-- The digits that are at least printed. -/
def fmtLeast (spec : FmtSpec) (i : Nat) : Nat :=
  let precision := if spec.precUsr then spec.precision else 1
  if spec.special ∧ ¬ fmtHex spec ∧ spec.numBase = 8 ∧
    ((spec.numIsZero ∧ precision = 0) ∨ precision ≤ i) then i + 1 else precision

/-- The digits of a number. -/
def fmtDigits (spec : FmtSpec) : List UInt8 :=
  let buf := addFmtNum spec.large spec.numBase (fmtMember spec)
  List.replicate (fmtLeast spec buf.length - buf.length) 0x30 ++ buf

/-- The field width that counts. -/
def fmtFieldWidth (spec : FmtSpec) : Nat :=
  let fieldWidth := if spec.fieldWidthUsr then spec.fieldWidth else 0
  if spec.sign ∧ fmtSign spec = none then (fieldWidth + 1) % 2 ^ 32 - 1 else fieldWidth

/-- The sign has its place in the field width. -/
theorem fmtSignWidth_eq (spec : FmtSpec) :
    fmtSignWidth spec = fmtFieldWidth spec - (fmtSign spec).toList.length := by
  unfold fmtSignWidth fmtFieldWidth
  dsimp only
  by_cases hs : spec.sign = true
  · cases h : fmtSign spec with
    | none => simp [hs]
    | some c => simp [hs]
  · have hn : fmtSign spec = none := if_neg hs
    simp [hs, hn]

/-- What is left of the field width for padding. -/
theorem fmtPad_eq (spec : FmtSpec) {i : Nat}
    (hi : i = (addFmtNum spec.large spec.numBase (fmtMember spec)).length) :
    (if fmtHex spec then fmtSignWidth spec - 1 - 1 else fmtSignWidth spec) -
        max i (fmtLeast spec i) =
      fmtFieldWidth spec - ((fmtSign spec).toList.length + (fmtPrefix spec).length +
        (fmtDigits spec).length) := by
  rw [fmtSignWidth_eq]
  unfold fmtPrefix fmtDigits
  dsimp only
  rw [← hi, List.length_append, List.length_replicate, ← hi]
  split
  · rw [List.length_cons, List.length_singleton]
    omega
  · rw [List.length_nil]
    omega

/-- A call that adds characters, if there are any to add. -/
theorem text_repChr (c : UInt8) (n : Nat) {P Q : Prop} [Decidable P] [Decidable Q]
    (h : P ↔ Q ∧ n > 0) :
    (if P then [FmtPiece.repChr c n] else []).flatMap FmtPiece.text =
      if Q then List.replicate n c else [] := by
  by_cases hq : Q
  · by_cases hn : n > 0
    · rw [if_pos (h.mpr ⟨hq, hn⟩), if_pos hq]
      simp [FmtPiece.text]
    · obtain rfl : n = 0 := by omega
      rw [if_neg (fun hp => hn (h.mp hp).2), if_pos hq]
      rfl
  · rw [if_neg (fun hp => hq (h.mp hp).1), if_neg hq]
    rfl

/-- The text of a sign. -/
theorem text_sign (sign : Option UInt8) : (match sign with
    | some sign => [FmtPiece.repChr sign 1]
    | none => []).flatMap FmtPiece.text = sign.toList := by
  cases sign <;> rfl

/-- The pieces of a number. -/
theorem addFmtNumber_eq (spec : FmtSpec) : addFmtNumber spec =
    (let buf := addFmtNum spec.large spec.numBase (fmtMember spec)
     let zeropad := spec.zeropad && !spec.precUsr && !spec.left
     let pad := (if fmtHex spec then fmtSignWidth spec - 1 - 1 else fmtSignWidth spec) -
      max buf.length (fmtLeast spec buf.length)
     (if ¬ zeropad ∧ ¬ spec.left ∧ pad > 0 then [.repChr 0x20 pad] else []) ++
      (match fmtSign spec with
        | some sign => [.repChr sign 1]
        | none => []) ++
      (if fmtHex spec then [.repChr 0x30 1, .repChr (chrsBase spec.large 33) 1] else []) ++
      (if zeropad ∧ ¬ spec.left ∧ pad > 0 then [.repChr 0x30 pad] else []) ++
      (if fmtLeast spec buf.length > buf.length then
        [.repChr 0x30 (fmtLeast spec buf.length - buf.length)] else []) ++
      (if buf.length ≠ 0 then [.buf buf] else []) ++
      (if spec.left ∧ pad > 0 then [.repChr 0x20 pad] else [])) := rfl

/-- **The text of a number.** -/
theorem addFmtNumber_text (spec : FmtSpec) :
    (addFmtNumber spec).flatMap FmtPiece.text =
      field (fmtFieldWidth spec) spec.left (spec.zeropad && !spec.precUsr)
        (fmtSign spec).toList (fmtPrefix spec) (fmtDigits spec) := by
  have hpad := fmtPad_eq spec rfl
  have hzeros : ∀ p i : Nat, (if p > i then [FmtPiece.repChr 0x30 (p - i)] else []).flatMap
      FmtPiece.text = List.replicate (p - i) 0x30 := fun p i => by
    rw [text_repChr (Q := True) 0x30 (p - i) (by simp), if_pos trivial]
  have hbuf : ∀ buf : List UInt8, (if buf.length ≠ 0 then [FmtPiece.buf buf] else []).flatMap
      FmtPiece.text = buf := fun buf => by
    cases buf <;> simp [FmtPiece.text]
  have hpre : (if fmtHex spec then [FmtPiece.repChr 0x30 1, .repChr (chrsBase spec.large 33) 1]
      else []).flatMap FmtPiece.text = fmtPrefix spec := by
    unfold fmtPrefix
    split <;> rfl
  rw [addFmtNumber_eq]
  dsimp only
  rw [hpad]
  simp only [List.flatMap_append, text_sign, hpre, hzeros, hbuf, text_repChr _ _ and_assoc.symm,
    text_repChr _ _ Iff.rfl]
  unfold field fmtDigits
  cases spec.left <;> cases (spec.zeropad && !spec.precUsr) <;>
    simp [-List.replicate_append_replicate]

end Vstr.Fmt
