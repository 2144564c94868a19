import Vstr.Model.Cache

/-!
# Sections that follow the text

The cache callback of `vstr_sect.c`. Section lists that are registered with a base are
updated by every insertion and deletion; `vstr_sects_update_add` puts a list at the end
of `updates`.
-/

namespace Vstr

/-- `Vstr_sect_node`; a section at position zero is deleted. -/
structure Sect where
  /-- Position of the first byte. -/
  pos : Nat
  /-- Number of bytes. -/
  len : Nat
  deriving DecidableEq, Repr

/-- The callback looks at a section. -/
def Sect.Live (x : Sect) : Prop := x.pos ≠ 0 ∧ x.len ≠ 0

instance (x : Sect) : Decidable x.Live := inferInstanceAs (Decidable (_ ∧ _))

/-- `VSTR_TYPE_CACHE_ADD` for one section. -/
def sectAdd (pos len : Nat) (x : Sect) : Sect :=
  if x.Live then
    let x := if pos < x.pos then { x with pos := x.pos + len } else x
    if pos ≥ x.pos ∧ pos < x.pos + x.len - 1 then { x with len := x.len + len } else x
  else x

/-- `VSTR_TYPE_CACHE_DEL` for one section, with the value that `len` has afterwards. -/
def sectDel (pos len : Nat) (x : Sect) : Nat × Sect :=
  if x.Live then
    if pos ≤ x.pos then
      let tmp := x.pos - pos
      if tmp ≥ len then (len, { x with pos := x.pos - len })
      else
        let len := len - tmp
        if len ≥ x.len then (len, { x with pos := 0 })
        else (len, ⟨x.pos - tmp, x.len - len⟩)
    else if pos ≤ x.pos + x.len - 1 then
      let tmp := pos - x.pos
      if len ≥ x.len - tmp then (len, { x with len := tmp })
      else (len, { x with len := x.len - len })
    else (len, x)
  else (len, x)

/-- The loop over the sections of one list. -/
def sectsDel (pos : Nat) : Nat → List Sect → Nat × List Sect
  | len, [] => (len, [])
  | len, x :: xs =>
    let r := sectDel pos len x
    let rs := sectsDel pos r.1 xs
    (rs.1, r.2 :: rs.2)

/-- The loop over the lists. -/
def updatesDel (pos : Nat) : Nat → List (List Sect) → List (List Sect)
  | _, [] => []
  | len, sects :: updates =>
    let r := sectsDel pos len sects
    r.2 :: updatesDel pos r.1 updates

/-- `vstr__sects_update_cb`. -/
def sectsUpdateCb (pos len : Nat) (type : CacheType) (updates : List (List Sect)) :
    List (List Sect) :=
  match type with
  | .sub => updates
  | .add => updates.map (·.map (sectAdd pos len))
  | .del => updatesDel pos len updates

end Vstr
