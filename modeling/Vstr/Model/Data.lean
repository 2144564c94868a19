import Mathlib.Algebra.Group.Nat.Defs
import Vstr.Lib.Run

/-!
# User data of a configuration

`vstr_data_srch`, `vstr_data_add`, `vstr_data_del` and `vstr_data_get`. An entry whose name is
gone is a hole. Positions count from one; what lies behind the last entry is not initialised.
-/

namespace Vstr.UsrData

/-- `Vstr_data_usr`. -/
structure Ent where
  /-- `name`: the bytes of the string it points to. -/
  name : Option (List UInt8)
  /-- `data`: which reference it is. -/
  data : Option Nat
  deriving DecidableEq, Repr

/-- The user data of a configuration, and the references it may hold. -/
structure State where
  /-- `data_usr_ents`, as it is allocated. -/
  ents : List Ent
  /-- `data_usr_len`. -/
  len : Nat
  /-- `data_usr_sz`. -/
  sz : Nat
  /-- `ref` of each reference. -/
  ref : Nat → Nat
  /-- How often each reference is held from elsewhere. -/
  ext : Nat → Nat

variable (s : State) (name : List UInt8)

/-- `vstr__data_conf_init`; `e` is what the new memory holds. -/
def State.init (e : Ent) (ext : Nat → Nat) : State := ⟨[e], 0, 1, ext, ext⟩

/-- The name at an index. -/
def State.nameAt (i : Nat) : Option (List UInt8) := s.ents[i]? >>= Ent.name

/-- The reference at an index. -/
def State.dataAt (i : Nat) : Option Nat := s.ents[i]? >>= Ent.data

/-- `vstr_ref_add`. -/
def refAdd (ref : Nat → Nat) (r : Nat) : Nat → Nat := fun q => if q = r then ref q + 1 else ref q

/-- `vstr_ref_del`. -/
def refDel (ref : Nat → Nat) (r : Nat) : Nat → Nat := fun q => if q = r then ref q - 1 else ref q

/-- `ref ? vstr_ref_add(ref) : NULL`. -/
def holdData (ref : Nat → Nat) : Option Nat → Nat → Nat
  | none => ref
  | some r => refAdd ref r

/-- `vstr_ref_del`, which takes `NULL` too. -/
def dropData (ref : Nat → Nat) : Option Nat → Nat → Nat
  | none => ref
  | some r => refDel ref r

/-- The loop of `vstr_data_srch` from the index `pos` on, for at most so many turns: a hole is
looked at again. -/
def State.srchLoop : Nat → Nat → Option Nat
  | 0, _ => none
  | fuel + 1, pos =>
    if pos < s.len then
      match s.nameAt pos with
      | none => State.srchLoop fuel pos
      | some n => if n = name then some (pos + 1) else State.srchLoop fuel (pos + 1)
    else some 0

/-- `vstr_data_srch` returns `r`. -/
def State.Srch (r : Nat) : Prop := ∃ fuel, s.srchLoop name fuel 0 = some r

/-- The index of the first hole of a list, or its length. -/
def firstHole : List Ent → Nat
  | [] => 0
  | e :: es => if e.name.isSome then firstHole es + 1 else 0

/-- The index `vstr_data_add` takes. -/
def State.addAt : Nat :=
  let len := if s.len = s.sz then 0 else s.len
  len + firstHole ((s.ents.take s.len).drop len)

/-- An entry is written. -/
def State.write (i : Nat) (data : Option Nat) : State :=
  { s with
    ents := s.ents.set i ⟨some name, data⟩
    ref := holdData s.ref data
    len := if s.len < i + 1 then i + 1 else s.len }

/-- `VSTR__MV`; `mem` is what new memory holds. -/
def State.grow (sz : Nat) (mem : Nat → Ent) : State :=
  { s with ents := s.ents.take sz ++ (List.range' s.sz (sz - s.sz)).map mem, sz }

/-- `vstr_data_add`; `mem` is what new memory holds, if there is any. -/
def State.add (data : Option Nat) (mem : Option (Nat → Ent)) : Nat × State :=
  let i := s.addAt
  if i = s.sz then
    match mem with
    | none => (0, s)
    | some mem => (i + 1, (s.grow (s.sz * 2 % 2 ^ 32) mem).write name i data)
  else (i + 1, s.write name i data)

/-- The end of the last entry that is not a hole. -/
def State.trim : Nat → Nat
  | 0 => 0
  | pos + 1 => if (s.nameAt pos).isSome then pos + 1 else State.trim pos

/-- `vstr_data_del`. -/
def State.del (pos : Nat) : State :=
  let d : State :=
    { s with
      ents := s.ents.set (pos - 1) ⟨none, none⟩
      ref := dropData s.ref (s.dataAt (pos - 1)) }
  if pos = s.len then { d with len := d.trim pos } else d

/-! ## A run -/

/-- What happens to the user data. -/
inductive Step where
  /-- `vstr_data_add`. -/
  | add (name : List UInt8) (data : Option Nat) (mem : Option (Nat → Ent))
  /-- `vstr_data_del`. -/
  | del (pos : Nat)
  /-- A reference is held from elsewhere once more, or made. -/
  | hold (r : Nat)
  /-- A reference is held from elsewhere once less. -/
  | drop (r : Nat)

/-- One step. -/
def State.step : Step → State
  | .add name data mem => (s.add name data mem).2
  | .del pos => s.del pos
  | .hold r => { s with ref := refAdd s.ref r, ext := refAdd s.ext r }
  | .drop r => { s with ref := refDel s.ref r, ext := refDel s.ext r }

/-- A step that the library allows: a reference that is given away is there, and a position is
not behind the last one. -/
def State.Legal : Step → Prop
  | .add _ data _ => ∀ r ∈ data, 0 < s.ref r
  | .del pos => 0 < pos ∧ pos ≤ s.len
  | .hold _ => True
  | .drop r => 0 < s.ext r

/-- The array is not made longer than an `unsigned int` can tell. -/
def State.Meets : Step → Prop
  | .add _ _ _ => s.addAt = s.sz → s.sz < 2 ^ 31
  | _ => True

end Vstr.UsrData
