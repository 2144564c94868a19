import Mathlib.Logic.Function.Basic

/-!
# Groups of references

`vstr__ref_grp_make`, `vstr__ref_grp_free`, `vstr__ref_grp_add` and the callback of the
references in a group. A configuration points to at most one group for each callback; groups
that it does not point to any more live on until their references are gone. Memory is read and
written only where there is a group: `none` is an access to memory that is not there.
-/

namespace Vstr.Grp

/-- The callbacks groups are made with. -/
inductive RefFunc where
  /-- `vstr_ref_cb_free_nothing`. -/
  | nothing
  /-- `vstr__ref_cb_relink_bufnode_ref`. -/
  | relink
  deriving DecidableEq, Repr

/-- `VSTR__REF_GRP_MAKE_SZ`. -/
def refGrpMakeSz : Nat := 42

/-- `Vstr_ref_grp_ptr`. -/
structure RefGrp where
  /-- `make_num`. -/
  makeNum : Nat
  /-- `free_num`. -/
  freeNum : Nat
  /-- `VSTR__FLAG_REF_GRP_REF`. -/
  flag : Bool
  /-- `func`. -/
  func : RefFunc
  /-- The slots of `refs` whose `func` is not `NULL`. -/
  refs : Nat → Bool

/-- The groups of a configuration, and its two pointers. -/
structure Grps where
  /-- The groups that there are. -/
  grp : Nat → Option RefGrp
  /-- Groups made so far. -/
  made : Nat
  /-- How often the memory of a group was given back. -/
  freed : Nat → Nat
  /-- `ref_grp_ptr` and `ref_grp_buf2ref`. -/
  ptr : RefFunc → Option Nat

variable (w : Grps)

/-- A group is written. -/
def Grps.set (g : Nat) (p : RefGrp) : Grps :=
  { w with grp := Function.update w.grp g (some p) }

/-- A group is not there any more. -/
def Grps.without (g : Nat) : Grps :=
  { w with
    grp := Function.update w.grp g none
    freed := Function.update w.freed g (w.freed g + 1) }

/-- `VSTR__F` of a group. -/
def Grps.release (g : Nat) : Option Grps := (w.grp g).map fun _ => w.without g

/-- `vstr__ref_grp_make`; the memory of the slots is as `malloc` left it, or there is none. -/
def refGrpMake (func : RefFunc) (mem : Option (Nat → Bool)) : Option Nat × Grps :=
  match mem with
  | none => (none, w)
  | some refs => (some w.made, { w.set w.made ⟨0, 0, true, func, refs⟩ with made := w.made + 1 })

/-- `vstr__ref_grp_free`. -/
def refGrpFree : Option Nat → Option Grps
  | none => some w
  | some parent =>
    (w.grp parent).bind fun p =>
      if p.makeNum = 0 then w.release parent else some (w.set parent { p with flag := false })

/-- The next slot of a group. -/
def refGrpTake (parent : Nat) : Option (Option (Nat × Nat) × Grps) :=
  (w.grp parent).map fun p =>
    (some (parent, p.makeNum),
      w.set parent
        { p with makeNum := p.makeNum + 1, refs := Function.update p.refs p.makeNum true })

/-- `vstr__ref_grp_add`; `mem` is for the group that takes the place of a full one. -/
def refGrpAdd (func : RefFunc) (mem : Option (Nat → Bool)) : Option (Option (Nat × Nat) × Grps) :=
  (w.ptr func).bind fun parent =>
    (w.grp parent).bind fun p =>
      if p.makeNum = refGrpMakeSz then
        match refGrpMake w p.func mem with
        | (none, w) => some (none, w)
        | (some tmp, w) =>
          (refGrpFree w (some parent)).bind fun w =>
            refGrpTake { w with ptr := Function.update w.ptr func (some tmp) } tmp
      else refGrpTake w parent

/-- What the users of the groups do: a first group is made where there is none. -/
def refGrpUse (func : RefFunc) (mem mem' : Option (Nat → Bool)) :
    Option (Option (Nat × Nat) × Grps) :=
  match w.ptr func with
  | some _ => refGrpAdd w func mem'
  | none =>
    match refGrpMake w func mem with
    | (none, w) => some (none, w)
    | (some tmp, w) => refGrpAdd { w with ptr := Function.update w.ptr func (some tmp) } func mem'

/-- The loop that gives back the free slots at the top; below the first slot there is nothing
to read. -/
def refGrpShrink (refs : Nat → Bool) : Nat → Nat → Option (Nat × Nat)
  | 0, _ => none
  | makeNum + 1, freeNum =>
    if refs makeNum then some (makeNum + 1, freeNum) else refGrpShrink refs makeNum (freeNum - 1)

/-- `vstr__ref_cb_free_grp_main`, behind the call of `func`. -/
def cbFreeGrpDone (parent off : Nat) : Option Grps :=
  (w.grp parent).bind fun p =>
    let refs := Function.update p.refs off false
    let freeNum := p.freeNum + 1
    if freeNum = p.makeNum then
      if p.flag then some (w.set parent { p with freeNum := 0, makeNum := 0, refs := refs })
      else w.release parent
    else
      (refGrpShrink refs p.makeNum freeNum).map fun n =>
        w.set parent { p with makeNum := n.1, freeNum := n.2, refs := refs }

/-- `vstr__ref_cb_free_grp_main`; `func` is the callback of the group. -/
def cbFreeGrpMain (func : Grps → Option Grps) (parent off : Nat) : Option Grps :=
  (w.grp parent).bind fun _ => (func w).bind fun w => cbFreeGrpDone w parent off

/-- `vstr__del_conf`, as far as groups go. -/
def delConfGrps : Option Grps :=
  (refGrpFree w (w.ptr .nothing)).bind fun w =>
    (refGrpFree w (w.ptr .relink)).map fun w => { w with ptr := fun _ => none }

/-! ## A run -/

/-- The groups, and the references that were handed out. -/
structure State where
  /-- The groups. -/
  grps : Grps
  /-- There is a configuration. -/
  conf : Bool
  /-- References that somebody holds. -/
  live : List (Nat × Nat)
  /-- References nobody holds any more, whose callback has not come back; the last first. -/
  dying : List (Nat × Nat)

/-- What happens to the groups. -/
inductive Event where
  /-- A reference is asked for. -/
  | add (func : RefFunc) (mem mem' : Option (Nat → Bool))
  /-- The last holder of a reference gives it up, and the callback of the group is called. -/
  | enter (r : Nat × Nat)
  /-- The callback of the group comes back. -/
  | leave
  /-- The configuration is destroyed. -/
  | delConf

/-- An event can happen: references are asked of a configuration, each is given up once, and
callbacks come back in turn. -/
def State.Admits (s : State) : Event → Prop
  | .add _ _ _ => s.conf = true
  | .enter r => r ∈ s.live
  | .leave => s.dying ≠ []
  | .delConf => s.conf = true

/-- One event; `none` is an access to memory that is not there. -/
def State.step? (s : State) : Event → Option State
  | .add func mem mem' =>
    (refGrpUse s.grps func mem mem').map fun (r, w) =>
      { s with grps := w, live := r.toList ++ s.live }
  | .enter r =>
    (s.grps.grp r.1).map fun _ => { s with live := s.live.erase r, dying := r :: s.dying }
  | .leave =>
    match s.dying with
    | [] => some s
    | r :: rest => (cbFreeGrpDone s.grps r.1 r.2).map fun w => { s with grps := w, dying := rest }
  | .delConf => (delConfGrps s.grps).map fun w => { s with grps := w, conf := false }

/-- One event that leaves everything alone where it would fail. -/
def State.step (s : State) (e : Event) : State := (s.step? e).getD s

/-- A new configuration. -/
def State.init : State where
  grps := ⟨fun _ => none, 0, fun _ => 0, fun _ => none⟩
  conf := true
  live := []
  dying := []

end Vstr.Grp
