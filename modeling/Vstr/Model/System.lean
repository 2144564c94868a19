import Vstr.Model.Add
import Vstr.Model.AddVstr
import Vstr.Model.Del
import Vstr.Model.Export

/-!
# Callers of the library

A program has several strings, memory of its own and uses of references, and calls the
library in any order. How many uses of a reference the program has is a ghost: it counts
what the calls hand out and what the program gives back.
-/

namespace Vstr

/-- Strings in one memory and the uses of references that the program has. -/
structure Sys (k : Nat) where
  /-- Memory and strings. -/
  world : World k
  /-- Uses of references that the program has to give back. -/
  user : Nat → Nat

namespace Sys

/-- One edit of a string. -/
inductive Edit where
  | addBuf (pos : Nat) (buffer : Addr) (len : Nat)
  | addNon (pos len : Nat)
  | addRepChr (pos : Nat) (chr : UInt8) (len : Nat)
  | addPtr (pos : Nat) (ptr : Addr) (len : Nat)
  | addRef (pos ref off len : Nat)
  | del (pos len : Nat)

/-- The call that makes an edit. -/
def Edit.run (s : St) : Edit → Bool × St
  | .addBuf pos buffer len => Vstr.addBuf s pos buffer len
  | .addNon pos len => Vstr.addNon s pos len
  | .addRepChr pos chr len => Vstr.addRepChr s pos chr len
  | .addPtr pos ptr len => Vstr.addPtr s pos ptr len
  | .addRef pos ref off len => Vstr.addRef s pos ref off len
  | .del pos len => Vstr.del s pos len

/-- One call of the library. -/
inductive Act (k : Nat) where
  | edit (i : Fin k) (e : Edit)
  | exportCstrPtr (i : Fin k) (pos len : Nat)
  | exportCstrRef (i : Fin k) (pos len : Nat)
  | refMakeMalloc (len : Nat)
  | refAdd (ref : Nat)
  | refDel (ref : Nat)

/-- What a call returns. -/
inductive Reply where
  | edited (ok : Bool)
  | cstr (ptr : Option Addr)
  | cstrRef (ref : Option (Nat × Nat))
  | made (ref : Option Nat)
  | done

variable {k : Nat}

/-- The program gets one more use of a reference. -/
def gain (user : Nat → Nat) (ref : Nat) : Nat → Nat :=
  fun r => user r + if ref = r then 1 else 0

/-- The program gives one use of a reference back. -/
def lose (user : Nat → Nat) (ref : Nat) : Nat → Nat :=
  fun r => user r - if ref = r then 1 else 0

/-- What a call returns, and the strings, memory and uses after it. -/
def Act.run (t : Sys k) : Act k → Reply × Sys k
  | .edit i e =>
    let r := t.world.on i e.run
    (.edited r.1, { t with world := r.2 })
  | .exportCstrPtr i pos len =>
    let r := t.world.on i (Vstr.exportCstrPtr · pos len)
    (.cstr r.1, { t with world := r.2 })
  | .exportCstrRef i pos len =>
    let r := t.world.on i (Vstr.exportCstrRef · pos len)
    (.cstrRef r.1, ⟨r.2, match r.1 with
      | none => t.user
      | some ref => gain t.user ref.1⟩)
  | .refMakeMalloc len =>
    let r := Vstr.refMakeMalloc t.world.heap len
    (.made r.1, ⟨{ t.world with heap := r.2 }, match r.1 with
      | none => t.user
      | some ref => gain t.user ref⟩)
  | .refAdd ref =>
    (.done, ⟨{ t.world with heap := Vstr.refAdd t.world.heap ref }, gain t.user ref⟩)
  | .refDel ref =>
    (.done, ⟨{ t.world with heap := Vstr.refDel t.world.heap ref }, lose t.user ref⟩)

/-- The state after a call. -/
def Act.step (t : Sys k) (a : Act k) : Sys k := (a.run t).2

/-- The string that a call is about. -/
def Act.string : Act k → Option (Fin k)
  | .edit i _ => some i
  | .exportCstrPtr i _ _ => some i
  | .exportCstrRef i _ _ => some i
  | _ => none

end Sys

end Vstr
