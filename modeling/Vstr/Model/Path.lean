import Vstr.Model.Spn

/-!
# Paths

`vstr_sc_basename` and `vstr_sc_dirname` of `vstr_sc.c`. Both call themselves on what is left
without the slashes at the end; `fuel` bounds the depth.
-/

namespace Vstr

/-- `vstr_sc_basename`: the position and the length of the last component. -/
def scBasename : Nat → Nat → Nat → StateM St (Option (Nat × Nat))
  | 0, _, _ => pure none
  | fuel + 1, pos, len => do
    let ls ← srchChrRev pos len 0x2F
    let endPos := pos + len - 1
    if ls = 0 then pure (some (pos, len))
    else if ls = pos then pure (some (pos, 0))
    else if ls = endPos then do
      let ls ← Spn.chrsRev pos len (some [0x2F])
      scBasename fuel pos (len - ls)
    else pure (some (ls + 1, len - (ls + 1 - pos)))

/-- `vstr_sc_dirname`: the length of the directory. -/
def scDirname : Nat → Nat → Nat → StateM St (Option Nat)
  | 0, _, _ => pure none
  | fuel + 1, pos, len => do
    let ls ← srchChrRev pos len 0x2F
    let endPos := pos + len - 1
    if ls = 0 then pure (some 0)
    else if ls = endPos then do
      let ls ← Spn.chrsRev pos len (some [0x2F])
      if len - ls = 0 then pure (some 1) else scDirname fuel pos (len - ls)
    else do
      let len := ls - pos + 1
      let ls ← Spn.chrsRev pos (len - 1) (some [0x2F])
      pure (some (len - ls))

end Vstr
