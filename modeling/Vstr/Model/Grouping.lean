import Vstr.Model.Add
import Vstr.Model.Del

/-!
# Thousands grouping

The locale of a configuration says how digits of a number base are grouped. The loops are
unbounded in the source: where the arithmetic of `unsigned int` wraps they may not come
back, so they take fuel here.
-/

namespace Vstr

/-- `Vstr_locale_num_base`, as far as grouping goes; `grouping` is without its zero byte. -/
structure LocaleNumBase where
  /-- The number base, zero for the default. -/
  numBase : Nat
  /-- Group sizes, from the right. -/
  grouping : List UInt8
  /-- `thousands_sep_ref`. -/
  sepRef : Nat
  /-- `thousands_sep_len`. -/
  sepLen : Nat

/-- `vstr__loc_num_srch`, without a clone. -/
def locNumSrch (loc : List LocaleNumBase) (numBase : Nat) : Option LocaleNumBase :=
  (loc.find? fun b => b.numBase = numBase).or (loc.find? fun b => b.numBase = 0)

/-- The loop of `vstr__add_fmt_grouping_mod`; `SCHAR_MAX` ends grouping. -/
def groupingModLoop : Nat → List UInt8 → Nat → Nat → Option Nat
  | 0, _, _, _ => none
  | _ + 1, [], tmp, num => some (num - tmp)
  | fuel + 1, g :: gs, tmp, num =>
    if g.toNat < 127 ∧ (tmp + g.toNat) % 2 ^ 32 < num then
      groupingModLoop fuel (if gs = [] then g :: gs else gs) ((tmp + g.toNat) % 2 ^ 32) num
    else some (num - tmp)

/-- `vstr__add_fmt_grouping_mod`: how many digits stand in front of the first separator. -/
def groupingMod (fuel : Nat) (grouping : List UInt8) (num : Nat) : Option Nat :=
  if grouping = [] then some num else groupingModLoop fuel grouping 0 num

/-- The loop of `vstr__add_fmt_grouping_num_sz`. -/
def groupingNumSzLoop (grouping : List UInt8) (sepLen : Nat) : Nat → Nat → Nat → Bool → Option Nat
  | 0, _, _, _ => none
  | fuel + 1, len, ret, done =>
    if len = 0 then some ret
    else
      match groupingMod fuel grouping (len % 2 ^ 32) with
      | none => none
      | some num =>
        groupingNumSzLoop grouping sepLen fuel (len - num)
          ((if done then ret + sepLen else ret) + num) true

/-- `vstr__add_fmt_grouping_num_sz`: the length of `len` digits with their separators. -/
def groupingNumSz (fuel : Nat) (loc : List LocaleNumBase) (numBase len : Nat) : Option Nat :=
  match locNumSrch loc numBase with
  | none => none
  | some srch => groupingNumSzLoop srch.grouping srch.sepLen fuel len 0 false

/-- The loop of the `vstr_sc_add_grpbasenum` functions: `digits off` are the digits from
`off` on. The result is whether all went in, the end of what did, and the state. -/
def scAddGrpLoop (srch : LocaleNumBase) (sep : AddKind) (digits : Nat → AddKind) :
    Nat → St → Nat → Nat → Nat → Bool → Option (Bool × Nat × St)
  | 0, _, _, _, _, _ => none
  | fuel + 1, s, pos, off, len, done =>
    if len = 0 then some (true, pos, s)
    else
      match groupingMod fuel srch.grouping (len % 2 ^ 32) with
      | none => none
      | some num =>
        match (if done then sep.add s pos srch.sepLen else (true, s)) with
        | (false, s) => some (false, pos, s)
        | (true, s) =>
          let pos := if done then pos + srch.sepLen else pos
          match (digits off).add s pos num with
          | (false, s) => some (false, pos, s)
          | (true, s) =>
            scAddGrpLoop srch sep digits fuel s (pos + num) (off + num) (len - num) true

/-- The end of the `vstr_sc_add_grpbasenum` functions: what went in is deleted when
something did not. -/
def scAddGrp (fuel : Nat) (srch : LocaleNumBase) (sep : AddKind) (digits : Nat → AddKind) (s : St)
    (pos len : Nat) : Option (Bool × St) :=
  match scAddGrpLoop srch sep digits fuel s pos 0 len false with
  | none => none
  | some (true, _, s) => some (true, s)
  | some (false, p, s) => some (false, (del s (pos + 1) (p - pos)).2)

/-- `vstr_sc_add_grpbasenum_buf`. -/
def scAddGrpbasenumBuf (fuel : Nat) (loc : List LocaleNumBase) (s : St) (pos numBase : Nat)
    (buf : Addr) (len : Nat) : Option (Bool × St) :=
  match locNumSrch loc numBase with
  | none => none
  | some srch => scAddGrp fuel srch (.buf (s.heap.refs srch.sepRef).ptr)
    (fun off => .buf (buf.add off)) s pos len

end Vstr
