import Mathlib.Data.List.Sort
import Mathlib.Data.Fin.Basic

/-!
# Names of custom formats

The table of a configuration that maps names to the callbacks of custom formats. While
all names are bracketed they are kept in a hash table by their second character; otherwise
they are kept in one list. The lists are sorted by the length of the names.
-/

namespace Vstr.Fmt

/-- `VSTR_TYPE_FMT_*`, without the end. -/
inductive FmtType where
  | int
  | uint
  | long
  | ulong
  | longLong
  | ulongLong
  | ssizeT
  | sizeT
  | ptrdiffT
  | intmaxT
  | uintmaxT
  | double
  | doubleLong
  | ptrVoid
  | ptrChar
  | ptrWcharT
  | errno
  | ptrSignedChar
  | ptrShort
  | ptrInt
  | ptrLong
  | ptrLongLong
  | ptrSsizeT
  | ptrPtrdiffT
  | ptrIntmaxT
  deriving DecidableEq, Repr

/-- A `Vstr__fmt_usr_name_node`. -/
structure UsrNameNode where
  /-- The characters of the name, without the zero behind them. -/
  nameStr : List UInt8
  /-- The callback. -/
  func : Nat
  /-- The types of its arguments. -/
  types : List FmtType
  /-- The number of types, with the end. -/
  sz : Nat
  deriving DecidableEq, Repr

/-- `name_len`. -/
def UsrNameNode.nameLen (n : UsrNameNode) : Nat := n.nameStr.length

/-- The fields of a `Vstr_conf` for custom formats. -/
structure NameConf where
  /-- `fmt_usr_names`: the flat list. -/
  names : List UsrNameNode
  /-- `fmt_usr_name_hash`. -/
  hash : Fin 37 → List UsrNameNode
  /-- `fmt_usr_curly_braces`: all names are bracketed. -/
  curlyBraces : Bool
  /-- `fmt_name_max`: length of the longest name; 0 when it is not known. -/
  nameMax : Nat
  /-- `malloc_bad`. -/
  mallocBad : Bool

/-- The table of a new configuration; `vstr_make_conf` leaves `fmt_name_max` as it finds it. -/
def NameConf.made (nameMax : Nat) : NameConf where
  names := []
  hash := fun _ => []
  curlyBraces := true
  nameMax := nameMax
  mallocBad := false

/-- `vstr__fmt_beg`: the list for names with the second character `val`. -/
def fmtBeg (val : UInt8) : Fin 37 :=
  if h : 0x30 ≤ val.toNat ∧ val.toNat ≤ 0x39 then ⟨val.toNat - 0x30, by omega⟩
  else if h : 0x41 ≤ val.toNat ∧ val.toNat ≤ 0x5A then
    ⟨10 + (val.toNat + 0x20) - 0x61, by omega⟩
  else if h : 0x61 ≤ val.toNat ∧ val.toNat ≤ 0x7A then ⟨10 + val.toNat - 0x61, by omega⟩
  else 36

/-- `VSTR__FMT_ADD_Q`: the name is bracketed, with no such bracket inside. -/
def fmtAddQ (name : List UInt8) (b1 b2 : UInt8) : Bool :=
  name.head? = some b1 && name.getLast? = some b2 &&
    (name.length = 2 || (name.length > 2 && b1 ∉ (name.drop 1).take (name.length - 2) &&
      b2 ∉ (name.drop 1).take (name.length - 2)))

/-- The four tests that a name of the hash table passes. -/
def fmtAddQs (name : List UInt8) : Bool :=
  fmtAddQ name 0x7B 0x7D || fmtAddQ name 0x5B 0x5D || fmtAddQ name 0x3C 0x3E ||
    fmtAddQ name 0x28 0x29

/-- A list of nodes: the flat one, or one of the hash table. -/
def NameConf.chain (c : NameConf) : Option (Fin 37) → List UsrNameNode
  | none => c.names
  | some num => c.hash num

/-- Write a list of nodes. -/
def NameConf.setChain (c : NameConf) (scan : Option (Fin 37)) (l : List UsrNameNode) : NameConf :=
  match scan with
  | none => { c with names := l }
  | some num => { c with hash := Function.update c.hash num l }

/-- `vstr__fmt_usr_srch`: the place of a name. -/
def fmtUsrSrch (c : NameConf) (name : List UInt8) : Option (Option (Fin 37) × Nat) :=
  let same (n : UsrNameNode) : Bool := n.nameLen = name.length && n.nameStr = name
  if c.curlyBraces then
    if fmtAddQs name then
      let scan := some (fmtBeg (name.getD 1 0))
      ((c.chain scan).findIdx? same).map (scan, ·)
    else none
  else ((c.chain none).findIdx? same).map (none, ·)

/-- `vstr__fmt_insert`: before the first name that is not shorter. -/
def fmtInsert (scan : List UsrNameNode) (node : UsrNameNode) : List UsrNameNode :=
  scan.orderedInsert (fun a b => a.nameLen ≤ b.nameLen) node

/-- `vstr__fmt_flatten_hash`. -/
def fmtFlattenHash (c : NameConf) : NameConf where
  names := (List.finRange 37).foldl (fun names num => (c.hash num).foldl fmtInsert names) c.names
  hash := fun _ => []
  curlyBraces := c.curlyBraces
  nameMax := c.nameMax
  mallocBad := c.mallocBad

/-- The loop of `vstr__fmt_usr_match` over a list of the hash table. -/
def matchHashed (fmt : List UInt8) (len : Nat) : List UsrNameNode → Option UsrNameNode
  | [] => none
  | n :: scan =>
    if n.nameLen = len ∧ n.nameStr.take len = fmt.take len then some n
    else if n.nameLen ≤ len then matchHashed fmt len scan
    else none

/-- The loop of `vstr__fmt_usr_match` over the flat list. -/
def matchFlat (fmt : List UInt8) (fmtMaxLen : Nat) : List UsrNameNode → Option UsrNameNode
  | [] => none
  | n :: scan =>
    if n.nameLen ≤ fmtMaxLen then
      if fmt.take n.nameLen = n.nameStr then some n else matchFlat fmt fmtMaxLen scan
    else none

/-- The bracket that closes. -/
def closing (b : UInt8) : Option UInt8 :=
  if b = 0x7B then some 0x7D else if b = 0x5B then some 0x5D
  else if b = 0x3C then some 0x3E else if b = 0x28 then some 0x29 else none

/-- `strchr` for the closing bracket. -/
def closingAt (fmt : List UInt8) : Option Nat :=
  match fmt.head?.bind closing with
  | none => none
  | some b => fmt.findIdx? (· = b)

/-- `vstr__fmt_usr_match`. -/
def fmtUsrMatch (fmt : List UInt8) : StateM NameConf (Option UsrNameNode) := fun c =>
  if c.curlyBraces then
    match closingAt fmt with
    | none => (none, c)
    | some ptr => (matchHashed fmt (ptr + 1) (c.hash (fmtBeg (fmt.getD 1 0))), c)
  else
    let nameMax :=
      if c.nameMax = 0 then c.names.foldl (fun m n => if m < n.nameLen then n.nameLen else m) 0
      else c.nameMax
    (matchFlat fmt (min fmt.length nameMax) c.names, { c with nameMax := nameMax })

/-- `vstr_fmt_add`; `granted` answers the allocations of the call, the first one with 0. -/
def fmtAdd (granted : Nat → Bool) (name : List UInt8) (func : Nat) (types : List FmtType) :
    StateM NameConf Bool := fun c =>
  if (fmtUsrSrch c name).isSome then (false, c)
  else if ¬ granted 0 then (false, { c with mallocBad := true })
  else
    let c :=
      if c.curlyBraces && !fmtAddQs name then fmtFlattenHash { c with curlyBraces := false } else c
    let scan := if c.curlyBraces then some (fmtBeg (name.getD 1 0)) else none
    if ¬ (List.range types.length).all (fun i => granted (i + 1)) then
      (false, { c with mallocBad := true })
    else
      let node : UsrNameNode := ⟨name, func, types, types.length + 1⟩
      let c :=
        if c.chain scan = [] ∨ (c.nameMax ≠ 0 ∧ c.nameMax < node.nameLen) then
          { c with nameMax := node.nameLen }
        else c
      (true, c.setChain scan (fmtInsert (c.chain scan) node))

/-- The end of `vstr_fmt_del`: without names there is a hash table again. -/
def fmtDelEnd (c : NameConf) : NameConf :=
  if c.curlyBraces = false ∧ c.names = [] then { c with curlyBraces := true } else c

/-- `vstr_fmt_del`. -/
def fmtDel (name : List UInt8) : StateM NameConf Unit := fun c =>
  match fmtUsrSrch c name with
  | none => ((), fmtDelEnd c)
  | some (scan, i) =>
    let nameMax := if (c.chain scan)[i]?.map UsrNameNode.nameLen = some c.nameMax then 0
      else c.nameMax
    ((), fmtDelEnd { c.setChain scan ((c.chain scan).eraseIdx i) with nameMax := nameMax })

/-- `vstr_fmt_srch`. -/
def fmtSrch (c : NameConf) (name : List UInt8) : Bool := (fmtUsrSrch c name).isSome

end Vstr.Fmt
