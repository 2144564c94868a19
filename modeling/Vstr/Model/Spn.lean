import Vstr.Model.Scan

/-!
# Spans

`vstr_spn.c`: how many bytes at the beginning or the end of a slice belong to a set. The
loops are the same for all sets; a set says what becomes of the nodes of either kind.
-/

namespace Vstr

open Memory

/-- What the bytes of a node with data are to a span. -/
inductive Part where
  /-- All belong; none is looked at. -/
  | all
  /-- None belongs; none is looked at. -/
  | none
  /-- Those belong that pass the test. -/
  | bytes (test : UInt8 → Bool)

/-- A set of bytes, as the loops see it. -/
structure SpanSet where
  /-- `NON` nodes belong. -/
  non : Bool
  /-- The bytes of all other nodes. -/
  data : Part

/-- The forward loops. -/
def spanFwdLoop (h : Heap) (set : SpanSet) : List Iter → Nat
  | [] => 0
  | it :: its =>
    match it.ptr h with
    | none => if set.non then it.len + spanFwdLoop h set its else 0
    | some p =>
      match set.data with
      | .all => it.len + spanFwdLoop h set its
      | .none => 0
      | .bytes test =>
        let count := ((read h.mem p it.len).takeWhile test).length
        if count < it.len then count else it.len + spanFwdLoop h set its

/-- The reverse loops over an iterator: `ret` bytes at the end of what was seen belong. -/
def spanRevSlowLoop (h : Heap) (set : SpanSet) : Nat → List Iter → Nat
  | ret, [] => ret
  | ret, it :: its =>
    match it.ptr h with
    | none => spanRevSlowLoop h set (if set.non then ret + it.len else 0) its
    | some p =>
      match set.data with
      | .all => spanRevSlowLoop h set (ret + it.len) its
      | .none => spanRevSlowLoop h set 0 its
      | .bytes test =>
        let count := ((read h.mem p it.len).reverse.takeWhile test).length
        spanRevSlowLoop h set (if count < it.len then count else ret + it.len) its

/-- The reverse loops over the vectors. -/
def spanRevFastLoop (h : Heap) (set : SpanSet) : List Scan → Nat
  | [] => 0
  | sc :: scs =>
    match sc.str with
    | none => if set.non then sc.scanLen + spanRevFastLoop h set scs else 0
    | some p =>
      match set.data with
      | .all => sc.scanLen + spanRevFastLoop h set scs
      | .none => 0
      | .bytes test =>
        let count := ((read h.mem p sc.scanLen).reverse.takeWhile test).length
        if count < sc.scanLen then count else sc.scanLen + spanRevFastLoop h set scs

/-- A forward loop from the start of its iterator on. -/
def spanFwd (set : SpanSet) (pos len : Nat) : StateM St Nat := fun s =>
  match iterFwdBeg s pos len with
  | (none, s) => (0, s)
  | (some it, s) => (spanFwdLoop s.heap set (iterAll s.base s.base.nodes.length it), s)

/-- A reverse loop from the start of its iterator on. -/
def spanRevSlow (set : SpanSet) (pos len : Nat) : StateM St Nat := fun s =>
  match iterFwdBeg s pos len with
  | (none, s) => (0, s)
  | (some it, s) => (spanRevSlowLoop s.heap set 0 (iterAll s.base s.base.nodes.length it), s)

/-- A reverse loop from the start of its scan on. -/
def spanRevFast (set : SpanSet) (pos len : Nat) : StateM St Nat := fun s =>
  match baseScanRevBeg s pos len with
  | (none, s) => (0, s)
  | (some sc, s) => (spanRevFastLoop s.heap set (scanRevAll s.base sc.num sc), s)

/-! ## Characters -/

/-- The set of `vstr_spn_chrs_*`; no characters stand for `NULL`. -/
def spnSet : Option (List UInt8) → SpanSet
  | none => ⟨true, .none⟩
  | some chrs => ⟨false, .bytes fun c => (memchr chrs c).isSome⟩

/-- The set of `vstr_cspn_chrs_*`. -/
def cspnSet : Option (List UInt8) → SpanSet
  | none => ⟨false, .all⟩
  | some chrs => ⟨true, .bytes fun c => (memchr chrs c).isNone⟩

/-- `!chrs && !base->node_non_used`. -/
def nonUnused (chrs : Option (List UInt8)) (s : St) : Bool :=
  chrs.isNone && !s.base.nodeUsed .non

/-- `vstr__spn_chr_fwd`. -/
def spnChrFwd (pos len : Nat) (chr : UInt8) : StateM St Nat :=
  spanFwd ⟨false, .bytes (· = chr)⟩ pos len

/-- `vstr_spn_chrs_fwd`, with every way it can take. -/
def Spn.chrsFwd (pos len : Nat) (chrs : Option (List UInt8)) : StateM St Nat := fun s =>
  if nonUnused chrs s then (0, s)
  else
    match chrs with
    | some [chr] => spnChrFwd pos len chr s
    | chrs => spanFwd (spnSet chrs) pos len s

/-- `vstr__spn_chrs_rev_slow`. -/
def Spn.chrsRevSlow (pos len : Nat) (chrs : Option (List UInt8)) : StateM St Nat := fun s =>
  if nonUnused chrs s then (0, s) else spanRevSlow (spnSet chrs) pos len s

/-- `vstr__spn_chrs_rev_fast`. -/
def Spn.chrsRevFast (pos len : Nat) (chrs : Option (List UInt8)) : StateM St Nat := fun s =>
  if nonUnused chrs s then (0, s) else spanRevFast (spnSet chrs) pos len s

/-- `vstr_spn_chrs_rev`. -/
def Spn.chrsRev (pos len : Nat) (chrs : Option (List UInt8)) : StateM St Nat := fun s =>
  if s.base.iovecUptoDate then Spn.chrsRevFast pos len chrs s
  else Spn.chrsRevSlow pos len chrs s

/-- `vstr_cspn_chrs_fwd`. -/
def Cspn.chrsFwd (pos len : Nat) (chrs : Option (List UInt8)) : StateM St Nat := fun s =>
  if nonUnused chrs s then (len, s)
  else
    match chrs with
    | some [chr] =>
      let r := srchChrFwd pos len chr s
      (if r.1 = 0 then len else r.1 - pos, r.2)
    | chrs => spanFwd (cspnSet chrs) pos len s

/-- `vstr__cspn_chrs_rev_slow`. -/
def Cspn.chrsRevSlow (pos len : Nat) (chrs : Option (List UInt8)) : StateM St Nat :=
  spanRevSlow (cspnSet chrs) pos len

/-- `vstr__cspn_chrs_rev_fast`. -/
def Cspn.chrsRevFast (pos len : Nat) (chrs : Option (List UInt8)) : StateM St Nat :=
  spanRevFast (cspnSet chrs) pos len

/-- `vstr_cspn_chrs_rev`. -/
def Cspn.chrsRev (pos len : Nat) (chrs : Option (List UInt8)) : StateM St Nat := fun s =>
  if nonUnused chrs s then (len, s)
  else
    match chrs with
    | some [chr] =>
      let r := srchChrRev pos len chr s
      (if r.1 = 0 then len else pos + (len - 1) - r.1, r.2)
    | chrs =>
      if s.base.iovecUptoDate then Cspn.chrsRevFast pos len chrs s
      else Cspn.chrsRevSlow pos len chrs s

/-! ## Byte maps -/

/-- `unsigned char bmap[256]`. -/
abbrev Bmap := UInt8 → UInt8

/-- `vstr_sc_bmap_init_eq_spn_buf`. -/
def scBmapInitEqSpnBuf (bmap : Bmap) (buf : List UInt8) (val : UInt8) : Bmap :=
  buf.foldr (fun c bmap => Function.update bmap c val) bmap

/-- `vstr_sc_bmap_init_or_spn_buf`. -/
def scBmapInitOrSpnBuf (bmap : Bmap) (buf : List UInt8) (val : UInt8) : Bmap :=
  buf.foldr (fun c bmap => Function.update bmap c (bmap c ||| val)) bmap

/-- `vstr_spn_bmap_eq_fwd`. -/
def Spn.bmapEqFwd (pos len : Nat) (bmap : Bmap) (val : UInt8) : StateM St Nat :=
  spanFwd ⟨false, .bytes fun c => bmap c = val⟩ pos len

/-- `vstr_spn_bmap_eq_rev`. -/
def Spn.bmapEqRev (pos len : Nat) (bmap : Bmap) (val : UInt8) : StateM St Nat :=
  spanRevSlow ⟨false, .bytes fun c => bmap c = val⟩ pos len

/-- `vstr_spn_bmap_and_fwd`. -/
def Spn.bmapAndFwd (pos len : Nat) (bmap : Bmap) (val : UInt8) : StateM St Nat :=
  spanFwd ⟨false, .bytes fun c => bmap c &&& val ≠ 0⟩ pos len

/-- `vstr_spn_bmap_and_rev`. -/
def Spn.bmapAndRev (pos len : Nat) (bmap : Bmap) (val : UInt8) : StateM St Nat :=
  spanRevSlow ⟨false, .bytes fun c => bmap c &&& val ≠ 0⟩ pos len

/-- `vstr_cspn_bmap_eq_fwd`. -/
def Cspn.bmapEqFwd (pos len : Nat) (bmap : Bmap) (val : UInt8) : StateM St Nat :=
  spanFwd ⟨true, .bytes fun c => bmap c ≠ val⟩ pos len

/-- `vstr_cspn_bmap_eq_rev`. -/
def Cspn.bmapEqRev (pos len : Nat) (bmap : Bmap) (val : UInt8) : StateM St Nat :=
  spanRevSlow ⟨true, .bytes fun c => bmap c ≠ val⟩ pos len

/-- `vstr_cspn_bmap_and_fwd`. -/
def Cspn.bmapAndFwd (pos len : Nat) (bmap : Bmap) (val : UInt8) : StateM St Nat :=
  spanFwd ⟨true, .bytes fun c => bmap c &&& val = 0⟩ pos len

/-- `vstr_cspn_bmap_and_rev`. -/
def Cspn.bmapAndRev (pos len : Nat) (bmap : Bmap) (val : UInt8) : StateM St Nat :=
  spanRevSlow ⟨true, .bytes fun c => bmap c &&& val = 0⟩ pos len

end Vstr
