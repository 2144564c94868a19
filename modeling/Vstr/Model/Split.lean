import Vstr.Model.Sect
import Vstr.Model.Find
import Vstr.Model.Spn

/-!
# Splitting

Section lists of `vstr_sect.c` that sections are added to, and `vstr_split_buf` and
`vstr_split_chrs` of `vstr_split.c`, which differ in how separators are found. Where a loop of
the source makes no progress, as with an empty separator, the fuel runs out and the answer is
`none`. Separators in a row are counted in an `unsigned int`.
-/

namespace Vstr

/-- `Vstr_sects`. -/
structure Sects where
  /-- The sections in use. -/
  ptr : List Sect
  /-- Sections there is room for. -/
  sz : Nat
  /-- `can_add_sz`. -/
  canAddSz : Bool
  /-- `alloc_double`. -/
  allocDouble : Bool
  /-- `malloc_bad`. -/
  mallocBad : Bool
  deriving DecidableEq, Repr

/-- `VSTR_SECTS_DECL`: room for `sz` sections and no more. -/
def Sects.decl (sz : Nat) : Sects := ⟨[], sz, false, true, false⟩

/-- `vstr__sects_add`: more room, a `size_t` of it fits an `unsigned int`. -/
def sectsGrow (h : Heap) (x : Sects) : Bool × Heap × Sects :=
  let dbl := if x.allocDouble then x.sz * 2 % 2 ^ 32 else x.sz
  let sz := if x.sz = 0 then 1 else if dbl ≤ x.sz then (x.sz + 1) % 2 ^ 32 else dbl
  if sz ≤ x.sz then (false, h, { x with mallocBad := true })
  else
    match h.malloc with
    | (false, h) => (false, h, { x with mallocBad := true })
    | (true, h) => (true, h, { x with sz := sz })

/-- `vstr_sects_add`. -/
def sectsAdd (pos len : Nat) (x : Sects) : StateM St (Bool × Sects) := fun s =>
  if x.sz = 0 ∨ x.ptr.length ≥ x.sz then
    if ¬ x.canAddSz then ((false, x), s)
    else
      match sectsGrow s.heap x with
      | (false, h, x) => ((false, x), { s with heap := h })
      | (true, h, x) => ((true, { x with ptr := x.ptr ++ [⟨pos, len⟩] }), { s with heap := h })
  else ((true, { x with ptr := x.ptr ++ [⟨pos, len⟩] }), s)

/-- `VSTR_FLAG_SPLIT_*`. -/
structure SplitFlags where
  /-- `REMAIN`. -/
  remain : Bool
  /-- `BEG_NULL`. -/
  begNull : Bool
  /-- `MID_NULL`. -/
  midNull : Bool
  /-- `END_NULL`. -/
  endNull : Bool
  /-- `POST_NULL`. -/
  postNull : Bool
  /-- `NO_RET`. -/
  noRet : Bool
  deriving DecidableEq, Repr

/-- A split in progress, or returned from: position and length left, sections added, and the
list. -/
structure SplitAt where
  /-- `pos`. -/
  pos : Nat
  /-- `len`. -/
  len : Nat
  /-- `added`. -/
  added : Nat
  /-- `sects`. -/
  sects : Sects
  deriving DecidableEq, Repr

/-- `vstr__split_hdl_err` after a section could not be added: go on, or return a count. -/
def splitHdlErr (fl : SplitFlags) (added : Nat) (x : Sects) : Option Nat × Sects :=
  if x.mallocBad then (some 0, { x with ptr := x.ptr.take (x.ptr.length - added) })
  else if fl.noRet then (some 1, x)
  else (none, x)

/-- Adding a section; the count to return when the list is full and that is an error. -/
def splitAdd (fl : SplitFlags) (pos len : Nat) (a : SplitAt) :
    StateM St (Option Nat × SplitAt) := do
  match ← sectsAdd pos len a.sects with
  | (true, x) => return (none, { a with added := a.added + 1, sects := x })
  | (false, x) =>
    match splitHdlErr fl a.added x with
    | (some ret, x) => return (some ret, { a with sects := x })
    | (none, x) => return (none, { a with added := a.added + 1, sects := x })

/-- How many of `count` null fields the limit leaves room for. -/
def splitCount (fl : SplitFlags) (limit count added : Nat) : Nat :=
  if limit ≠ 0 ∧ count ≥ uintSub limit added then
    uintSub (uintSub limit (if fl.remain then 1 else 0)) added
  else count

/-- The loop over null fields, which are added when `null` is set. -/
def splitNulls (fl : SplitFlags) (null : Bool) (bufLen : Nat) :
    Nat → SplitAt → StateM St (Option Nat × SplitAt)
  | 0, a => return (none, a)
  | count + 1, a => do
    let r ← if null then splitAdd fl a.pos 0 a else pure (none, a)
    match r with
    | (some ret, a) => return (some ret, a)
    | (none, a) =>
      splitNulls fl null bufLen count { a with pos := a.pos + bufLen, len := sizeSub a.len bufLen }

/-- The end of `vstr__split_hdl_null_end` and of `vstr__split_hdl_end`: a last section. -/
def splitLast (fl : SplitFlags) (add : Bool) (a : SplitAt) : StateM St (Nat × Sects) := do
  if add then
    match ← splitAdd fl a.pos a.len a with
    | (some ret, a) => return (ret, a.sects)
    | (none, a) => return (a.added, a.sects)
  else return (a.added, a.sects)

/-- `vstr__split_hdl_null_end`. -/
def splitHdlNullEnd (fl : SplitFlags) (bufLen limit count : Nat) (a : SplitAt) :
    StateM St (Nat × Sects) := do
  let r ← if fl.endNull then splitNulls fl true bufLen (splitCount fl limit count a.added) a
    else pure (none, a)
  match r with
  | (some ret, a) => return (ret, a.sects)
  | (none, a) => splitLast fl ((a.len ≠ 0 ∧ fl.remain) ∨ (a.len = 0 ∧ fl.postNull)) a

/-- `vstr__split_hdl_end`; `split_pos` is zero when no separator is left. -/
def splitHdlEnd (fl : SplitFlags) (limit splitPos : Nat) (a : SplitAt) : StateM St (Nat × Sects) :=
  splitLast fl (if a.len ≠ 0 then fl.remain ∨ splitPos = 0
    else fl.postNull ∧ (limit = 0 ∨ a.added < limit)) a

/-- `vstr__split_hdl_def`. -/
def splitHdlDef (fl : SplitFlags) (splitPos bufLen : Nat) (a : SplitAt) :
    StateM St (Option Nat × SplitAt) := do
  let splitLen := splitPos - a.pos
  match ← splitAdd fl a.pos splitLen a with
  | (some ret, a) => return (some ret, a)
  | (none, a) =>
    return (none, { a with
      pos := a.pos + (splitLen + bufLen), len := sizeSub a.len (splitLen + bufLen) })

/-- How a split finds separators. -/
structure Seps where
  /-- Where the next one is, or zero. -/
  srch : Nat → Nat → StateM St Nat
  /-- Whether there is nothing but separators, and how many stand at the beginning. -/
  nullEnd : Nat → Nat → StateM St (Option (Bool × Nat))
  /-- `buf_len`. -/
  len : Nat

/-- What a turn of the loop comes to. -/
inductive SplitTurn where
  /-- A loop in it does not end. -/
  | stuck
  /-- The value returned, and the list. -/
  | done (ret : Nat × Sects)
  /-- The next turn. -/
  | next (splitPos : Nat) (a : SplitAt)

/-- The turn after sections were added. -/
def SplitTurn.of (splitPos : Nat) : Option Nat × SplitAt → SplitTurn
  | (some ret, a) => .done (ret, a.sects)
  | (none, a) => .next splitPos a

/-- A turn at a separator, with `vstr__split_hdl_null_beg` and `vstr__split_hdl_null_mid`. -/
def splitTurnNull (seps : Seps) (fl : SplitFlags) (limit origPos splitPos : Nat) (a : SplitAt) :
    StateM St SplitTurn := do
  match ← seps.nullEnd a.pos a.len with
  | none => return .stuck
  | some (true, count) =>
    if splitPos = origPos ∧ ¬ fl.begNull then return .done (0, a.sects)
    else return .done (← splitHdlNullEnd fl seps.len limit count a)
  | some (false, count) =>
    return .of splitPos (← splitNulls fl (if splitPos = origPos then fl.begNull else fl.midNull)
      seps.len (splitCount fl limit count a.added) a)

/-- A turn of the loop of `vstr_split_buf` and `vstr_split_chrs`. -/
def splitTurn (seps : Seps) (fl : SplitFlags) (limit origPos splitPos : Nat) (a : SplitAt) :
    StateM St SplitTurn := do
  if a.len = 0 ∨ (limit ≠ 0 ∧ ¬ a.added < uintSub limit (if fl.remain then 1 else 0)) then
    return .done (← splitHdlEnd fl limit splitPos a)
  else
    let splitPos ← seps.srch a.pos a.len
    if splitPos = 0 then return .done (← splitHdlEnd fl limit 0 a)
    else if splitPos = origPos ∨ splitPos = a.pos then
      splitTurnNull seps fl limit origPos splitPos a
    else return .of splitPos (← splitHdlDef fl splitPos seps.len a)

/-- The loop of `vstr_split_buf` and `vstr_split_chrs`. -/
def splitLoop (seps : Seps) (fl : SplitFlags) (limit origPos : Nat) :
    Nat → Nat → SplitAt → StateM St (Option (Nat × Sects))
  | 0, _, _ => return none
  | fuel + 1, splitPos, a => do
    match ← splitTurn seps fl limit origPos splitPos a with
    | .stuck => return none
    | .done ret => return some ret
    | .next splitPos a => splitLoop seps fl limit origPos fuel splitPos a

/-! ## A string of separators -/

/-- `vstr_cmp_buf_eq`, for a buffer that may be `NULL`. -/
def cmpAnyBufEq (pos len : Nat) : Buf → StateM St Bool
  | .bytes buf => cmpBufEq pos len buf
  | .null bufLen => do
    if len = bufLen then return (← cmpAnyBuf pos len (.null bufLen)) == .eq else return false

/-- The loop of `vstr__split_buf_null_end`: whether the rest is made of separators, and how
many stand at its beginning. -/
def splitNullRun (buf : Buf) : Nat → Nat → Nat → Nat → StateM St (Option (Bool × Nat))
  | 0, _, _, _ => return none
  | fuel + 1, pos, len, num => do
    if len ≥ buf.len then
      if ← cmpAnyBufEq pos buf.len buf then
        splitNullRun buf fuel (pos + buf.len) (len - buf.len) ((num + 1) % 2 ^ 32)
      else return some (false, num)
    else return some (decide (len = 0), num)

/-- `vstr__split_buf_null_end`, with `more` fuel than there are bytes. -/
def splitBufNullEnd (more pos len : Nat) (buf : Buf) : StateM St (Option (Bool × Nat)) := do
  if len = buf.len then return some (true, 1)
  else splitNullRun buf (len + 1 + more) (pos + buf.len) (len - buf.len) 1

/-- The separators of `vstr_split_buf`. -/
def bufSeps (more : Nat) (buf : Buf) : Seps where
  srch pos len := srchAnyBufFwd pos len buf
  nullEnd pos len := splitBufNullEnd more pos len buf
  len := buf.len

/-- `vstr_split_buf`, with `more` fuel than there are bytes: the value returned and the list. -/
def splitBufMore (more pos len : Nat) (buf : Buf) (sects : Sects) (limit : Nat) (fl : SplitFlags) :
    StateM St (Option (Nat × Sects)) :=
  splitLoop (bufSeps more buf) fl limit pos (len + 1 + more) 0 ⟨pos, len, 0, sects⟩

/-- `vstr_split_buf`. -/
def splitAnyBuf (pos len : Nat) (buf : Buf) (sects : Sects) (limit : Nat) (fl : SplitFlags) :
    StateM St (Option (Nat × Sects)) :=
  splitBufMore 0 pos len buf sects limit fl

/-- The loop of `vstr_split_buf` for a buffer that is not `NULL`. -/
def splitBufLoop (fl : SplitFlags) (buf : List UInt8) (limit origPos fuel splitPos : Nat)
    (a : SplitAt) : StateM St (Option (Nat × Sects)) :=
  splitLoop (bufSeps 0 (.bytes buf)) fl limit origPos fuel splitPos a

/-- `vstr_split_buf` for a buffer that is not `NULL`. -/
def splitBuf (pos len : Nat) (buf : List UInt8) (sects : Sects) (limit : Nat) (fl : SplitFlags) :
    StateM St (Option (Nat × Sects)) :=
  splitAnyBuf pos len (.bytes buf) sects limit fl

/-! ## A set of separators -/

/-- `vstr_srch_chrs_fwd`. -/
def srchChrsFwd (pos len : Nat) (chrs : Option (List UInt8)) : StateM St Nat := do
  let num ← Cspn.chrsFwd pos len chrs
  if num = len then return 0 else return pos + num

/-- The separators of `vstr_split_chrs`; the span is cut to an `unsigned int`. -/
def chrsSeps (chrs : Option (List UInt8)) : Seps where
  srch pos len := srchChrsFwd pos len chrs
  nullEnd pos len := do
    let count := (← Spn.chrsFwd pos len chrs) % 2 ^ 32
    return some (decide (count = len), count)
  len := 1

/-- `vstr_split_chrs`. -/
def splitChrs (pos len : Nat) (chrs : Option (List UInt8)) (sects : Sects) (limit : Nat)
    (fl : SplitFlags) : StateM St (Option (Nat × Sects)) :=
  splitLoop (chrsSeps chrs) fl limit pos (len + 1) 0 ⟨pos, len, 0, sects⟩

end Vstr
