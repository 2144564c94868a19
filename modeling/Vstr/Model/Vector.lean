import Vstr.Model.State

/-!
# The arrays of the vector cache

`vstr__cache_iovec_alloc` with the two arrays as they are allocated, and everything that moves
the arrays, the offset or the number of nodes: the other functions of the vector cache, the
settings `iov_min_alloc` and `iov_min_offset`, and what becomes of the cache of a base. All
numbers are `unsigned int`.
-/

namespace Vstr.Vector

/-- A sum of `unsigned int`. -/
def uint (n : Nat) : Nat := n % 2 ^ 32

/-- `Vstr__cache_data_iovec`, with its arrays. -/
structure Vec where
  /-- `v`. -/
  v : List Iovec
  /-- `t`. -/
  t : List NodeType
  /-- `off`. -/
  off : Nat
  /-- `sz`. -/
  sz : Nat

/-- A base and its configuration, as far as vectors go. -/
structure State where
  /-- `cache_available`. -/
  cacheAvailable : Bool
  /-- The vectors were allocated together with the base. -/
  grpalloc : Bool
  /-- `iovec_upto_date`. -/
  uptoDate : Bool
  /-- `num`. -/
  num : Nat
  /-- The vectors. -/
  vec : Option Vec
  /-- `iov_min_alloc`. -/
  minAlloc : Nat
  /-- `iov_min_offset`. -/
  minOffset : Nat

/-- What is allocated for the vectors. -/
inductive Part where
  /-- The structure. -/
  | vec
  /-- The slot of the cache. -/
  | slot
  /-- The array of vectors. -/
  | v
  /-- The array of types. -/
  | t
  /-- More room for the vectors. -/
  | moreV
  /-- More room for the types. -/
  | moreT
  deriving DecidableEq, Repr

variable {α : Type}

/-- `realloc` of an array; `x` stands for what is not initialised. -/
def resize (x : α) (n : Nat) (xs : List α) : List α :=
  xs.take n ++ List.replicate (n - xs.length) x

/-- Some elements are written from `i` on. -/
def writeAt (xs : List α) (i : Nat) (ys : List α) : List α :=
  xs.take i ++ ys ++ xs.drop (i + ys.length)

/-- `vstr_wrap_memmove` inside an array. -/
def moveTo (xs : List α) (dst src n : Nat) : List α := writeAt xs dst ((xs.drop src).take n)

/-- A vector that is not initialised. -/
def noIov : Iovec := ⟨none, 0⟩

/-- `vstr__cache_iovec_memmove`. -/
def cacheIovecMemmove (s : State) (vec : Vec) : Vec :=
  { vec with
    v := moveTo vec.v s.minOffset vec.off s.num
    t := moveTo vec.t s.minOffset vec.off s.num
    off := s.minOffset }

/-- The first allocation. -/
def cacheIovecMake (s : State) (sz : Nat) (mem : Part → Bool) : Option Vec :=
  let allocSz := uint (sz + s.minAlloc + s.minOffset)
  if mem .vec ∧ mem .slot ∧ mem .v ∧ mem .t then
    some ⟨List.replicate allocSz noIov, List.replicate allocSz .buf, 0, allocSz⟩
  else none

/-- The offset is that of the configuration, where nothing keeps it elsewhere. -/
def cacheIovecAlign (s : State) (sz : Nat) (vec : Vec) : Vec :=
  if ¬ s.uptoDate then { vec with off := s.minOffset }
  else if vec.off > s.minOffset ∧ sz > uintSub vec.sz vec.off then cacheIovecMemmove s vec
  else vec

/-- More room. -/
def cacheIovecGrow (s : State) (sz : Nat) (mem : Part → Bool) (vec : Vec) : Bool × Vec :=
  let allocSz := uint (sz + s.minOffset)
  if ¬ mem .moreV then (false, vec)
  else
    let vec := { vec with v := resize noIov allocSz vec.v }
    if ¬ mem .moreT then (false, vec)
    else (true, { vec with t := resize .buf allocSz vec.t, sz := allocSz })

/-- `vstr__cache_iovec_alloc`; `mem` says which allocations succeed. -/
def cacheIovecAlloc (s : State) (sz : Nat) (mem : Part → Bool) : Bool × State :=
  if ¬ s.cacheAvailable then (false, s)
  else
    match s.vec.or (cacheIovecMake s sz mem) with
    | none => (false, s)
    | some vec =>
      let vec := cacheIovecAlign s sz vec
      if sz > uintSub vec.sz vec.off then
        let r := cacheIovecGrow s sz mem vec
        (r.1, { s with vec := some r.2 })
      else (true, { s with vec := some vec })

/-- `vstr__cache_iovec_reset`. -/
def cacheIovecReset (s : State) : State :=
  match s.vec with
  | none => s
  | some vec =>
    if s.cacheAvailable ∧ vec.sz ≠ 0 then
      { s with
        uptoDate := true
        vec := some { vec with off := if vec.sz > s.minOffset then s.minOffset else 0 } }
    else s

/-- Vectors and types are written from the node at index `i` on. -/
def State.fill (s : State) (i : Nat) (ns : List (Iovec × NodeType)) : State :=
  { s with
    vec := s.vec.map fun vec =>
      { vec with
        v := writeAt vec.v (vec.off + i) (ns.map Prod.fst)
        t := writeAt vec.t (vec.off + i) (ns.map Prod.snd) } }

/-- `vstr__cache_iovec_valid`; `ns` are the vectors of the nodes. -/
def cacheIovecValid (s : State) (ns : List (Iovec × NodeType)) (mem : Part → Bool) :
    Bool × State :=
  if s.uptoDate then (true, s)
  else if s.num = 0 then
    (true, { s with uptoDate := s.cacheAvailable && s.vec.any (·.sz ≠ 0) })
  else
    let r := cacheIovecAlloc s s.num mem
    if r.1 then (true, { r.2.fill 0 ns with uptoDate := true }) else r

/-- `vstr__cache_iovec_maybe_add`, behind the new node was counted. -/
def cacheIovecMaybeAdd (s : State) (n : Iovec × NodeType) (atEnd : Bool) : State :=
  if ¬ s.uptoDate then s
  else
    match s.vec with
    | none => s
    | some vec =>
      if atEnd ∧ s.num ≤ uintSub vec.sz vec.off then s.fill (s.num - 1) [n]
      else if ¬ atEnd ∧ vec.off ≠ 0 then
        { s with vec := some { vec with off := vec.off - 1 } }.fill 0 [n]
      else { s with uptoDate := false }

/-- `vstr__cache_iovec_del_beg`. -/
def cacheIovecDelBeg (s : State) (num : Nat) : State :=
  if s.uptoDate then { s with vec := s.vec.map fun vec => { vec with off := vec.off + num } }
  else s

/-- What `vstr_del` does with vectors of nodes in the middle. -/
def cacheIovecDelMid (s : State) (i num : Nat) : State :=
  if s.uptoDate then
    { s with
      vec := s.vec.map fun vec =>
        { vec with
          v := moveTo vec.v (vec.off + i) (vec.off + i + num) (s.num - (i + num))
          t := moveTo vec.t (vec.off + i) (vec.off + i + num) (s.num - (i + num)) } }
  else s

/-- `vstr_add_iovec_buf_beg` and `vstr_add_iovec_buf_end` at the end. -/
def addIovec (s : State) (sz : Nat) (old new : List (Iovec × NodeType)) (mem mem' : Part → Bool) :
    State :=
  let r := cacheIovecAlloc s (s.num + sz) mem
  if ¬ r.1 then r.2
  else
    let s := (cacheIovecValid r.2 old mem').2
    { s.fill s.num new with num := s.num + new.length, uptoDate := true }

/-! ## A run -/

/-- What happens to a base and its configuration. -/
inductive Step where
  /-- `VSTR_CNTL_CONF_SET_NUM_IOV_MIN_ALLOC`. -/
  | setMinAlloc (val : Int)
  /-- `VSTR_CNTL_CONF_SET_NUM_IOV_MIN_OFFSET`. -/
  | setMinOffset (val : Int)
  /-- `vstr__cache_iovec_alloc`. -/
  | alloc (sz : Nat) (mem : Part → Bool)
  /-- `vstr__cache_iovec_valid`. -/
  | valid (ns : List (Iovec × NodeType)) (mem : Part → Bool)
  /-- A node is added. -/
  | add (n : Iovec × NodeType) (atEnd : Bool)
  /-- `vstr_add_iovec_buf_beg` with room for `sz` more nodes, and `vstr_add_iovec_buf_end`: the
  vectors of the old nodes, and those of the new ones behind them. -/
  | addIovec (sz : Nat) (old new : List (Iovec × NodeType)) (mem mem' : Part → Bool)
  /-- The vector of a node changes. -/
  | edit (i : Nat) (n : Iovec × NodeType)
  /-- Nodes at the beginning go. -/
  | delBeg (num : Nat)
  /-- Nodes behind the beginning go. -/
  | delMid (i num : Nat)
  /-- Any other change of the nodes; the vectors are not kept up. -/
  | change (num : Nat)
  /-- All nodes go. -/
  | clear
  /-- The caches are freed. -/
  | freeCache
  /-- The base is freed, and made again from the spare bases. -/
  | remake

/-- One step. -/
def State.step (s : State) : Step → State
  | .setMinAlloc val => { s with minAlloc := (val % 2 ^ 32).toNat }
  | .setMinOffset val => { s with minOffset := (val % 2 ^ 32).toNat }
  | .alloc sz mem => (cacheIovecAlloc s sz mem).2
  | .valid ns mem => (cacheIovecValid s ns mem).2
  | .add n atEnd => cacheIovecMaybeAdd { s with num := s.num + 1 } n atEnd
  | .addIovec sz old new mem mem' => addIovec s sz old new mem mem'
  | .edit i n => if s.uptoDate then s.fill i [n] else s
  | .delBeg num => { cacheIovecDelBeg s num with num := s.num - num }
  | .delMid i num => { cacheIovecDelMid s i num with num := s.num - num }
  | .change num => { s with uptoDate := false, num }
  | .clear => cacheIovecReset { s with num := 0 }
  | .freeCache =>
    { s with uptoDate := false, vec := if s.grpalloc then s.vec else none }
  | .remake =>
    { s with
      num := 0
      uptoDate := s.grpalloc
      vec := if s.grpalloc then s.vec.map fun vec => { vec with off := s.minOffset } else none }

/-- A new base of a configuration. -/
def State.made (cacheAvailable grpalloc : Bool) (minAlloc minOffset : Nat) : State where
  cacheAvailable := cacheAvailable
  grpalloc := grpalloc
  uptoDate := grpalloc
  num := 0
  vec :=
    if grpalloc then
      let allocSz := uint (1 + minAlloc + minOffset)
      some ⟨List.replicate allocSz noIov, List.replicate allocSz .buf, minOffset, allocSz⟩
    else none
  minAlloc := minAlloc
  minOffset := minOffset

end Vstr.Vector
