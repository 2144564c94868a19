import Mathlib.Data.List.Basic

/-!
# Configurations and those who use them

All configurations, the bases that use them, the groups of buffers that were turned into
references, and the caller's handles. A configuration carries its two counters and
everything that is given back together with it: the spare nodes and bases, the table of cache
callbacks, the locale, the user data, the custom formats and the groups of references. A base
carries its cache slots, each with the name of the callback its data is for. Nodes and bytes
are left out: of the text of a base only its length is kept.
-/

namespace Vstr.Confs

/-- `VSTR_TYPE_CNTL_CONF_GRPALLOC_*`: the caches allocated together with a base. -/
inductive GrpallocCache where
  | none
  | pos
  | iovec
  | cstr
  deriving DecidableEq, Repr

/-- Name of the callback that keeps registered sections. -/
def sectsCb : String := "/vstr__/sects/update"

/-- Names of the callbacks every table starts with. -/
def internalCbs : List String := ["/vstr__/pos", "/vstr__/iovec", "/vstr__/cstr"]

/-- `VSTR__CONF_REF_LINKED_SZ`, half of `UINT_MAX`. -/
def confRefLinkedSz : Nat := 2147483647

/-- `VSTR_MAX_NODE_BUF`. -/
def maxNodeBuf : Nat := 65535

/-- The numbers of spare nodes of each type. -/
structure Spares where
  /-- `spare_buf_num`. -/
  buf : Nat
  /-- `spare_non_num`. -/
  non : Nat
  /-- `spare_ptr_num`. -/
  ptr : Nat
  /-- `spare_ref_num`. -/
  ref : Nat
  deriving DecidableEq, Repr

/-- What a configuration has besides its spare nodes and its cache callbacks. -/
structure Tables where
  /-- `spare_base_beg`: how many cache slots each spare base has. -/
  spareBases : List Nat
  /-- `ref_grp_ptr` is not `NULL`. -/
  refGrpPtr : Bool
  /-- `ref_grp_buf2ref` is not `NULL`. -/
  refGrpBuf2ref : Bool
  /-- `loc`: the `num_base` of the records behind `num_beg`. -/
  loc : Option (List Nat)
  /-- `data_usr_ents`: the names; an entry without one is a hole. -/
  dataUsr : Option (List (Option String))
  /-- The names of `fmt_usr_names` and `fmt_usr_name_hash`. -/
  fmtUsrNames : List String
  /-- `vstr__fmt_spec_make`: how many there are. -/
  fmtSpecMake : Nat
  deriving DecidableEq, Repr

/-- Nothing is left. -/
def Tables.gone : Tables where
  spareBases := []
  refGrpPtr := false
  refGrpBuf2ref := false
  loc := none
  dataUsr := none
  fmtUsrNames := []
  fmtSpecMake := 0

/-- What `vstr__data_conf_init` and `vstr__make_conf_loc_def_numeric` make. -/
def Tables.made : Tables where
  spareBases := []
  refGrpPtr := false
  refGrpBuf2ref := false
  loc := some [0]
  dataUsr := some []
  fmtUsrNames := []
  fmtSpecMake := 0

/-- A `Vstr_conf`. -/
structure Conf where
  /-- References of the caller. -/
  userRef : Nat
  /-- All references. -/
  ref : Nat
  /-- The memory was given back. -/
  freed : Bool
  /-- The group that takes the next converted buffer. -/
  refLink : Option Nat
  /-- Size of the buffer of a BUF node. -/
  bufSz : Nat
  /-- Spare nodes. -/
  spares : Spares
  /-- Names of `cache_cbs_ents`. -/
  cacheCbs : List String
  /-- `cache_pos_cb_sects`, from 1 on; 0 when there is none. -/
  cachePosCbSects : Nat
  /-- What a new base gets. -/
  grpallocCache : GrpallocCache
  /-- The rest of what goes away with it. -/
  tables : Tables
  deriving DecidableEq, Repr

/-- No memory behind the pointer. -/
def Conf.gone : Conf where
  userRef := 0
  ref := 0
  freed := true
  refLink := none
  bufSz := 0
  spares := ⟨0, 0, 0, 0⟩
  cacheCbs := []
  cachePosCbSects := 0
  grpallocCache := .none
  tables := .gone

/-- What `vstr_make_conf` fills in; `64 - (sizeof(Vstr_node_buf) + 8)` is 40. -/
def Conf.made : Conf where
  userRef := 1
  ref := 1
  freed := false
  refLink := none
  bufSz := 40
  spares := ⟨0, 0, 0, 0⟩
  cacheCbs := internalCbs
  cachePosCbSects := 0
  grpallocCache := .pos
  tables := .made

/-- A `Vstr_base`, as far as configurations go. -/
structure Base where
  /-- The configuration it uses. -/
  conf : Nat
  /-- Length of its text. -/
  len : Nat
  /-- `cache_available`. -/
  cacheAvailable : Bool
  /-- `grpalloc_cache`. -/
  grpallocCache : GrpallocCache
  /-- Cache slots; one that is not NULL has the name of the callback it is for. -/
  data : List (Option String)
  deriving DecidableEq, Repr

/-- A `struct Vstr__conf_ref_linked`. -/
structure RefLinked where
  /-- The configuration it holds. -/
  conf : Nat
  /-- Converted buffers that name it. -/
  lRef : Nat
  deriving DecidableEq, Repr

/-- Everything that holds or is held; an entry that is `none` was freed. -/
structure Pool where
  /-- Configurations made so far. -/
  confs : List Conf
  /-- Bases made so far. -/
  bases : List (Option Base)
  /-- Groups made so far. -/
  groups : List (Option RefLinked)
  /-- Converted buffers, with the group each names. -/
  bufs : List (Option Nat)
  /-- References the caller holds. -/
  handles : List (Option Nat)
  /-- `vstr__options.def`. -/
  dflt : Option Nat
  /-- Memory was used after it was freed. -/
  fault : Bool
  /-- Slots handed to a callback, with the name of that callback. -/
  calls : List (String × Option String)
  deriving DecidableEq, Repr

/-- Before `vstr_init`. -/
def Pool.start : Pool := ⟨[], [], [], [], [], none, false, []⟩

namespace Pool

/-- The configuration behind a pointer. -/
def conf (p : Pool) (c : Nat) : Conf := p.confs.getD c .gone

/-- Following a pointer to a configuration that is gone. -/
def touch (p : Pool) (c : Nat) : Pool := { p with fault := p.fault || (p.conf c).freed }

/-- Writing to a configuration. -/
def putConf (p : Pool) (c : Nat) (k : Conf) : Pool := { p.touch c with confs := p.confs.set c k }

/-- Writing the numbers of spare nodes. -/
def putSpares (p : Pool) (c : Nat) (spares : Spares) : Pool :=
  p.putConf c { p.conf c with spares := spares }

/-- Writing the tables. -/
def putTables (p : Pool) (c : Nat) (tables : Tables) : Pool :=
  p.putConf c { p.conf c with tables := tables }

/-- The base behind a pointer. -/
def base (p : Pool) (b : Nat) : Option Base := (p.bases[b]?).join

/-- Writing to a base. -/
def putBase (p : Pool) (b : Nat) (x : Base) : Pool := { p with bases := p.bases.set b (some x) }

/-- The configuration an argument names; `NULL` stands for the default one. -/
def pick (p : Pool) : Option Nat → Option Nat
  | none => p.dflt
  | some h => (p.handles[h]?).join

/-- `vstr__add_conf`. -/
def addConf (p : Pool) (c : Nat) : Pool :=
  p.putConf c { p.conf c with ref := (p.conf c).ref + 1 }

/-- `vstr__add_user_conf`. -/
def addUserConf (p : Pool) (c : Nat) : Pool :=
  (p.putConf c { p.conf c with userRef := (p.conf c).userRef + 1 }).addConf c

/-- `vstr__del_conf`: with the last reference go `vstr__ref_grp_free`, `vstr_free_spare_nodes`,
the records of `loc`, `vstr__data_conf_free`, `vstr__add_fmt_free_conf` and `vstr__del_grpalloc`. -/
def delConf (p : Pool) (c : Nat) : Pool :=
  if (p.conf c).ref - 1 = 0 then
    p.putConf c { p.conf c with
      ref := (p.conf c).ref - 1, freed := true, spares := ⟨0, 0, 0, 0⟩, cacheCbs := [],
      tables := .gone }
  else
    p.putConf c { p.conf c with ref := (p.conf c).ref - 1 }

/-- Making a configuration, whose index is the next free one. -/
def newConf (p : Pool) : Pool := { p with confs := p.confs ++ [Conf.made] }

/-- `vstr_init`. -/
def init (p : Pool) (grant : Bool) : Pool :=
  match p.dflt, grant with
  | none, true => { p.newConf with dflt := some p.confs.length }
  | _, _ => p

/-- `vstr_make_conf`. -/
def makeConf (p : Pool) (grant : Bool) : Pool :=
  if grant then { p.newConf with handles := p.handles ++ [some p.confs.length] } else p

/-- The counters of `vstr_free_conf`. -/
def freeUserConf (p : Pool) (c : Nat) : Pool :=
  (p.putConf c { p.conf c with userRef := (p.conf c).userRef - 1 }).delConf c

/-- `vstr_free_conf`, of a reference the caller holds. -/
def freeConf (p : Pool) (h : Nat) : Pool :=
  match p.pick (some h) with
  | none => p
  | some c => { p.freeUserConf c with handles := p.handles.set h none }

/-- `VSTR_CNTL_OPT_GET_CONF`. -/
def optGetConf (p : Pool) : Pool :=
  match p.dflt with
  | none => p
  | some c => { p.addUserConf c with handles := p.handles ++ [some c] }

/-- `VSTR_CNTL_OPT_SET_CONF`, of a reference the caller holds. -/
def optSetConf (p : Pool) (h : Nat) : Pool :=
  match p.dflt, p.pick (some h) with
  | some c, some v =>
    if c = v then p else { (p.freeUserConf c).addUserConf v with dflt := some v }
  | _, _ => p

/-- `vstr_exit`. -/
def exit (p : Pool) : Pool :=
  match p.dflt with
  | none => p
  | some c => { p.freeUserConf c with dflt := none }

/-- The slots of a new base: the caches allocated together with it. -/
def newSlots : GrpallocCache → List (Option String)
  | .none => []
  | .pos => [some "/vstr__/pos"]
  | .iovec => [some "/vstr__/pos", none]
  | .cstr => [some "/vstr__/pos", none, some "/vstr__/cstr"]

/-- The slots after `vstr__resize_cache` to at least `n`. -/
def resized (data : List (Option String)) (n : Nat) : List (Option String) :=
  data ++ List.replicate (n - data.length) none

/-- The end of `vstr_make_base`: a base with so many cache slots, if it had some before. -/
def initBase (p : Pool) (c sz : Nat) : Pool :=
  let g := (p.conf c).grpallocCache
  { p.addConf c with
    bases := p.bases ++ [some ⟨c, 0, decide (g ≠ .none), g, resized (newSlots g) sz⟩] }

/-- `vstr_make_base`: a spare base is used again, or `vstr__make_base_cache` makes one. -/
def makeBase (p : Pool) (v : Option Nat) (grant : Bool) : Pool :=
  match p.pick v with
  | none => p
  | some c =>
    match (p.conf c).tables.spareBases with
    | sz :: rest => (p.putTables c { (p.conf c).tables with spareBases := rest }).initBase c sz
    | [] => if grant then p.initBase c 0 else p.touch c

/-- The slots `vstr__cache_cbs` passes over when it skips the internal ones. -/
def skipped : GrpallocCache → Nat
  | .none => 0
  | .pos => 1
  | .iovec => 2
  | .cstr => 3

/-- `vstr__cache_cbs` from slot `first` on: every slot that is not NULL goes to the callback
at its index, and keeps data if that callback gives some back. -/
def cacheCbs (p : Pool) (b first : Nat) (answer : Nat → Bool) : Pool :=
  match p.base b with
  | none => p
  | some x =>
    if x.cacheAvailable then
      let p := p.touch x.conf
      let calls := x.data.zipIdx.filterMap fun (o, i) =>
        if first ≤ i then o.map fun n => (n, (p.conf x.conf).cacheCbs[i]?) else none
      { p.putBase b { x with
          data := x.data.mapIdx fun i o => if i < first ∨ answer i then o else none } with
        calls := p.calls ++ calls }
    else p

/-- `vstr_cache_cb_free`: one slot, or every slot but those allocated with the base. -/
def cacheCbFree (p : Pool) (b num : Nat) : Pool :=
  match p.base b with
  | none => p
  | some x =>
    if x.cacheAvailable then
      if 1 ≤ num ∧ num ≤ skipped x.grpallocCache then p
      else if 1 ≤ num ∧ num ≤ x.data.length then
        let p := p.touch x.conf
        match x.data[num - 1]?.join with
        | none => p
        | some n =>
          { p.putBase b { x with data := x.data.set (num - 1) none } with
            calls := p.calls ++ [(n, (p.conf x.conf).cacheCbs[num - 1]?)] }
      else p.cacheCbs b (skipped x.grpallocCache) fun _ => false
    else p

/-- The buffer of a reference is a spare node again. -/
def relinkBuf (p : Pool) (c : Nat) : Pool :=
  p.putSpares c { (p.conf c).spares with buf := (p.conf c).spares.buf + 1 }

/-- The configuration forgets a group that goes away. -/
def unlink (p : Pool) (g c : Nat) : Pool :=
  if (p.conf c).refLink = some g then p.putConf c { p.conf c with refLink := none } else p

/-- A group goes away, and with it its hold on the configuration. -/
def freeLink (p : Pool) (g c : Nat) : Pool :=
  { p.unlink g c with groups := p.groups.set g none }.delConf c

/-- `vstr__ref_cb_relink_bufnode_ref`: the last reference to a converted buffer is gone. -/
def dropRef (p : Pool) (k : Nat) : Pool :=
  match (p.bufs[k]?).join with
  | none => p
  | some g =>
    match (p.groups[g]?).join with
    | none => { p with fault := true }
    | some ln =>
      let p := { p.relinkBuf ln.conf with bufs := p.bufs.set k none }
      if ln.lRef - 1 = 0 then p.freeLink g ln.conf
      else { p with groups := p.groups.set g (some { ln with lRef := ln.lRef - 1 }) }

/-- The references that go away one after the other. -/
def dropRefs (p : Pool) (ks : List Nat) : Pool := ks.foldl dropRef p

/-- Nodes go to the spare lists. -/
def relinkNodes (p : Pool) (c : Nat) (nodes : Spares) : Pool :=
  let old := (p.conf c).spares
  p.putSpares c ⟨old.buf + nodes.buf, old.non + nodes.non, old.ptr + nodes.ptr, old.ref + nodes.ref⟩

/-- A base that has the caches a new one would get is kept. -/
def keepBase (p : Pool) (x : Base) : Pool :=
  let tables := (p.conf x.conf).tables
  if x.grpallocCache = (p.conf x.conf).grpallocCache then
    p.putTables x.conf { tables with spareBases := x.data.length :: tables.spareBases }
  else p.touch x.conf

/-- `vstr_free_base`; deleting its text makes its nodes spare ones and drops the last reference
to some converted buffers. -/
def freeBase (p : Pool) (b : Nat) (ks : List Nat) (nodes : Spares) : Pool :=
  let p := p.cacheCbs b 0 fun _ => false
  match p.base b with
  | none => p
  | some x =>
    { ((p.dropRefs ks).relinkNodes x.conf nodes).keepBase x with
      bases := p.bases.set b none }.delConf x.conf

/-- `VSTR_CNTL_BASE_GET_CONF`. -/
def baseGetConf (p : Pool) (b : Nat) : Pool :=
  match p.base b with
  | none => p
  | some x => { p.addUserConf x.conf with handles := p.handles ++ [some x.conf] }

/-- `vstr__cache_subset_cbs`: the names of the first table start the second. -/
def subsetCbs (ful sub : Conf) : Bool := decide (ful.cacheCbs <+: sub.cacheCbs)

/-- `vstr__cache_dup_cbs`: the entries of `dup` over the first ones of `k`. -/
def dupCbs (k dup : Conf) : List String := dup.cacheCbs ++ k.cacheCbs.drop dup.cacheCbs.length

/-- `vstr__add_base_conf`. -/
def addBaseConf (p : Pool) (b : Nat) (x : Base) (c : Nat) : Pool :=
  (p.putBase b { x with conf := c }).addConf c

/-- `VSTR_CNTL_BASE_SET_CONF`. -/
def baseSetConf (p : Pool) (b : Nat) (v : Option Nat) : Bool × Pool :=
  match p.base b, p.pick v with
  | some x, some c =>
    if x.conf = c then (true, p)
    else
      let p := (p.touch x.conf).touch c
      if ((p.conf c).bufSz = (p.conf x.conf).bufSz ∨ x.len = 0) ∧
          subsetCbs (p.conf c) (p.conf x.conf) then
        (true, (p.delConf x.conf).addBaseConf b x c)
      else (false, p)
  | _, _ => (false, p)

/-- The end of `vstr_swap_conf`: the base and the caller change configurations. -/
def swapUsers (p : Pool) (b : Nat) (x : Base) (h c : Nat) : Pool :=
  let p := p.putConf c { p.conf c with userRef := (p.conf c).userRef - 1 }
  let p := p.putConf x.conf { p.conf x.conf with userRef := (p.conf x.conf).userRef + 1 }
  { p.putBase b { x with conf := c } with handles := p.handles.set h (some x.conf) }

/-- A configuration without bases takes over a buffer size; its spare buffers are freed. -/
def takeBufSz (p : Pool) (c sz : Nat) : Pool :=
  if sz ≠ (p.conf c).bufSz then
    p.putConf c { p.conf c with spares := { (p.conf c).spares with buf := 0 }, bufSz := sz }
  else p

/-- `vstr_swap_conf`, with a reference the caller holds. -/
def swapConf (p : Pool) (b h : Nat) (grant : Bool) : Bool × Pool :=
  match p.base b, p.pick (some h) with
  | some x, some c =>
    if x.conf = c then (true, p)
    else
      let p := (p.touch x.conf).touch c
      let canChange := (p.conf c).userRef = (p.conf c).ref
      if (p.conf x.conf).bufSz ≠ (p.conf c).bufSz ∧ ¬ canChange then (false, p)
      else
        let p := p.takeBufSz c (p.conf x.conf).bufSz
        if subsetCbs (p.conf x.conf) (p.conf c) then (true, p.swapUsers b x h c)
        else if canChange then
          if (p.conf c).cacheCbs.length < (p.conf x.conf).cacheCbs.length ∧ grant = false then
            (false, p)
          else
            let p := p.putConf c { p.conf c with cacheCbs := dupCbs (p.conf c) (p.conf x.conf) }
            (true, p.swapUsers b x h c)
        else (false, p)
  | _, _ => (false, p)

/-- What the allocator gives to a conversion. -/
structure ConvertGrants where
  /-- A spare REF node. -/
  node : Bool
  /-- The reference. -/
  ref : Bool
  /-- A group. -/
  link : Bool
  deriving DecidableEq, Repr

/-- One more buffer in a group; a full group takes no more. -/
def joinLink (p : Pool) (c g : Nat) (ln : RefLinked) : Pool :=
  let p := { p with
    groups := p.groups.set g (some { ln with lRef := ln.lRef + 1 }), bufs := p.bufs ++ [some g] }
  if confRefLinkedSz ≤ ln.lRef + 1 then p.putConf c { p.conf c with refLink := none } else p

/-- A new group, which holds the configuration. -/
def newLink (p : Pool) (c : Nat) : Pool :=
  { p.putConf c { p.conf c with refLink := some p.groups.length, ref := (p.conf c).ref + 1 } with
    groups := p.groups ++ [some ⟨c, 0⟩] }

/-- `vstr__convert_buf_ref_add`: the new buffer joins the group of the configuration. -/
def convertBufRefAdd (p : Pool) (c : Nat) (grant : Bool) : Bool × Pool :=
  match (p.conf c).refLink with
  | none =>
    if grant then (true, (p.newLink c).joinLink c p.groups.length ⟨c, 0⟩) else (false, p)
  | some g =>
    match (p.groups[g]?).join with
    | none => (false, { p with fault := true })
    | some ln => (true, p.joinLink c g ln)

/-- `vstr__chg_node_buf_ref`, for a BUF node of the base. -/
def chgNodeBufRef (p : Pool) (b : Nat) (grants : ConvertGrants) : Bool × Pool :=
  match p.base b with
  | none => (false, p)
  | some x =>
    let p := p.touch x.conf
    if (p.conf x.conf).spares.ref = 0 ∧ grants.node = false then (false, p)
    else
      let p := p.putSpares x.conf
        { (p.conf x.conf).spares with ref := max (p.conf x.conf).spares.ref 1 }
      if grants.ref then
        let p := p.putTables x.conf { (p.conf x.conf).tables with refGrpBuf2ref := true }
        match p.convertBufRefAdd x.conf grants.link with
        | (false, p) => (false, p)
        | (true, p) =>
          (true, p.putSpares x.conf
            { (p.conf x.conf).spares with ref := (p.conf x.conf).spares.ref - 1 })
      else (false, p)

/-- Any addition to or deletion from the text: the length, the spare nodes and, through the
callbacks, the slots change. -/
def edit (p : Pool) (b n : Nat) (spares : Spares) (answer : Nat → Bool) : Pool :=
  match p.base b with
  | none => p
  | some x =>
    let p := p.putSpares x.conf spares
    (p.putBase b { x with len := n }).cacheCbs b 0 answer

/-- `VSTR_CNTL_CONF_SET_NUM_BUF_SZ`. -/
def setBufSz (p : Pool) (v : Option Nat) (n : Nat) : Pool :=
  match p.pick v with
  | none => p
  | some c =>
    if (p.conf c).spares.buf = 0 ∧ (p.conf c).userRef = (p.conf c).ref then
      p.putConf c { p.conf c with bufSz := min n maxNodeBuf }
    else p.touch c

/-- `VSTR_CNTL_CONF_SET_TYPE_GRPALLOC_CACHE`; the spare bases have other caches. -/
def setGrpallocCache (p : Pool) (v : Option Nat) (g : GrpallocCache) : Pool :=
  match p.pick v with
  | none => p
  | some c =>
    if (p.conf c).grpallocCache = g then p.touch c
    else
      p.putConf c { p.conf c with
        grpallocCache := g, tables := { (p.conf c).tables with spareBases := [] } }

/-- One turn of the loop of `VSTR_CNTL_CONF_SET_NUM_SPARE_BASE`: the spare bases are put aside
for a base to be made, which is freed when they are back. -/
def addSpareBase (p : Pool) (v : Option Nat) (c : Nat) : Pool :=
  let old := (p.conf c).tables.spareBases
  let p := p.putTables c { (p.conf c).tables with spareBases := [] }
  let b := p.bases.length
  let p := p.makeBase v true
  let p := p.putTables c { (p.conf c).tables with spareBases := old }
  p.freeBase b [] ⟨0, 0, 0, 0⟩

/-- The loop of `VSTR_CNTL_CONF_SET_NUM_SPARE_BASE`, which ends where memory is not there. -/
def addSpareBases (p : Pool) (v : Option Nat) (c : Nat) : List Bool → Pool
  | true :: grants => (p.addSpareBase v c).addSpareBases v c grants
  | _ => p.touch c

/-- `VSTR_CNTL_CONF_SET_NUM_SPARE_BASE`. -/
def setNumSpareBase (p : Pool) (v : Option Nat) (n : Nat) (grants : List Bool) : Pool :=
  match p.pick v with
  | none => p
  | some c =>
    let spares := (p.conf c).tables.spareBases
    if spares.length < n then p.addSpareBases v c (grants.take (n - spares.length))
    else p.putTables c { (p.conf c).tables with spareBases := spares.drop (spares.length - n) }

/-- `vstr_export_ref` of a `PTR` node makes a group of references, unless there is one. -/
def refGrpPtr (p : Pool) (b : Nat) (grant : Bool) : Pool :=
  match p.base b with
  | none => p
  | some x =>
    if grant then p.putTables x.conf { (p.conf x.conf).tables with refGrpPtr := true }
    else p.touch x.conf

/-- Any call that writes the records of the locale, the user data, the names of formats or the
specs of `vstr_add_fmt`; none of them gives up the table itself. -/
def setTables (p : Pool) (v : Option Nat) (loc : List Nat) (dataUsr : List (Option String))
    (fmtUsrNames : List String) (fmtSpecMake : Nat) : Pool :=
  match p.pick v with
  | none => p
  | some c =>
    p.putTables c { (p.conf c).tables with
      loc := some loc, dataUsr := some dataUsr, fmtUsrNames := fmtUsrNames,
      fmtSpecMake := fmtSpecMake }

/-- `vstr_cache_add` for a configuration: the new index, 0 without memory. -/
def cacheAddConf (p : Pool) (c : Nat) (name : String) (grant : Bool) : Nat × Pool :=
  if grant then
    ((p.conf c).cacheCbs.length + 1,
      p.putConf c { p.conf c with cacheCbs := (p.conf c).cacheCbs ++ [name] })
  else (0, p.touch c)

/-- `vstr_cache_add`. -/
def cacheAdd (p : Pool) (v : Option Nat) (name : String) (grant : Bool) : Pool :=
  match p.pick v with
  | none => p
  | some c => (p.cacheAddConf c name grant).2

/-- `vstr_cache_set` with data of the callback `owner`, or with `NULL`. -/
def cacheSetFor (p : Pool) (b pos : Nat) (owner : Option String) (grant : Bool) : Bool × Pool :=
  match p.base b with
  | none => (false, p)
  | some x =>
    if pos = 0 ∨ x.cacheAvailable = false then (false, p)
    else if x.data.length < pos ∧ grant = false then (false, p)
    else (true, p.putBase b { x with data := (resized x.data pos).set (pos - 1) owner })

/-- `vstr_cache_set` by a caller, whose data is for the callback registered at that index. -/
def cacheSet (p : Pool) (b pos : Nat) (data grant : Bool) : Pool :=
  match p.base b with
  | none => p
  | some x =>
    let owner := (p.conf x.conf).cacheCbs[pos - 1]?.getD ""
    (p.cacheSetFor b pos (if data then some owner else none) grant).2

/-- What the allocator gives to the registration of sections. -/
structure SectsGrants where
  /-- The table of callbacks. -/
  table : Bool
  /-- The slots of the base. -/
  slots : Bool
  /-- The list of sections. -/
  list : Bool
  deriving DecidableEq, Repr

/-- The callback for sections is registered once for a configuration. -/
def sectsCbAdd (p : Pool) (c : Nat) (grant : Bool) : Pool :=
  if (p.conf c).cachePosCbSects = 0 then
    let n := (p.cacheAddConf c sectsCb grant).1
    let p := (p.cacheAddConf c sectsCb grant).2
    p.putConf c { p.conf c with cachePosCbSects := n }
  else p

/-- The slot at index `k` gets the list of sections, if it has none, and that list grows. -/
def sectsListAdd (p : Pool) (b : Nat) (x : Base) (k : Nat) (grants : SectsGrants) : Bool × Pool :=
  match (x.data[k - 1]?).join with
  | none =>
    match p.cacheSetFor b k none grants.slots with
    | (false, p) => (false, p)
    | (true, p) => if grants.list then p.cacheSetFor b k (some sectsCb) true else (false, p)
  | some _ => if grants.list then p.cacheSetFor b k (some sectsCb) true else (false, p)

/-- `vstr_sects_update_add`. -/
def sectsUpdateAdd (p : Pool) (b : Nat) (grants : SectsGrants) : Bool × Pool :=
  match p.base b with
  | none => (false, p)
  | some x =>
    let p := (p.touch x.conf).sectsCbAdd x.conf grants.table
    if (p.conf x.conf).cachePosCbSects = 0 then (false, p)
    else p.sectsListAdd b x (p.conf x.conf).cachePosCbSects grants

/-- `vstr_sects_update_del`; the list goes away with its last entry. -/
def sectsUpdateDel (p : Pool) (b : Nat) (last : Bool) : Pool :=
  match p.base b with
  | none => p
  | some x =>
    let p := p.touch x.conf
    if last then (p.cacheSetFor b (p.conf x.conf).cachePosCbSects none false).2 else p

end Pool

/-- One call of the library. -/
inductive Action where
  | init (grant : Bool)
  | exit
  | makeConf (grant : Bool)
  | freeConf (h : Nat)
  | optGetConf
  | optSetConf (h : Nat)
  | makeBase (v : Option Nat) (grant : Bool)
  | freeBase (b : Nat) (ks : List Nat) (nodes : Spares)
  | baseGetConf (b : Nat)
  | baseSetConf (b : Nat) (v : Option Nat)
  | swapConf (b h : Nat) (grant : Bool)
  | chgNodeBufRef (b : Nat) (grants : Pool.ConvertGrants)
  | dropRef (k : Nat)
  | edit (b n : Nat) (spares : Spares) (answer : Nat → Bool)
  | cacheCbFree (b num : Nat)
  | setBufSz (v : Option Nat) (n : Nat)
  | setGrpallocCache (v : Option Nat) (g : GrpallocCache)
  | setNumSpareBase (v : Option Nat) (n : Nat) (grants : List Bool)
  | refGrpPtr (b : Nat) (grant : Bool)
  | setTables (v : Option Nat) (loc : List Nat) (dataUsr : List (Option String))
      (fmtUsrNames : List String) (fmtSpecMake : Nat)
  | cacheAdd (v : Option Nat) (name : String) (grant : Bool)
  | cacheSet (b pos : Nat) (data grant : Bool)
  | sectsUpdateAdd (b : Nat) (grants : Pool.SectsGrants)
  | sectsUpdateDel (b : Nat) (last : Bool)

/-- What a call does. -/
def Pool.step (p : Pool) : Action → Pool
  | .init grant => p.init grant
  | .exit => p.exit
  | .makeConf grant => p.makeConf grant
  | .freeConf h => p.freeConf h
  | .optGetConf => p.optGetConf
  | .optSetConf h => p.optSetConf h
  | .makeBase v grant => p.makeBase v grant
  | .freeBase b ks nodes => p.freeBase b ks nodes
  | .baseGetConf b => p.baseGetConf b
  | .baseSetConf b v => (p.baseSetConf b v).2
  | .swapConf b h grant => (p.swapConf b h grant).2
  | .chgNodeBufRef b grants => (p.chgNodeBufRef b grants).2
  | .dropRef k => p.dropRef k
  | .edit b n spares answer => p.edit b n spares answer
  | .cacheCbFree b num => p.cacheCbFree b num
  | .setBufSz v n => p.setBufSz v n
  | .setGrpallocCache v g => p.setGrpallocCache v g
  | .setNumSpareBase v n grants => p.setNumSpareBase v n grants
  | .refGrpPtr b grant => p.refGrpPtr b grant
  | .setTables v loc dataUsr fmtUsrNames fmtSpecMake =>
    p.setTables v loc dataUsr fmtUsrNames fmtSpecMake
  | .cacheAdd v name grant => p.cacheAdd v name grant
  | .cacheSet b pos data grant => p.cacheSet b pos data grant
  | .sectsUpdateAdd b grants => (p.sectsUpdateAdd b grants).2
  | .sectsUpdateDel b last => p.sectsUpdateDel b last

end Vstr.Confs
