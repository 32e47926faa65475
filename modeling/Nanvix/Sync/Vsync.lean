import Nanvix.Lib.Mask
import Nanvix.Lib.Trace
import Nanvix.Noc.Data

/-! Virtual synchronisation points. A table entry stands for a hardware synchronisation point and
is shared by all who ask for the same one: it counts its references, and the one that gives up
the last reference releases the hardware. Every section under the lock of the module is one
step. Waiting and signalling give up the lock while the hardware works, so a thread that operates
on an entry has an `OpPc`. -/

namespace Nanvix.Sync

open Nanvix.Lib Function
open Nanvix.Noc (Resource Access Err)

structure Target where
  /-- `SYNC_CREATE_MAX`. -/
  createMax : ℕ
  /-- `SYNC_OPEN_MAX`. -/
  openMax : ℕ
  /-- `PROCESSOR_NOC_NODES_NUM`. -/
  nodesNum : ℕ
  /-- `processor_node_get_num()`. -/
  node : ℕ
  /-- `mm_check_area(vaddr, size, UMEM_AREA)`. -/
  mmCheckArea : ℕ → ℕ → Bool

/-- The number of entries of `vsynctab`. -/
def Target.size (T : Target) : ℕ := T.createMax + T.openMax

inductive VsyncType where
  | input | output
  deriving DecidableEq, Repr

inductive Mode where
  | oneToAll | allToOne
  deriving DecidableEq, Repr

/-- `struct sync`. A free entry that was never used has no mode. -/
structure Entry where
  resource : Resource := {}
  hwfd : ℤ := -1
  refcount : ℤ := 0
  mode : Option Mode := none
  master : ℤ := -1
  nodeslist : BitVec 64 := 0
  latency : UInt64 := 0
  deriving DecidableEq

structure Counters where
  ncreates : UInt64 := 0
  nunlinks : UInt64 := 0
  nopens : UInt64 := 0
  ncloses : UInt64 := 0
  nwaits : UInt64 := 0
  nsignals : UInt64 := 0
  deriving DecidableEq

structure Vsync where
  tab : ℕ → Entry
  counters : Counters

def Vsync.setEntry (s : Vsync) (i : ℕ) (x : Entry) : Vsync :=
  { s with tab := update s.tab i x }

@[simp] theorem Vsync.setEntry_tab (s : Vsync) (i : ℕ) (x : Entry) :
    (s.setEntry i x).tab = update s.tab i x := rfl

@[simp] theorem Vsync.setEntry_counters (s : Vsync) (i : ℕ) (x : Entry) :
    (s.setEntry i x).counters = s.counters := rfl

/-! ### Node lists -/

def buildNodeslist (nodes : List ℤ) : BitVec 64 := setBits 0#64 nodes

/-- The loop of `sync_nodelist_is_valid`, with the nodes seen so far; `none` is a list that it
refuses. -/
def checkNodes (T : Target) (checks : BitVec 64) : List ℤ → Option (BitVec 64)
  | [] => some checks
  | n :: ns =>
    if ¬ (0 ≤ n ∧ n < T.nodesNum) then none
    else if checks &&& bitAt 64 n ≠ 0#64 then none
    else checkNodes T (checks ||| bitAt 64 n) ns

/-- `sync_nodelist_is_valid`. It returns an `int`, which keeps the low half of the last word. -/
def nodelistIsValid (T : Target) (nodes : List ℤ) (isTheOne : Bool) : BitVec 32 :=
  if isTheOne && decide (nodes.headD 0 ≠ T.node) then 0
  else if !isTheOne && decide (nodes.headD 0 = T.node) then 0
  else
    match checkNodes T 0#64 nodes with
    | none => 0
    | some checks => (checks &&& bitAt 64 T.node).setWidth 32

/-! ### Creating and opening -/

/-- The access mode that `resource_set_rdonly` and `resource_set_wronly` give an entry. -/
def VsyncType.access : VsyncType → Access
  | .input => .rdonly
  | .output => .wronly

/-- Does the direction of an entry fit the type of a call? -/
def Entry.fits (x : Entry) : VsyncType → Bool
  | .input => x.resource.isReadable
  | .output => x.resource.isWritable

/-- The test that `do_sync_search` makes on an entry. -/
def Entry.answers (x : Entry) (master : ℤ) (nodeslist : BitVec 64) (mode : Mode) (ty : VsyncType) :
    Bool :=
  if !x.resource.used then false
  else if !x.fits ty then false
  else if x.mode ≠ some mode then false
  else if x.master ≠ master then false
  else if x.nodeslist ≠ nodeslist then false
  else true

def Vsync.first (T : Target) (s : Vsync) (P : Entry → Bool) : Option ℕ :=
  (List.range T.size).find? fun i => P (s.tab i)

def doSyncSearch (T : Target) (s : Vsync) (master : ℤ) (nodeslist : BitVec 64) (mode : Mode)
    (ty : VsyncType) : Option ℕ :=
  s.first T fun x => x.answers master nodeslist mode ty

/-- `resource_alloc`: an unused entry is marked as used, without any other flag. -/
def resourceAlloc (T : Target) (s : Vsync) : Option (ℕ × Vsync) :=
  match s.first T fun x => !x.resource.used with
  | some i => some (i, s.setEntry i { s.tab i with resource := { used := true } })
  | none => none

def resourceFree (s : Vsync) (i : ℕ) : Vsync :=
  s.setEntry i { s.tab i with resource := { (s.tab i).resource with used := false } }

/-- The counter that an allocation goes to. -/
def Counters.allocated (c : Counters) : VsyncType → Counters
  | .input => { c with ncreates := c.ncreates + 1 }
  | .output => { c with nopens := c.nopens + 1 }

def Counters.freed (c : Counters) : VsyncType → Counters
  | .input => { c with nunlinks := c.nunlinks + 1 }
  | .output => { c with ncloses := c.ncloses + 1 }

def Counters.operated (c : Counters) : VsyncType → Counters
  | .input => { c with nwaits := c.nwaits + 1 }
  | .output => { c with nsignals := c.nsignals + 1 }

/-- An entry as `_do_sync_alloc` sets it up for the nodes `nodes`. -/
def Entry.fresh (nodes : List ℤ) (mode : Mode) (ty : VsyncType) (hwfd : ℤ) : Entry where
  resource := { used := true, access := ty.access }
  hwfd := hwfd
  refcount := 1
  mode := some mode
  master := nodes.headD 0
  nodeslist := buildNodeslist nodes
  latency := 0

def Entry.referenced (x : Entry) : Entry := { x with refcount := x.refcount + 1 }

/-- `_do_sync_alloc`, when the hardware returns `hw`. -/
def doSyncAlloc (T : Target) (s : Vsync) (nodes : List ℤ) (mode : Mode) (ty : VsyncType) (hw : ℤ) :
    Except Err ℕ × Vsync :=
  match doSyncSearch T s (nodes.headD 0) (buildNodeslist nodes) mode ty with
  | some i => (.ok i, s.setEntry i (s.tab i).referenced)
  | none =>
    match resourceAlloc T s with
    | none => (.error .EAGAIN, s)
    | some (i, s) =>
      if hw < 0 then (.error (.hw hw), resourceFree s i)
      else (.ok i, { s.setEntry i (.fresh nodes mode ty hw) with
        counters := s.counters.allocated ty })

def doVsyncCreate (T : Target) (s : Vsync) (nodes : List ℤ) (mode : Mode) (hw : ℤ) :
    Except Err ℕ × Vsync := doSyncAlloc T s nodes mode .input hw

def doVsyncOpen (T : Target) (s : Vsync) (nodes : List ℤ) (mode : Mode) (hw : ℤ) :
    Except Err ℕ × Vsync := doSyncAlloc T s nodes mode .output hw

/-! ### Unlinking and closing -/

def Entry.unreferenced (x : Entry) : Entry := { x with refcount := x.refcount - 1 }

/-- An entry after its hardware has been released. -/
def Entry.released (x : Entry) : Entry :=
  { x with
    hwfd := -1
    master := -1
    nodeslist := 0
    resource := { x.resource with used := false } }

/-- `_do_sync_release`, when the hardware returns `hw`. The reference is given up before the
hardware is asked. -/
def doSyncRelease (s : Vsync) (i : ℕ) (ty : VsyncType) (hw : ℤ) : Except Err Unit × Vsync :=
  let x := s.tab i
  if !x.resource.used then (.error .EBADF, s)
  else if !x.fits ty then (.error .EBADF, s)
  else if x.resource.busy then (.error .EBUSY, s)
  else if x.unreferenced.refcount = 0 then
    if hw < 0 then (.error (.hw hw), s.setEntry i x.unreferenced)
    else (.ok (), { s.setEntry i x.unreferenced.released with counters := s.counters.freed ty })
  else (.ok (), s.setEntry i x.unreferenced)

def doVsyncUnlink (s : Vsync) (i : ℕ) (hw : ℤ) : Except Err Unit × Vsync :=
  doSyncRelease s i .input hw

def doVsyncClose (s : Vsync) (i : ℕ) (hw : ℤ) : Except Err Unit × Vsync :=
  doSyncRelease s i .output hw

/-! ### Waiting and signalling -/

/-- Where a thread is in `_do_sync_operate`. -/
inductive OpPc where
  | idle
  /-- The entry is marked as busy and the hardware is next. -/
  | marked (id : ℕ) (ty : VsyncType)
  /-- The hardware has operated `hwfd` and returned `ret`, between two readings of the clock. -/
  | operated (id : ℕ) (ty : VsyncType) (hwfd ret : ℤ) (t1 t2 : UInt64)
  deriving DecidableEq

/-- The entry a thread operates on, and whether it waits or signals. -/
def OpPc.task : OpPc → Option (ℕ × VsyncType)
  | .idle => none
  | .marked id ty => some (id, ty)
  | .operated id ty _ _ _ _ => some (id, ty)

def OpPc.target (pc : OpPc) : Option ℕ := pc.task.map (·.1)

def Entry.setBusy (x : Entry) (busy : Bool) : Entry :=
  { x with resource := { x.resource with busy := busy } }

/-- First section of `_do_sync_operate`. -/
def operateEnter (s : Vsync) (i : ℕ) (ty : VsyncType) : Except Err Unit × Vsync :=
  let x := s.tab i
  if !x.resource.used then (.error .EBADF, s)
  else if !x.fits ty then (.error .EBADF, s)
  else if x.resource.busy then (.error .EBUSY, s)
  else (.ok (), s.setEntry i (x.setBusy true))

/-- Second section of `_do_sync_operate`, with what the hardware returned. -/
def operateLeave (s : Vsync) (i : ℕ) (ty : VsyncType) (ret : ℤ) (t1 t2 : UInt64) : Vsync :=
  if 0 ≤ ret then
    { s.setEntry i ({ s.tab i with latency := (s.tab i).latency + (t2 - t1) }.setBusy false) with
      counters := s.counters.operated ty }
  else s.setEntry i ((s.tab i).setBusy false)

/-! ### Requests -/

inductive Stat where
  | latency | ncreates | nunlinks | nopens | ncloses | nwaits | nsignals
  deriving DecidableEq, Repr

def Stat.read (s : Vsync) (i : ℕ) : Stat → UInt64
  | .latency => (s.tab i).latency
  | .ncreates => s.counters.ncreates
  | .nunlinks => s.counters.nunlinks
  | .nopens => s.counters.nopens
  | .ncloses => s.counters.ncloses
  | .nwaits => s.counters.nwaits
  | .nsignals => s.counters.nsignals

/-- `do_vsync_ioctl`; the value is to be put at `addr`, and `none` is an unknown request. -/
def doVsyncIoctl (T : Target) (s : Vsync) (i : ℕ) (what : Option Stat) (addr : ℕ) :
    Except Err UInt64 :=
  if !(s.tab i).resource.used then .error .EBADF
  else if (s.tab i).resource.busy then .error .EBUSY
  else if addr = 0 ∨ T.mmCheckArea addr 8 = false then .error .EFAULT
  else
    match what with
    | some what => .ok (what.read s i)
    | none => .error .ENOTSUP

/-! ### The system -/

structure State where
  vsync : Vsync
  ops : ℕ → OpPc

def State.setOp (s : State) (tid : ℕ) (pc : OpPc) : State :=
  { s with ops := update s.ops tid pc }

@[simp] theorem State.setOp_vsync (s : State) (tid : ℕ) (pc : OpPc) :
    (s.setOp tid pc).vsync = s.vsync := rfl

@[simp] theorem State.setOp_ops (s : State) (tid : ℕ) (pc : OpPc) :
    (s.setOp tid pc).ops = update s.ops tid pc := rfl

/-- The steps of the system; `hw` and `ret` are what the hardware returns. -/
inductive Act where
  | create (nodes : List ℤ) (mode : Mode) (hw : ℤ)
  | open (nodes : List ℤ) (mode : Mode) (hw : ℤ)
  | unlink (id : ℕ) (hw : ℤ)
  | close (id : ℕ) (hw : ℤ)
  | wait (tid id : ℕ)
  | signal (tid id : ℕ)
  | operate (tid : ℕ) (ret : ℤ) (t1 t2 : UInt64)
  | finish (tid : ℕ)
  | ioctl (id : ℕ) (what : Option Stat) (addr : ℕ)

/-- What a step shows: the value a call returns, if the step ends one, and the descriptor that
the hardware operates, if it does. -/
structure Out where
  ret : Option (Except Err ℤ) := none
  hwfd : Option ℤ := none
  deriving DecidableEq

/-- What a call that ends with its first section returns. -/
def answer {α : Type} (f : α → ℤ) (r : Except Err α × Vsync) (s : State) : Out × State :=
  ({ ret := some (r.1.map f) }, { s with vsync := r.2 })

def enter (s : State) (tid id : ℕ) (ty : VsyncType) : Out × State :=
  match s.ops tid with
  | .idle =>
    match operateEnter s.vsync id ty with
    | (.error e, v) => ({ ret := some (.error e) }, { s with vsync := v })
    | (.ok _, v) => ({}, { s with vsync := v }.setOp tid (.marked id ty))
  | _ => ({}, s)

/-- The hardware works on the entry of a thread, whose descriptor is read without the lock. -/
def hwOperate (s : State) (tid : ℕ) (ret : ℤ) (t1 t2 : UInt64) : Out × State :=
  match s.ops tid with
  | .marked id ty =>
    ({ hwfd := some (s.vsync.tab id).hwfd },
      s.setOp tid (.operated id ty (s.vsync.tab id).hwfd ret t1 t2))
  | _ => ({}, s)

def leave (s : State) (tid : ℕ) : Out × State :=
  match s.ops tid with
  | .operated id ty _ ret t1 t2 =>
    ({ ret := some (if 0 ≤ ret then .ok ret else .error (.hw ret)) },
      { s with vsync := operateLeave s.vsync id ty ret t1 t2 }.setOp tid .idle)
  | _ => ({}, s)

/-- One atomic step; an action that does not apply in a state leaves it as it is. -/
def step (T : Target) (s : State) : Act → Out × State
  | .create nodes mode hw => answer (fun i : ℕ => (i : ℤ)) (doVsyncCreate T s.vsync nodes mode hw) s
  | .open nodes mode hw => answer (fun i : ℕ => (i : ℤ)) (doVsyncOpen T s.vsync nodes mode hw) s
  | .unlink id hw => answer (fun _ => 0) (doVsyncUnlink s.vsync id hw) s
  | .close id hw => answer (fun _ => 0) (doVsyncClose s.vsync id hw) s
  | .wait tid id => enter s tid id .input
  | .signal tid id => enter s tid id .output
  | .operate tid ret t1 t2 => hwOperate s tid ret t1 t2
  | .finish tid => leave s tid
  | .ioctl id what addr =>
    ({ ret := some ((doVsyncIoctl T s.vsync id what addr).map fun v => (v.toNat : ℤ)) }, s)

def steps (T : Target) : Steps State Act Out := fun s a o t => step T s a = (o, t)

/-- The state that `vsync_init` leaves. -/
def init : State where
  vsync := { tab := fun _ => {}, counters := {} }
  ops := fun _ => .idle

def Runs (T : Target) (tr : List (Event State Act Out)) (s : State) : Prop := Run (steps T) init tr s

/-- A target with two entries and four nodes, seen from node 0. -/
def smallTarget : Target where
  createMax := 1
  openMax := 1
  nodesNum := 4
  node := 0
  mmCheckArea := fun _ _ => true

end Nanvix.Sync
