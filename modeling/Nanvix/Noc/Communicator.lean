import Nanvix.Noc.Boot

/-! Communicators: the mailboxes and portals that users hold, each bound to one
port of an active. The kernel calls on them are cut where the code gives up a
lock, so that waits on other cores can run in between. Calls that change the
tables are served one at a time by the master core, whose place in the call is
a `MasterPc`; every waiting thread has a `WaitPc`. -/

namespace Nanvix.Noc

open Function

/-- `struct communicator`; `finished` and `allowed` are its two flags. -/
structure Communicator where
  resource : Resource := {}
  finished : Bool := false
  allowed : Bool := false
  config : Config := {}
  stats : Pstats := {}
  deriving DecidableEq

structure Counters where
  ncreates : UInt64 := 0
  nunlinks : UInt64 := 0
  nopens : UInt64 := 0
  ncloses : UInt64 := 0
  nreads : UInt64 := 0
  nwrites : UInt64 := 0
  deriving DecidableEq

/-- Where the master core is in a call that takes several sections. -/
inductive MasterPc where
  | idle
  /-- `do_vmailbox_alloc` has a port and goes for a communicator. -/
  | opened (ty : CommType) (cfg : Config)
  /-- It has both and goes for the counters. -/
  | counting (ty : CommType) (id : ℕ)
  /-- It found no communicator and gives the port back. -/
  | rollback (ty : CommType) (fd : ℤ)
  /-- `do_vmailbox_aread` has noted the buffer and sets the dummy allowance. -/
  | allowing (id : ℕ)
  /-- `communicator_operate` is next. -/
  | operating (ty : CommType) (id : ℕ)
  deriving DecidableEq

/-- Where a thread is in a wait on communicator `id`. -/
inductive WaitPc where
  | idle
  /-- Past the first section of `communicator_wait`. -/
  | checked (id : ℕ)
  /-- In the hardware, for the mbuffer that `active_wait` has read. -/
  | blocked (id : ℕ) (fd mbufferid : ℤ)
  /-- Back from the hardware with its return value. -/
  | woken (id : ℕ) (fd mbufferid ret : ℤ)
  /-- `active_wait` has returned. -/
  | leaving (id : ℕ) (ret : Except Err CommStatus)
  /-- `communicator_wait` has returned and `do_vmailbox_wait` resets the filter. -/
  | resetting (id : ℕ)
  deriving DecidableEq

def WaitPc.comm : WaitPc → Option ℕ
  | .idle => none
  | .checked id => some id
  | .blocked id _ _ => some id
  | .woken id _ _ _ => some id
  | .leaving id _ => some id
  | .resetting id => some id

/-- The state of a facility. `doComm` is the function pointer that all
communicators share and that every call sets before it operates. -/
structure State where
  phys : Phys
  comms : ℕ → Communicator
  counters : Counters
  doComm : CommType
  master : MasterPc
  waits : ℕ → WaitPc

inductive Panic where
  | kassert | kpanic
  deriving DecidableEq, Repr

/-- What a step shows: the value a kernel call returns, if the step ends one, and
the answer of the call on an active, if the step makes one. -/
structure Out where
  ret : Option (Except Err ℤ) := none
  ans : Option Answer := none

namespace State

def setComm (s : State) (id : ℕ) (c : Communicator) : State :=
  { s with comms := update s.comms id c }

def setWait (s : State) (tid : ℕ) (pc : WaitPc) : State :=
  { s with waits := update s.waits tid pc }

section Fields
variable (s : State) (i : ℕ) (c : Communicator) (pc : WaitPc)

@[simp] theorem setComm_phys : (s.setComm i c).phys = s.phys := rfl
@[simp] theorem setComm_comms : (s.setComm i c).comms = update s.comms i c := rfl
@[simp] theorem setComm_counters : (s.setComm i c).counters = s.counters := rfl
@[simp] theorem setComm_doComm : (s.setComm i c).doComm = s.doComm := rfl
@[simp] theorem setComm_master : (s.setComm i c).master = s.master := rfl
@[simp] theorem setComm_waits : (s.setComm i c).waits = s.waits := rfl
@[simp] theorem setWait_phys : (s.setWait i pc).phys = s.phys := rfl
@[simp] theorem setWait_comms : (s.setWait i pc).comms = s.comms := rfl
@[simp] theorem setWait_waits : (s.setWait i pc).waits = update s.waits i pc := rfl

end Fields

end State

/-- A step ends: with a value for the caller, with an error, or without either. -/
abbrev Result := Except Panic (Out × State)

def returns (r : Except Err ℤ) (s : State) : Result := .ok ({ ret := some r }, s)

def continues (s : State) : Result := .ok ({}, s)

variable (F : Facility)

/-! ### Creating, opening, unlinking and closing -/

/-- First section of `do_vmailbox_alloc`, `do_vportal_alloc`: a port is taken. -/
def doVAlloc (s : State) (loc rem port : ℤ) (ty : CommType) : Result :=
  match activeAlloc F s.phys loc rem port ty with
  | (.error e, ph) => returns (.error e) { s with phys := ph }
  | (.ok fd, ph) =>
    let cfg : Config :=
      { fd := fd
        localAddr := laddressCompose F loc (fd % (F.portNr + 1))
        remoteAddr := if ty = .output then laddressCompose F rem port else -1 }
    continues { s with phys := ph, master := .opened ty cfg }

/-- A communicator as `communicator_alloc` sets it up. -/
def Communicator.fresh (cfg : Config) (ty : CommType) : Communicator where
  resource := { used := true, access := if ty = .input then .rdonly else .wronly }
  config := cfg

def communicatorAlloc (s : State) (cfg : Config) (ty : CommType) : Option (ℕ × State) :=
  match (List.range F.commMax).find? fun i => !(s.comms i).resource.used with
  | some i => some (i, s.setComm i (.fresh cfg ty))
  | none => none

def Counters.allocated (c : Counters) : CommType → Counters
  | .input => { c with ncreates := c.ncreates + 1 }
  | .output => { c with nopens := c.nopens + 1 }

def Counters.freed (c : Counters) : CommType → Counters
  | .input => { c with nunlinks := c.nunlinks + 1 }
  | .output => { c with ncloses := c.ncloses + 1 }

/-- Does the direction of a communicator fit the type of a call? -/
def Communicator.fits (c : Communicator) : CommType → Bool
  | .input => c.resource.isReadable
  | .output => c.resource.isWritable

/-- `communicator_free`, with the release of the port inside its section. -/
def communicatorFree (s : State) (id : ℕ) (ty : CommType) : Result :=
  let c := s.comms id
  if !c.resource.used then returns (.error .EBADF) s
  else if !c.fits ty then returns (.error .EBADF) s
  else if c.resource.busy then returns (.error .EBUSY) s
  else
    match activeRelease F s.phys c.config.fd with
    | none => .error .kassert
    | some (.error e, ph) => returns (.error e) { s with phys := ph }
    | some (.ok _, ph) => returns (.ok 0)
        ({ s with phys := ph, counters := s.counters.freed ty }.setComm id
          { c with resource := { c.resource with used := false } })

/-! ### Operating -/

def doComm (s : State) (fd : ℤ) (cfg : Config) (env : Env) : Option (Answer × Phys) :=
  match s.doComm with
  | .input => activeAread F s.phys fd cfg env
  | .output => activeAwrite F s.phys fd cfg env

/-- The communicator after `communicator_operate` has started or finished an
operation. -/
def Communicator.operated (c : Communicator) (status : CommStatus) (stats : Pstats) :
    Communicator :=
  { c with
    resource := { c.resource with busy := true }
    finished := c.finished || status == .received
    allowed := c.allowed && status != .received
    stats := c.stats.add stats }

/-- `communicator_operate`, with the call on the active inside its section. -/
def communicatorOperate (s : State) (id : ℕ) (ty : CommType) (env : Env) : Result :=
  let c := s.comms id
  if !c.resource.used then returns (.error .EBADF) s
  else if !c.fits ty then returns (.error .EBADF) s
  else if ty == .input && !c.allowed then returns (.error .EACCES) s
  else if c.resource.busy then returns (.error .EBUSY) s
  else
    match doComm F s c.config.fd c.config env with
    | none => .error .kassert
    | some (ans, ph) =>
      match ans.ret with
      | .error e => .ok ({ ret := some (.error e), ans := some ans }, { s with phys := ph })
      | .ok status => .ok ({ ret := some (.ok c.config.size), ans := some ans },
          { s with phys := ph }.setComm id (c.operated status ans.stats))

/-! ### Waiting -/

/-- The last lines of `communicator_wait`. -/
def Communicator.released (c : Communicator) : Communicator :=
  { c with
    config := { c.config with buffer := 0, size := 0 }
    resource := { c.resource with busy := false } }

/-- The thread is through `communicator_wait`: after a success `do_vmailbox_wait`
still resets the filter, `do_vportal_wait` returns. -/
def waitReturns (s : State) (tid id : ℕ) (ret : Except Err CommStatus) : Result :=
  match ret with
  | .error e => returns (.error e) (s.setWait tid .idle)
  | .ok .success =>
    match F.kind with
    | .mailbox => continues (s.setWait tid (.resetting id))
    | .portal => returns (.ok 0) (s.setWait tid .idle)
  | .ok .again => returns (.ok 1) (s.setWait tid .idle)
  | .ok .received => returns (.ok 2) (s.setWait tid .idle)

/-- First section of `communicator_wait`. -/
def communicatorWait (s : State) (tid id : ℕ) : Result :=
  let c := s.comms id
  if !c.resource.used then returns (.error .EBADF) s
  else if !c.resource.busy then returns (.error .EBADF) s
  else if c.finished then
    waitReturns F (s.setComm id { c with finished := false }.released) tid id (.ok .success)
  else continues (s.setWait tid (.checked id))

/-- First section of `active_wait`. -/
def waitEnter (s : State) (tid id : ℕ) : Result :=
  let fd := (s.comms id).config.fd
  match waitCheck F s.phys fd with
  | none => .error .kassert
  | some (.error e) => continues (s.setWait tid (.leaving id (.error e)))
  | some (.ok mbufferid) => continues (s.setWait tid (.blocked id fd mbufferid))

/-- The hardware wait. -/
def waitBlock (s : State) (tid id : ℕ) (fd mbufferid : ℤ) (env : Env) : Result :=
  continues ({ s with phys := hwWait s.phys (portOf F fd).1 env }.setWait tid
    (.woken id fd mbufferid env.hwRet))

/-- Second section of `active_wait`; the configuration is read through the pointer
that it was called with. -/
def waitFinish (s : State) (tid id : ℕ) (fd mbufferid ret : ℤ) (env : Env) : Result :=
  let c := s.comms id
  match waitComplete F s.phys fd mbufferid ret c.config env with
  | none => .error .kassert
  | some (ans, ph) => .ok ({ ans := some ans },
      ({ s with phys := ph }.setComm id { c with stats := c.stats.add ans.stats }).setWait tid
        (.leaving id ans.ret))

/-- The part of the last section of `communicator_wait` that follows a success. -/
def Communicator.succeeded (c : Communicator) : Communicator :=
  { c with
    allowed := false
    config := { c.config with
      remoteAddr := if c.resource.isReadable then -1 else c.config.remoteAddr } }

def Counters.operated (k : Counters) (c : Communicator) : Counters :=
  if c.resource.isReadable then { k with nreads := k.nreads + 1 }
  else { k with nwrites := k.nwrites + 1 }

/-- Last section of `communicator_wait`. -/
def waitLeave (s : State) (tid id : ℕ) (ret : Except Err CommStatus) : Result :=
  let c := s.comms id
  match ret with
  | .ok .success => waitReturns F
      ({ s with counters := s.counters.operated c }.setComm id c.succeeded.released) tid id ret
  | _ => waitReturns F (s.setComm id c.released) tid id ret

/-- The reset of the filter in `do_vmailbox_wait`, outside any section. -/
def waitReset (s : State) (tid id : ℕ) : Result :=
  let c := s.comms id
  let c := if c.resource.isReadable then { c with config := { c.config with remoteAddr := -1 } }
    else c
  returns (.ok 0) ((s.setComm id c).setWait tid .idle)

end Nanvix.Noc
