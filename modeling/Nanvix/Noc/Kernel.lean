import Nanvix.Lib.Trace
import Nanvix.Noc.Communicator

/-! The kernel calls of a facility and the system they make up: the master core
serves one call at a time, and any number of threads wait on other cores. An
action that does not apply in a state leaves it as it is. -/

namespace Nanvix.Noc

open Nanvix.Lib

/-- The values that `communicator_ioctl` can read. -/
inductive Stat where
  | volume | latency | ncreates | nunlinks | nopens | ncloses | nreads | nwrites
  deriving DecidableEq, Repr

/-- The requests of `communicator_ioctl`; `addr` is where a value is to be put. -/
inductive Request where
  | get (what : Stat) (addr : ℕ)
  | setRemote (node port : ℤ)
  | unknown
  deriving DecidableEq, Repr

/-- The kernel calls that the master core serves. `open` of a mailbox has no local
node, and only portals have `allow`; an `ioctl` without arguments has no request. -/
inductive KernelCall where
  | create (loc port : ℤ)
  | open (loc rem port : ℤ)
  | unlink (id : ℤ)
  | close (id : ℤ)
  | allow (id rem port : ℤ)
  | aread (id : ℤ) (buffer size : ℕ)
  | awrite (id : ℤ) (buffer size : ℕ)
  | ioctl (id : ℤ) (request : Option Request)
  deriving DecidableEq, Repr

variable (F : Facility)

/-- `WITHIN(id, 0, KMAILBOX_MAX)`. -/
def validComm (id : ℤ) : Bool := decide (0 ≤ id ∧ id < F.commMax)

def validNode (n : ℤ) : Bool := decide (0 ≤ n ∧ n < F.nodesNum)

def validPort (p : ℤ) : Bool := decide (0 ≤ p ∧ p < F.portNr)

/-- `kernel_mailbox_create`, `kernel_portal_create`; the facilities refuse a node
that is not local with different errors. -/
def kernelCreate (s : State) (loc port : ℤ) : Result :=
  if !validNode F loc then returns (.error .EINVAL) s
  else if !validPort F port then returns (.error .EINVAL) s
  else if !F.nodeIsLocal loc then
    returns (.error (match F.kind with | .mailbox => .EINVAL | .portal => .EBADF)) s
  else doVAlloc F s loc (-1) port .input

/-- `kernel_mailbox_open`, `kernel_portal_open`: a mailbox always opens from the
node itself, a portal from the local node it names. -/
def kernelOpen (s : State) (loc rem port : ℤ) : Result :=
  match F.kind with
  | .mailbox =>
    if !validNode F rem then returns (.error .EINVAL) s
    else if !validPort F port then returns (.error .EINVAL) s
    else doVAlloc F s F.node rem port .output
  | .portal =>
    if !validNode F loc then returns (.error .EINVAL) s
    else if !validNode F rem then returns (.error .EINVAL) s
    else if !validPort F port then returns (.error .EINVAL) s
    else if !F.nodeIsLocal loc then returns (.error .EBADF) s
    else doVAlloc F s loc rem port .output

/-- `kernel_mailbox_unlink`, `kernel_mailbox_close` and those of portals. -/
def kernelFree (s : State) (id : ℤ) (ty : CommType) : Result :=
  if !validComm F id then returns (.error .EINVAL) s else communicatorFree F s id.toNat ty

def doVportalAllow (s : State) (id : ℕ) (rem port : ℤ) : Result :=
  let c := s.comms id
  if !c.resource.used then returns (.error .EBADF) s
  else if !c.resource.isReadable then returns (.error .EBADF) s
  else if c.allowed then returns (.error .EBUSY) s
  else returns (.ok 0) (s.setComm id
    { c with allowed := true, config := { c.config with remoteAddr := laddressCompose F rem port } })

def kernelAllow (s : State) (id rem port : ℤ) : Result :=
  match F.kind with
  | .mailbox => continues s
  | .portal =>
    if !validComm F id then returns (.error .EINVAL) s
    else if !validNode F rem then returns (.error .EINVAL) s
    else if !validPort F port then returns (.error .EINVAL) s
    else doVportalAllow F s id.toNat rem port

/-- The unlocked writes at the head of `do_vmailbox_aread`, `do_vmailbox_awrite`
and those of portals. -/
def State.note (s : State) (id : ℕ) (ty : CommType) (buffer size : ℕ) : State :=
  { s.setComm id { s.comms id with
      config := { (s.comms id).config with buffer := buffer, size := size } } with
    doComm := ty }

/-- The checks that the read and write calls share; only a mailbox read sets the
dummy allowance before it operates. -/
def kernelTransfer (s : State) (id : ℤ) (buffer size : ℕ) (ty : CommType) : Result :=
  if !validComm F id then returns (.error .EINVAL) s
  else if size = 0 ∨ F.maxSize < size then returns (.error .EINVAL) s
  else if buffer = 0 then returns (.error .EINVAL) s
  else if !F.mmCheckArea buffer size then returns (.error .EFAULT) s
  else
    let s := s.note id.toNat ty buffer size
    match F.kind, ty with
    | .mailbox, .input => continues { s with master := .allowing id.toNat }
    | _, _ => continues { s with master := .operating ty id.toNat }

def kernelAread (s : State) (id : ℤ) (buffer size : ℕ) : Result :=
  kernelTransfer F s id buffer size .input

def kernelAwrite (s : State) (id : ℤ) (buffer size : ℕ) : Result :=
  kernelTransfer F s id buffer size .output

def Stat.read (s : State) (id : ℕ) : Stat → ℤ
  | .volume => (s.comms id).stats.volume
  | .latency => (s.comms id).stats.latency.toNat
  | .ncreates => s.counters.ncreates.toNat
  | .nunlinks => s.counters.nunlinks.toNat
  | .nopens => s.counters.nopens.toNat
  | .ncloses => s.counters.ncloses.toNat
  | .nreads => s.counters.nreads.toNat
  | .nwrites => s.counters.nwrites.toNat

/-- `communicator_ioctl`; a value that is read is what the step returns. -/
def communicatorIoctl (s : State) (id : ℕ) (req : Request) : Result :=
  let c := s.comms id
  if !c.resource.used then returns (.error .EBADF) s
  else if c.resource.busy then returns (.error .EBUSY) s
  else
    match req with
    | .get what addr =>
      if addr ≠ 0 ∧ F.mmCheckArea addr 8 = true then returns (.ok (what.read s id)) s
      else returns (.error .EFAULT) s
    | .setRemote node port => returns (.ok 0) (s.setComm id
        { c with config := { c.config with remoteAddr := laddressCalc F node port } })
    | .unknown => returns (.error .ENOTSUP) s

def kernelIoctl (s : State) (id : ℤ) (req : Option Request) : Result :=
  if !validComm F id then returns (.error .EINVAL) s
  else
    match req with
    | none => returns (.error .EINVAL) s
    | some req => communicatorIoctl F s id.toNat req

/-- The first section of a kernel call. -/
def kernelCall (s : State) : KernelCall → Result
  | .create loc port => kernelCreate F s loc port
  | .open loc rem port => kernelOpen F s loc rem port
  | .unlink id => kernelFree F s id .input
  | .close id => kernelFree F s id .output
  | .allow id rem port => kernelAllow F s id rem port
  | .aread id buffer size => kernelAread F s id buffer size
  | .awrite id buffer size => kernelAwrite F s id buffer size
  | .ioctl id req => kernelIoctl F s id req

/-- The later sections of a call on the master core. -/
def masterStep (s : State) (env : Env) : Result :=
  match s.master with
  | .idle => continues s
  | .opened ty cfg =>
    match communicatorAlloc F s cfg ty with
    | some (id, s) => continues { s with master := .counting ty id }
    | none => continues { s with master := .rollback ty cfg.fd }
  | .counting ty id =>
    returns (.ok id) { s with counters := s.counters.allocated ty, master := .idle }
  | .rollback _ fd =>
    match activeRelease F s.phys fd with
    | none => .error .kassert
    | some (.error _, _) => .error .kpanic
    | some (.ok _, ph) => returns (.error .EAGAIN) { s with phys := ph, master := .idle }
  | .allowing id => continues
      { s.setComm id { s.comms id with allowed := true } with master := .operating .input id }
  | .operating ty id => communicatorOperate F { s with master := .idle } id ty env

def kernelWait (s : State) (tid : ℕ) (id : ℤ) : Result :=
  if !validComm F id then returns (.error .EINVAL) s else communicatorWait F s tid id.toNat

/-- The later sections of a wait. -/
def waitStep (s : State) (tid : ℕ) (env : Env) : Result :=
  match s.waits tid with
  | .idle => continues s
  | .checked id => waitEnter F s tid id
  | .blocked id fd mbufferid => waitBlock F s tid id fd mbufferid env
  | .woken id fd mbufferid ret => waitFinish F s tid id fd mbufferid ret env
  | .leaving id ret => waitLeave F s tid id ret
  | .resetting id => waitReset s tid id

/-- The actions of the system: a call and its next section on the master core, a
wait and its next section on the core of a thread. -/
inductive Act where
  | call (c : KernelCall)
  | master (env : Env)
  | wait (tid : ℕ) (id : ℤ)
  | resume (tid : ℕ) (env : Env)

def step (s : State) : Act → Result
  | .call c => if s.master = .idle then kernelCall F s c else continues s
  | .master env => masterStep F s env
  | .wait tid id =>
    match s.waits tid with
    | .idle => kernelWait F s tid id
    | _ => continues s
  | .resume tid env => waitStep F s tid env

def steps : Steps State Act Out := fun s a o t => step F s a = .ok (o, t)

def initState (ph : Phys) : State where
  phys := ph
  comms := fun _ => {}
  counters := {}
  doComm := .input
  master := .idle
  waits := fun _ => .idle

/-- The state in which a facility is handed to its users: `do_vmailbox_init` and
`do_vportal_init` leave every communicator free and point `do_comm` at a read. -/
def Init (s : State) : Prop :=
  ∃ ph, Boot F ph ∧ s = initState ph

def Runs (tr : List (Event State Act Out)) (s : State) : Prop := ∃ s₀, Init F s₀ ∧ Run (steps F) s₀ tr s

variable {F}

theorem initState_init {ph : Phys} (h : Boot F ph) : Init F (initState ph) := ⟨ph, h, rfl⟩

/-- Executions are runs. -/
theorem steps_of_toOption {s t : State} {a : Act} {o : Out} (h : (step F s a).toOption = some (o, t)) :
    steps F s a o t := by
  show step F s a = .ok (o, t)
  cases hs : step F s a with
  | error e => rw [hs] at h; cases h
  | ok r => rw [hs] at h; cases h; rfl

/-- A check of an execution from an initial state. -/
theorem exists_runs_of_exec {ph : Phys} (hb : Boot F ph) (as : List Act)
    (P : List (Event State Act Out) × State → Prop) [DecidablePred P]
    (h : (exec (fun s a => (step F s a).toOption) (initState ph) as).any (fun r => decide (P r)) = true) :
    ∃ tr s, Runs F tr s ∧ tr.map (·.act) = as ∧ P (tr, s) := by
  obtain ⟨tr, s, hrun, hacts, hp⟩ := exists_run_of_exec as P h
  exact ⟨tr, s, ⟨initState ph, initState_init hb, hrun.mono fun _ _ _ _ => steps_of_toOption⟩, hacts, hp⟩

/-- A check of the last event of an execution, and of the trace before it. -/
theorem exists_last_of_exec {s : State} (as : List Act) (a : Act)
    (P : List (Event State Act Out) → Event State Act Out → Prop) [∀ l e, Decidable (P l e)]
    (h : (exec (fun s a => (step F s a).toOption) s as).any (fun r =>
      (step F r.2 a).toOption.any fun x => decide (P r.1 ⟨r.2, a, x.1, x.2⟩)) = true) :
    ∃ l e u, Run (steps F) s (l ++ [e]) u ∧ l.map (·.act) = as ∧ e.act = a ∧ P l e := by
  obtain ⟨⟨l, t⟩, hl, hlast⟩ := (Option.any_eq_true _ _).mp h
  obtain ⟨⟨o, u⟩, hstep, hp⟩ := (Option.any_eq_true _ _).mp hlast
  obtain ⟨hrun, hacts⟩ := exec_run hl
  exact ⟨l, ⟨t, a, o, u⟩, u, (hrun.mono fun _ _ _ _ => steps_of_toOption).snoc (steps_of_toOption hstep),
    hacts, rfl, of_decide_eq_true hp⟩

/-- The same for an execution from an initial state. -/
theorem exists_runs_last {ph : Phys} (hb : Boot F ph) (as : List Act) (a : Act)
    (P : List (Event State Act Out) → Event State Act Out → Prop) [∀ l e, Decidable (P l e)]
    (h : (exec (fun s a => (step F s a).toOption) (initState ph) as).any (fun r =>
      (step F r.2 a).toOption.any fun x => decide (P r.1 ⟨r.2, a, x.1, x.2⟩)) = true) :
    ∃ l e u, Runs F (l ++ [e]) u ∧ (l ++ [e]).map (·.act) = as ++ [a] ∧ e.act = a ∧ P l e := by
  obtain ⟨l, e, u, hrun, hacts, hact, hp⟩ := exists_last_of_exec as a P h
  exact ⟨l, e, u, ⟨initState ph, initState_init hb, hrun⟩, by simp [hacts, hact], hact, hp⟩

end Nanvix.Noc
