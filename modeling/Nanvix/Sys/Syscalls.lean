import Mathlib.Data.Int.Notation
import Nanvix.Lib.Trace

/-! The system call board. A call that the calling core does not serve itself is
written to the board of that core; the thread of the master core sweeps the boards
for a pending one, serves it and wakes the caller. Semaphore operations are
atomic, every iteration of the sweep is a step of its own, and an action that does
not apply in a state leaves it as it is. -/

namespace Nanvix.Sys

open Nanvix.Lib

abbrev Word := UInt64

/-- What the kernel is built for: the cores of the cluster, the parts that are
compiled in, and the values of the error codes that the dispatcher stores. -/
structure Target where
  coresNum : ℕ
  cores_pos : 0 < coresNum
  threads : Bool
  hasSync : Bool
  hasMailbox : Bool
  hasPortal : Bool
  einval : ℤ
  enosys : ℤ

structure Kcall where
  arg0 : Word
  arg1 : Word
  arg2 : Word
  arg3 : Word
  arg4 : Word
  syscallNr : Word
  deriving DecidableEq, Repr

def Kcall.args (k : Kcall) : List Word := [k.arg0, k.arg1, k.arg2, k.arg3, k.arg4]

inductive KernelFn where
  | exit | write | threadCreate | wakeup | shutdown | sigctl | nodeGetNum | clusterGetNum
  | syncCreate | syncOpen | syncUnlink | syncClose | syncSignal | syncIoctl
  | mailboxCreate | mailboxOpen | mailboxUnlink | mailboxClose | mailboxAwrite | mailboxAread
  | mailboxIoctl
  | portalCreate | portalAllow | portalOpen | portalUnlink | portalClose | portalAwrite
  | portalAread | portalIoctl
  | stats | frameAlloc | frameFree | upageAlloc | upageFree | upageMap | upageLink | upageUnmap
  | excpCtrl | excpResume
  deriving DecidableEq, Repr

/-- How many of the arguments a kernel function is passed. -/
def KernelFn.arity : KernelFn → ℕ
  | .shutdown | .nodeGetNum | .clusterGetNum | .frameAlloc | .excpResume => 0
  | .exit | .wakeup | .syncUnlink | .syncClose | .syncSignal | .mailboxUnlink | .mailboxClose
  | .portalUnlink | .portalClose | .frameFree | .upageAlloc | .upageFree | .upageUnmap => 1
  | .sigctl | .mailboxCreate | .mailboxOpen | .portalCreate | .stats | .upageMap | .upageLink
  | .excpCtrl => 2
  | .write | .threadCreate | .syncCreate | .syncOpen | .syncIoctl | .mailboxAread | .mailboxAwrite
  | .mailboxIoctl | .portalAllow | .portalOpen | .portalAread | .portalAwrite | .portalIoctl => 3

/-- The results of `kernel_exit` and `kernel_stats` are not kept. -/
def KernelFn.keepsResult : KernelFn → Bool
  | .exit | .stats => false
  | _ => true

def nrSyscalls : ℕ := 57

variable (T : Target)

/-- The switch of `do_kcall2`. -/
def handler : ℕ → Option KernelFn
  | 1 => some .exit
  | 2 => some .write
  | 4 => if T.threads then some .threadCreate else none
  | 9 => if T.threads then some .wakeup else none
  | 10 => some .shutdown
  | 11 => some .sigctl
  | 16 => some .nodeGetNum
  | 17 => if T.hasSync then some .syncCreate else none
  | 18 => if T.hasSync then some .syncOpen else none
  | 19 => if T.hasSync then some .syncUnlink else none
  | 20 => if T.hasSync then some .syncClose else none
  | 22 => if T.hasSync then some .syncSignal else none
  | 23 => if T.hasSync then some .syncIoctl else none
  | 24 => if T.hasMailbox then some .mailboxCreate else none
  | 25 => if T.hasMailbox then some .mailboxOpen else none
  | 26 => if T.hasMailbox then some .mailboxUnlink else none
  | 27 => if T.hasMailbox then some .mailboxClose else none
  | 28 => if T.hasMailbox then some .mailboxAwrite else none
  | 29 => if T.hasMailbox then some .mailboxAread else none
  | 31 => if T.hasMailbox then some .mailboxIoctl else none
  | 32 => if T.hasPortal then some .portalCreate else none
  | 33 => if T.hasPortal then some .portalAllow else none
  | 34 => if T.hasPortal then some .portalOpen else none
  | 35 => if T.hasPortal then some .portalUnlink else none
  | 36 => if T.hasPortal then some .portalClose else none
  | 37 => if T.hasPortal then some .portalAwrite else none
  | 38 => if T.hasPortal then some .portalAread else none
  | 40 => if T.hasPortal then some .portalIoctl else none
  | 43 => some .stats
  | 44 => some .frameAlloc
  | 45 => some .frameFree
  | 46 => some .upageAlloc
  | 47 => some .upageFree
  | 48 => some .upageMap
  | 49 => some .upageLink
  | 51 => some .upageUnmap
  | 52 => if T.threads then some .excpCtrl else none
  | 54 => if T.threads then some .excpResume else none
  | 55 => some .clusterGetNum
  | _ => none

/-- The calls that `do_kcall` serves on the calling core. -/
def isLocal : ℕ → Bool
  | 3 | 12 | 13 | 14 | 15 | 42 | 56 => true
  | 5 | 6 | 7 | 8 | 53 => T.threads
  | 21 => T.hasSync
  | 30 => T.hasMailbox
  | 39 => T.hasPortal
  | _ => false

/-- The page whose translation the caller invalidates after a page call. -/
def upageInval (k : Kcall) : Option Word :=
  match k.syscallNr.toNat with
  | 46 | 47 | 48 | 49 | 51 => some k.arg0
  | _ => none

def semaphoreUp (count : ℕ) : ℕ := count + 1

/-- `semaphore_down`; `none` while the caller sleeps. -/
def semaphoreDown (count : ℕ) : Option ℕ := if 0 < count then some (count - 1) else none

structure Sysboard extends Kcall where
  ret : ℤ
  syssem : ℕ
  pending : Bool

/-- Where the thread of a core stands in `do_kcall`, with the arguments it was called
with: outside, or about to raise `syssem`, to sleep on its own semaphore, or to
read the result. -/
inductive CorePc where
  | user
  | raise (k : Kcall)
  | sleep (k : Kcall)
  | read (k : Kcall)
  deriving DecidableEq, Repr

/-- Where the master core stands in `do_kcall2`: about to take `syssem`, to look at
the next board, to serve a board, to store the result, or to wake the caller. -/
inductive MasterPc where
  | down
  | sweep (i : ℕ)
  | dispatch (coreid : ℕ)
  | store (coreid : ℕ) (ret : ℤ)
  | wake (coreid : ℕ)
  deriving DecidableEq, Repr

structure State where
  sysboard : ℕ → Sysboard
  syssem : ℕ
  sysNextCoreid : ℕ
  master : MasterPc
  cores : ℕ → CorePc

/-- A thread enters `do_kcall`, the thread inside takes its next step, or the master
does; `ans` is what a kernel function returns if this step calls one. -/
inductive Act where
  | call (coreid : ℕ) (k : Kcall)
  | core (coreid : ℕ)
  | master (ans : ℤ)

/-- What a step shows: a call on a board, the end of a sweep at a pending board or
without one, a dispatch with the function called and the result, and a return. -/
inductive Out where
  | quiet
  | called (coreid : ℕ) (k : Kcall)
  | found (coreid : ℕ)
  | defaulted
  | dispatched (coreid : ℕ) (k : Kcall) (fn : Option (KernelFn × List Word)) (ret : ℤ)
  | returned (coreid : ℕ) (k : Kcall) (ret : ℤ) (inval : Option Word)
  deriving DecidableEq

def State.setBoard (s : State) (c : ℕ) (b : Sysboard) : State :=
  { s with sysboard := Function.update s.sysboard c b }

def State.setCore (s : State) (c : ℕ) (pc : CorePc) : State :=
  { s with cores := Function.update s.cores c pc }

/-- The part of `do_kcall2` between the sweep and the store. -/
def dispatch (k : Kcall) (ans : ℤ) : Option (KernelFn × List Word) × ℤ :=
  if nrSyscalls ≤ k.syscallNr.toNat then (none, -T.einval)
  else
    match handler T k.syscallNr.toNat with
    | none => (none, -T.enosys)
    | some f => (some (f, k.args.take f.arity), if f.keepsResult then ans else -T.enosys)

/-- `do_kcall` up to `pending = 1`. -/
def doKcall (s : State) (c : ℕ) (k : Kcall) : Out × State :=
  if c < T.coresNum ∧ s.cores c = .user ∧ isLocal T k.syscallNr.toNat = false then
    (.called c k, (s.setBoard c { s.sysboard c with toKcall := k, pending := true }).setCore c
      (.raise k))
  else (.quiet, s)

/-- The rest of `do_kcall`. -/
def coreStep (s : State) (c : ℕ) : Out × State :=
  let b := s.sysboard c
  match s.cores c with
  | .user => (.quiet, s)
  | .raise k => (.quiet, { s with syssem := semaphoreUp s.syssem }.setCore c (.sleep k))
  | .sleep k =>
    match semaphoreDown b.syssem with
    | none => (.quiet, s)
    | some n => (.quiet, (s.setBoard c { b with syssem := n }).setCore c (.read k))
  | .read k => (.returned c k b.ret (upageInval k), s.setCore c .user)

/-- `do_kcall2`, over and over. A sweep that finds no pending board leaves `coreid`
at zero. -/
def doKcall2 (s : State) (ans : ℤ) : Out × State :=
  let next := s.sysNextCoreid
  match s.master with
  | .down =>
    match semaphoreDown s.syssem with
    | none => (.quiet, s)
    | some n => (.quiet, { s with syssem := n, master := .sweep 0 })
  | .sweep i =>
    if i < T.coresNum then
      let s := { s with sysNextCoreid := (next + 1) % T.coresNum }
      if (s.sysboard next).pending then (.found next, { s with master := .dispatch next })
      else (.quiet, { s with master := .sweep (i + 1) })
    else (.defaulted, { s with master := .dispatch 0 })
  | .dispatch c =>
    let k := (s.sysboard c).toKcall
    let r := dispatch T k ans
    (.dispatched c k r.1 r.2, { s with master := .store c r.2 })
  | .store c ret =>
    (.quiet, { s.setBoard c { s.sysboard c with pending := false, ret := ret } with master := .wake c })
  | .wake c =>
    let b := s.sysboard c
    (.quiet, { s.setBoard c { b with syssem := semaphoreUp b.syssem } with master := .down })

def step (s : State) : Act → Out × State
  | .call c k => doKcall T s c k
  | .core c => coreStep s c
  | .master ans => doKcall2 T s ans

def steps : Steps State Act Out := fun s a o t => step T s a = (o, t)

/-- The state that `syscall_init` leaves. -/
def boot : State where
  sysboard := fun _ => { arg0 := 0, arg1 := 0, arg2 := 0, arg3 := 0, arg4 := 0, syscallNr := -1,
                         ret := 0, syssem := 0, pending := false }
  syssem := 0
  sysNextCoreid := 0
  master := .down
  cores := fun _ => .user

def Runs (tr : List (Event State Act Out)) (s : State) : Prop := Run (steps T) boot tr s

variable {T}

/-- No call that the master core has a function for is served elsewhere. -/
theorem isLocal_of_handler {nr : ℕ} {f : KernelFn} (h : handler T nr = some f) :
    isLocal T nr = false := by
  unfold handler at h
  split at h <;> first | rfl | cases h

end Nanvix.Sys
