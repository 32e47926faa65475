import Mathlib.Data.Int.Notation
import Nanvix.Lib.Linked
import Nanvix.Lib.Trace

/-! The multithreaded thread manager. Every core executes the code of some context: user
code, the loop of an idle thread, or a place inside the thread manager. A section that
holds `lock_tm` is one step, and so is a context switch. What a core takes for its
current thread is what `thread_get_curr` finds in the table of threads; whose
context it executes is another matter. -/

namespace Nanvix.Pm

open Nanvix.Lib Function

/-- `INT_MAX`, for an `int` of 32 bits. -/
def intMax : ℤ := 2147483647

/-- The cores of the cluster and the user threads it supports, whose number is an `int`. -/
structure Platform where
  coresNum : ℕ
  threadMax : ℕ
  cores_pos : 0 < coresNum
  threads_le : (threadMax : ℤ) ≤ intMax

namespace Platform

variable (P : Platform)

def kthreadMax : ℕ := P.coresNum + P.threadMax

def exitValueNum : ℕ := 3 * P.kthreadMax

/-- `WITHIN(t, &user_threads[0], &user_threads[THREAD_MAX])`. -/
def IsUser (i : ℕ) : Prop := P.coresNum ≤ i ∧ i < P.kthreadMax

instance (i : ℕ) : Decidable (P.IsUser i) := by unfold IsUser; infer_instance

def utid (i : ℕ) : ℕ := i - P.coresNum

end Platform

inductive Errno where
  | EINVAL | EAGAIN
  deriving DecidableEq, Repr

inductive ThreadState where
  | notStarted | started | running | sleeping | stopped | terminated | zombie
  deriving DecidableEq, Repr

/-- The condition variables: `joincond[i]`, and those of other facilities. -/
inductive CondVar where
  | join (i : ℕ)
  | other (j : ℕ)
  deriving DecidableEq, Repr

/-- Why a thread sleeps: for `thread_join`, with its arguments, or for another reason. -/
inductive Wait where
  | join (tid : ℤ) (want : Bool)
  | other
  deriving DecidableEq, Repr

/-- Where `thread_yield` was called. -/
inductive Caller where
  | user | idle | exit
  deriving DecidableEq, Repr

/-- A place in the code: user code; the fence and the loop of an idle thread; the
call of `thread_yield` in `thread_exit`; in `thread_yield` before and after the switch, with
its local variables; the beginning of `thread_start`; asleep in `cond_wait`; stopped
for good. -/
inductive Frame where
  | user
  | fence | downFirst | unfence | down | granted
  | exiting
  | switch (curr next : ℕ) (via : Caller)
  | clean (curr : ℕ) (via : Caller)
  | starting
  | asleep (cv : CondVar) (w : Wait)
  | halted
  deriving DecidableEq, Repr

/-- An execution context: the place in the code, the stack pages, which the contexts of
the master and of the idle threads do not have, and the thread it was made for. -/
structure Context where
  frame : Frame
  stack : Option (ℕ × ℕ)
  owner : ℤ
  deriving DecidableEq, Repr

structure Thread where
  tid : ℤ
  coreid : ℤ
  state : ThreadState
  start : ℕ
  arg : ℕ
  ctx : Option Context
  next : Option ℕ
  deriving DecidableEq, Repr

/-- `struct schedule_queue`; `sem` is the counter of its semaphore, an `int`. -/
structure SchedQueue where
  size : ℕ
  head : Option ℕ
  tail : Option ℕ
  sem : ℤ
  deriving DecidableEq, Repr

/-- `sem->count++` in `semaphore_up`. The largest `int` wraps around, as in the compiled code. -/
def semaphoreUp (count : ℤ) : ℤ := if count < intMax then count + 1 else -intMax - 1

theorem semaphoreUp_of_lt {count : ℤ} (h : count < intMax) : semaphoreUp count = count + 1 := if_pos h

structure ExitValue where
  tid : ℤ
  retval : ℕ
  deriving DecidableEq, Repr

/-- The thread manager, the reference counts of the kernel pages it gets, the
wake-ups that cores have not yet consumed, and what each core executes. -/
structure State where
  threads : ℕ → Thread
  nthreads : ℤ
  nextTid : ℤ
  queue : SchedQueue
  ustacks : ℕ → Option ℕ
  kstacks : ℕ → Option ℕ
  kpages : ℕ → ℕ
  idleFence : Bool
  conds : CondVar → Option ℕ
  tokens : ℕ → Bool
  exitValues : ℕ → ExitValue
  nextExitValue : ℕ
  cpus : ℕ → Context

/-- The assertions of the code, a null pointer for the current thread, a walk that
does not end, and code that is not to be reached. -/
inductive Fault where
  | nullThread | scheduleUser | zombie | contextSaved | contextRestored | exitUser | joinTid
  | startNull | idleYield | endlessWalk | unreachable
  deriving DecidableEq, Repr

inductive Ret where
  | quiet
  | created (tid : ℤ) (i : ℕ)
  | failed (e : Errno)
  | picked (curr next : ℕ)
  | switched (curr next : ℕ)
  | switchFailed (curr next : ℕ)
  | yielded
  | exited (tid : ℤ) (retval : ℕ)
  | joined (tid : ℤ) (err : Option Errno) (retval : Option ℕ)
  | fault (f : Fault)
  deriving DecidableEq, Repr

/-- The answer of a step, and the thread that `thread_free` has released in it. -/
structure Out where
  ret : Ret
  freed : Option ℕ := none
  deriving DecidableEq, Repr

/-- A thread calls the thread manager or another user of condition variables, with the
answers of `kpage_get` in the case of `thread_create`, or a core goes on. -/
inductive Act where
  | create (c : ℕ) (start arg : ℕ) (kpage upage : Option ℕ)
  | yield (c : ℕ)
  | exit (c : ℕ) (retval : ℕ)
  | join (c : ℕ) (tid : ℤ) (want : Bool)
  | wait (c : ℕ) (j : ℕ)
  | broadcast (c : ℕ) (j : ℕ)
  | run (c : ℕ)
  deriving DecidableEq, Repr

namespace State

variable (s : State)

def setThread (i : ℕ) (t : Thread) : State := { s with threads := update s.threads i t }

def setFrame (c : ℕ) (f : Frame) : State :=
  { s with cpus := update s.cpus c { s.cpus c with frame := f } }

def links (i : ℕ) : Option ℕ := (s.threads i).next

def mark (i : ℕ) (st : ThreadState) : State := s.setThread i { s.threads i with state := st }

/-- The head of the run queue goes to a core. -/
def popped (c n : ℕ) : State :=
  { s with queue := { s.queue with head := (s.threads n).next, size := s.queue.size - 1 } }.setThread n
    { s.threads n with next := none, coreid := c }

/-- A terminated thread becomes a zombie that its successor is handed. -/
def retired (z n : ℕ) : State :=
  (s.mark z .zombie).setThread n { (s.mark z .zombie).threads n with next := some z }

end State

variable (P : Platform)

/-- `thread_get_curr` on core `c`: the running thread, or else the last terminated one. -/
def threadGetCurr (s : State) (c : ℕ) : Option ℕ :=
  match (List.range P.kthreadMax).find? fun i =>
      (s.threads i).coreid = c ∧ (s.threads i).state = .running with
  | some i => some i
  | none => (List.range P.kthreadMax).reverse.find? fun i =>
      (s.threads i).coreid = c ∧ (s.threads i).state = .terminated

def threadGet (s : State) (tid : ℤ) : Option ℕ :=
  (List.range P.kthreadMax).find? fun i => (s.threads i).tid = tid

/-- `kpage_get`; `ans` is the free page that it finds. -/
def kpageGet (s : State) (ans : Option ℕ) : Option (ℕ × State) :=
  match ans with
  | none => none
  | some p =>
    if s.kpages p = 0 then some (p, { s with kpages := update s.kpages p 1 }) else none

/-- `kpage_put`; the code does not look at its errors. -/
def kpagePut (s : State) (p : Option ℕ) : State :=
  match p with
  | none => s
  | some p => { s with kpages := update s.kpages p (s.kpages p - 1) }

def threadFree (s : State) (i : ℕ) : State :=
  let u := P.utid i
  let s := kpagePut (kpagePut s (s.ustacks u)) (s.kstacks u)
  { s.setThread i { s.threads i with coreid := -1, state := .notStarted, tid := -1 } with
    ustacks := update s.ustacks u none
    kstacks := update s.kstacks u none
    nthreads := s.nthreads - 1 }

/-- The release of a zombie that the current thread was handed. -/
def reap (s : State) (curr : ℕ) : Option ℕ × State :=
  match (s.threads curr).next with
  | none => (none, s)
  | some z =>
    if (s.threads z).state = .zombie then
      let s := threadFree P s z
      (some z, s.setThread curr { s.threads curr with next := none })
    else (none, s)

/-- The loop of `thread_alloc`. -/
def allocSlot (s : State) : Option ℕ :=
  (List.range P.kthreadMax).tail.find? fun i =>
    (s.threads i).state = .notStarted ∨ (s.threads i).state = .zombie

/-- `thread_alloc`: the slot, the zombie that was released for it, and the table. -/
def threadAlloc (s : State) : Option (ℕ × Option ℕ × State) :=
  match allocSlot P s with
  | none => none
  | some i =>
    if (s.threads i).state = .zombie then
      let s := threadFree P s i
      some (i, some i, s.mark i .started)
    else some (i, none, { s.mark i .started with nthreads := s.nthreads + 1 })

/-- The common end of `thread_schedule`. -/
def enqueue (s : State) (i : ℕ) : State :=
  { s.setThread i { s.threads i with next := none, coreid := -1 } with
    queue := { s.queue with tail := some i, size := s.queue.size + 1, sem := semaphoreUp s.queue.sem } }

def threadSchedule (s : State) (i : ℕ) : Except Fault State :=
  if ¬ P.IsUser i then .error .scheduleUser
  else if s.queue.size = 0 then
    .ok (enqueue { s with queue := { s.queue with head := some i } } i)
  else
    match s.queue.tail with
    | none => .error .nullThread
    | some l => .ok (enqueue (s.setThread l { s.threads l with next := some i }) i)

def initThread (s : State) (i start arg kstack ustack : ℕ) : State :=
  let u := P.utid i
  { s.setThread i
      { s.threads i with
        tid := s.nextTid, arg := arg, start := start, next := none
        ctx := some { frame := .starting, stack := some (ustack, kstack), owner := s.nextTid } } with
    nextTid := s.nextTid + 1
    ustacks := update s.ustacks u (some ustack)
    kstacks := update s.kstacks u (some kstack) }

/-- `thread_create` under `lock_tm`. -/
def threadCreate (s : State) (start arg : ℕ) (kpage upage : Option ℕ) : Except Fault (Out × State) :=
  match threadAlloc P s with
  | none => .ok (⟨.failed .EAGAIN, none⟩, s)
  | some (i, freed, s) =>
    match kpageGet s kpage with
    | none => .ok (⟨.failed .EAGAIN, freed⟩, s)
    | some (kstack, s) =>
      match kpageGet s upage with
      | none => .ok (⟨.failed .EAGAIN, freed⟩, kpagePut s (some kstack))
      | some (ustack, s) =>
        match threadSchedule P (initThread P s i start arg kstack ustack) i with
        | .error f => .error f
        | .ok s' => .ok (⟨.created s.nextTid i, freed⟩, s')

def pickNext (s : State) (c curr idle : ℕ) : Except Fault (ℕ × State) :=
  if s.queue.size ≠ 0 then
    match s.queue.head with
    | none => .error .nullThread
    | some next =>
      if (s.threads curr).state ≠ .terminated then
        if curr ≠ idle then
          match threadSchedule P ((s.popped c next).mark curr .stopped) curr with
          | .error f => .error f
          | .ok s => .ok (next, s)
        else .ok (next, (s.popped c next).mark curr .stopped)
      else .ok (next, s.popped c next)
  else if (s.threads curr).state ≠ .terminated then .ok (curr, s)
  else .ok (idle, s)

/-- The section of `thread_yield` before the switch. -/
def yieldSection (s : State) (c curr : ℕ) (via : Caller) : Except Fault (Out × State) :=
  match pickNext P s c curr (s.threads curr).coreid.toNat with
  | .error f => .error f
  | .ok (next, s₁) =>
    let go := fun s : State =>
      Except.ok (⟨.picked curr next, none⟩, (s.mark next .running).setFrame c (.switch curr next via))
    if (s₁.threads curr).state = .terminated then
      if curr ≠ (s.threads curr).coreid.toNat ∧ curr ≠ next then go (s₁.retired curr next)
      else .error .zombie
    else go s₁

/-- `thread_yield` up to the end of that section. -/
def threadYield (s : State) (c : ℕ) (via : Caller) : Except Fault (Out × State) :=
  match threadGetCurr P s c with
  | none => .error .nullThread
  | some curr =>
    if (s.threads curr).tid = 0 then
      match via with
      | .user => .ok (⟨.failed .EINVAL, none⟩, s)
      | .idle => .error .idleYield
      | .exit => .error .unreachable
    else yieldSection P s c curr via

/-- `context_switch_to`: save the context of the core, take over the saved one. -/
def contextSwitch (s : State) (c curr next : ℕ) (via : Caller) (x : Context) : State :=
  let s := s.setThread curr
    { s.threads curr with ctx := some { s.cpus c with frame := .clean curr via } }
  let s := s.setThread next { s.threads next with ctx := none }
  { s with cpus := update s.cpus c x }

/-- `thread_switch_to`; `none` is `-EINVAL`. The addresses of the table and of the
contexts are kernel addresses. -/
def threadSwitchTo (s : State) (c curr next : ℕ) (via : Caller) : Except Fault (Option State) :=
  match threadGetCurr P s c with
  | none => .error .nullThread
  | some i =>
    if (s.threads i).tid = 0 then .ok none
    else if (s.threads curr).ctx ≠ none then .ok none
    else
      match (s.threads next).ctx with
      | none => .ok none
      | some x => .ok (some (contextSwitch s c curr next via x))

/-- `thread_yield` between its two sections. -/
def switchStep (s : State) (c curr next : ℕ) (via : Caller) : Except Fault (Out × State) :=
  if (s.threads curr).ctx ≠ none then .error .contextSaved
  else if curr = next then .ok (⟨.quiet, none⟩, s.setFrame c (.clean curr via))
  else
    match threadSwitchTo P s c curr next via with
    | .error f => .error f
    | .ok (some s) => .ok (⟨.switched curr next, none⟩, s)
    | .ok none => .ok (⟨.switchFailed curr next, none⟩, s.setFrame c (.clean curr via))

/-- Where a caller of `thread_yield` goes on: `thread_exit` must not. -/
def Caller.back : Caller → Frame
  | .user => .user
  | .idle => .down
  | .exit => .halted

def Caller.ret : Caller → Ret
  | .user => .yielded
  | .idle => .quiet
  | .exit => .fault .unreachable

/-- `thread_yield` after the switch, and the return to its caller. -/
def cleanStep (s : State) (c curr : ℕ) (via : Caller) : Except Fault (Out × State) :=
  if (s.threads curr).ctx ≠ none then .error .contextRestored
  else
    let r := reap P s curr
    .ok (⟨via.ret, r.1⟩, r.2.setFrame c via.back)

/-- `thread_start` before it calls the start routine. -/
def threadStart (s : State) (c : ℕ) : Except Fault (Out × State) :=
  match threadGetCurr P s c with
  | none => .error .nullThread
  | some curr =>
    let r := reap P s curr
    .ok (⟨.quiet, r.1⟩, r.2.setFrame c .user)

def condBroadcast (s : State) (cv : CondVar) : Option State :=
  match walk s.links P.kthreadMax (s.conds cv) with
  | none => none
  | some l => some { s with
      conds := update s.conds cv none
      tokens := fun c => s.tokens c || l.any fun i => decide ((s.threads i).coreid = c) }

/-- `cond_wait` up to the sleep. -/
def condWait (s : State) (c curr : ℕ) (cv : CondVar) (w : Wait) : State :=
  { s.setThread curr { s.threads curr with next := s.conds cv } with
    conds := update s.conds cv (some curr) }.setFrame c (.asleep cv w)

def threadSaveRetval (s : State) (retval : ℕ) (tid : ℤ) : State :=
  if retval ≠ 0 then
    { s with exitValues := update s.exitValues s.nextExitValue ⟨tid, retval⟩
             nextExitValue := (s.nextExitValue + 1) % P.exitValueNum }
  else s

def threadSearchRetval (s : State) (tid : ℤ) : ℕ :=
  match (List.range P.exitValueNum).find? fun i => (s.exitValues i).tid = tid with
  | some i => (s.exitValues i).retval
  | none => 0

/-- `thread_exit` up to its call of `thread_yield`. -/
def threadExit (s : State) (c retval : ℕ) : Except Fault (Out × State) :=
  match threadGetCurr P s c with
  | none => .error .nullThread
  | some curr =>
    if ¬ P.IsUser curr then .error .exitUser
    else
      let tid := (s.threads curr).tid
      let s := threadSaveRetval P s retval tid
      let s := s.mark curr .terminated
      match condBroadcast P s (.join curr) with
      | none => .error .endlessWalk
      | some s => .ok (⟨.exited tid retval, none⟩, s.setFrame c .exiting)

/-- The end of `thread_join`. -/
def joinEnd (s : State) (c : ℕ) (tid : ℤ) (want : Bool) : Out × State :=
  let s := s.setFrame c .user
  if tid < s.nextTid then
    (⟨.joined tid none (if want then some (threadSearchRetval P s tid) else none), none⟩, s)
  else (⟨.joined tid (some .EINVAL) none, none⟩, s)

/-- `thread_join` up to its end or its sleep. -/
def threadJoin (s : State) (c : ℕ) (tid : ℤ) (want : Bool) : Except Fault (Out × State) :=
  match threadGetCurr P s c with
  | none => .error .nullThread
  | some curr =>
    if ¬ (-1 < tid ∧ tid ≠ (s.threads curr).tid ∧ tid ≠ 0) then .error .joinTid
    else
      match threadGet P s tid with
      | none => .ok (joinEnd P s c tid want)
      | some i =>
        if (s.threads i).state ≠ .notStarted ∧ (s.threads i).state ≠ .terminated ∧
            (s.threads i).state ≠ .zombie then
          .ok (⟨.quiet, none⟩, condWait s c curr (.join i) (.join tid want))
        else .ok (joinEnd P s c tid want)

def runStep (s : State) (c : ℕ) : Except Fault (Out × State) :=
  let quiet := fun s : State => Except.ok (⟨.quiet, none⟩, s)
  match (s.cpus c).frame with
  | .user | .halted => quiet s
  | .fence => if s.idleFence then quiet s else quiet (s.setFrame c .down)
  | .downFirst =>
    if 0 < s.queue.sem then
      quiet ({ s with queue := { s.queue with sem := s.queue.sem - 1 } }.setFrame c .unfence)
    else quiet s
  | .unfence => quiet ({ s with idleFence := false }.setFrame c .granted)
  | .down =>
    if 0 < s.queue.sem then
      quiet ({ s with queue := { s.queue with sem := s.queue.sem - 1 } }.setFrame c .granted)
    else quiet s
  | .granted => threadYield P s c .idle
  | .exiting => threadYield P s c .exit
  | .switch curr next via => switchStep P s c curr next via
  | .clean curr via => cleanStep P s c curr via
  | .starting => threadStart P s c
  | .asleep _ w =>
    if s.tokens c then
      let s := { s with tokens := update s.tokens c false }
      match w with
      | .join tid want => .ok (joinEnd P s c tid want)
      | .other => quiet (s.setFrame c .user)
    else quiet s

def callStep (s : State) : Act → Except Fault (Out × State)
  | .create _ start arg kpage upage =>
    if start = 0 then .error .startNull else threadCreate P s start arg kpage upage
  | .yield c => threadYield P s c .user
  | .exit c retval => threadExit P s c retval
  | .join c tid want => threadJoin P s c tid want
  | .wait c j =>
    match threadGetCurr P s c with
    | none => .error .nullThread
    | some curr => .ok (⟨.quiet, none⟩, condWait s c curr (.other j) .other)
  | .broadcast _ j =>
    match condBroadcast P s (.other j) with
    | none => .error .endlessWalk
    | some s => .ok (⟨.quiet, none⟩, s)
  | .run _ => .ok (⟨.quiet, none⟩, s)

def Act.core : Act → ℕ
  | .create c .. | .yield c | .exit c _ | .join c .. | .wait c _ | .broadcast c _ | .run c => c

/-- A fault stops the core for good. -/
def settle (s : State) (c : ℕ) : Except Fault (Out × State) → Out × State
  | .ok r => r
  | .error f => (⟨.fault f, none⟩, s.setFrame c .halted)

/-- One atomic step; an action that does not apply leaves the state as it is. -/
def step (s : State) (a : Act) : Out × State :=
  if a.core < P.coresNum then
    match a with
    | .run c => settle s c (runStep P s c)
    | a =>
      if (s.cpus a.core).frame = .user then settle s a.core (callStep P s a)
      else (⟨.quiet, none⟩, s)
  else (⟨.quiet, none⟩, s)

def steps : Steps State Act Out := fun s a o t => step P s a = (o, t)

/-- The state that `thread_init` leaves: core 0 executes the master and every other
core its idle thread, of which the first goes to the semaphore and the others to
the fence. -/
def boot : State where
  threads i :=
    if i < P.coresNum then
      { tid := i, coreid := i, state := .running, start := 0, arg := 0, ctx := none, next := none }
    else
      { tid := -1, coreid := 0, state := .notStarted, start := 0, arg := 0, ctx := none, next := none }
  nthreads := P.coresNum
  nextTid := P.coresNum
  queue := ⟨0, none, none, 0⟩
  ustacks _ := none
  kstacks _ := none
  kpages _ := 0
  idleFence := true
  conds _ := none
  tokens _ := false
  exitValues _ := ⟨-1, 0⟩
  nextExitValue := 0
  cpus c :=
    { frame := if c = 0 then .user else if c = 1 then .downFirst else .fence
      stack := none
      owner := c }

def Runs (tr : List (Event State Act Out)) (s : State) : Prop := Run (steps P) (boot P) tr s

/-- A check of the run with the given actions. -/
theorem exists_runs {P : Platform} (as : List Act) (Q : List (Event State Act Out) × State → Prop)
    [DecidablePred Q]
    (h : (exec (fun s a => some (step P s a)) (boot P) as).any (fun r => decide (Q r)) = true) :
    ∃ tr s, Runs P tr s ∧ tr.map (·.act) = as ∧ Q (tr, s) := by
  obtain ⟨tr, s, hrun, hacts, hq⟩ := exists_run_of_exec as Q h
  exact ⟨tr, s, hrun.mono fun _ _ _ _ hs => Option.some.inj hs, hacts, hq⟩

/-- A cluster of two cores. `THREAD_MAX` is `2 * (CORES_NUM - 1)`. -/
def pairPlatform : Platform := ⟨2, 2, Nat.two_pos, by decide⟩

/-- A cluster of three cores. -/
def smallPlatform : Platform := ⟨3, 4, by decide, by decide⟩

end Nanvix.Pm
