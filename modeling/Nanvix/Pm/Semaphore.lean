import Mathlib.Data.Int.Notation
import Nanvix.Lib.Linked
import Nanvix.Lib.Lock
import Nanvix.Lib.Trace

/-! A semaphore, with the condition variable below it, statement by statement. Every thread
is on a core of its own. `core_wakeup` leaves a token at the core, which `core_sleep`
consumes. The waiting threads are listed through the threads themselves, and a broadcast reads
the link of a thread after it has woken that thread up. -/

namespace Nanvix.Pm.Semaphore

open Nanvix.Lib Function

/-- The statement that a thread executes next: in `semaphore_down`, in `cond_wait` and
`thread_asleep` that it calls, in `semaphore_up`, and in `cond_broadcast`. -/
inductive Place where
  | out
  | downLock | downTest | downDec | downUnlock
  | waitLock | waitLink | waitPush | waitUnlock
  | asleepUnlock | asleep | asleepLock
  | upLock | upInc | upUnlock
  | castLock | castTest | castWake | castNext | castUnlock
  deriving DecidableEq, Repr

/-- `struct semaphore` with its condition variable, the links of the threads, the tokens of
their cores, and where they are. -/
structure State where
  count : ℤ
  lock : Bool
  condLock : Bool
  queue : Option ℕ
  next : ℕ → Option ℕ
  tokens : ℕ → Bool
  place : ℕ → Place

inductive Act where
  | down (t : ℕ)
  | up (t : ℕ)
  | run (t : ℕ)
  deriving DecidableEq, Repr

/-- What a step shows: the counter was changed, a thread was woken up, a function returns, or
a null pointer was followed. -/
inductive Ret where
  | quiet
  | taken
  | added
  | woke (u : ℕ)
  | downReturns
  | upReturns
  | nullThread
  deriving DecidableEq, Repr

namespace State

variable (s : State)

def goto (t : ℕ) (p : Place) : State := { s with place := update s.place t p }

/-- `spinlock_lock` on the lock of the semaphore. -/
def spinlockLock (t : ℕ) (p : Place) : Ret × State :=
  if s.lock then (.quiet, s) else (.quiet, { s with lock := true }.goto t p)

/-- `spinlock_lock` on the lock of the condition variable. -/
def condSpinlockLock (t : ℕ) (p : Place) : Ret × State :=
  if s.condLock then (.quiet, s) else (.quiet, { s with condLock := true }.goto t p)

end State

def runStep (s : State) (t : ℕ) : Ret × State :=
  match s.place t with
  | .out => (.quiet, s)
  -- semaphore_down
  | .downLock => s.spinlockLock t .downTest
  | .downTest => (.quiet, s.goto t (if 0 < s.count then .downDec else .waitLock))
  | .downDec => (.taken, { s with count := s.count - 1 }.goto t .downUnlock)
  | .downUnlock => (.downReturns, { s with lock := false }.goto t .out)
  -- cond_wait
  | .waitLock => s.condSpinlockLock t .waitLink
  | .waitLink => (.quiet, { s with next := update s.next t s.queue }.goto t .waitPush)
  | .waitPush => (.quiet, { s with queue := some t }.goto t .waitUnlock)
  | .waitUnlock => (.quiet, { s with condLock := false }.goto t .asleepUnlock)
  -- thread_asleep
  | .asleepUnlock => (.quiet, { s with lock := false }.goto t .asleep)
  | .asleep =>
    if s.tokens t then (.quiet, { s with tokens := update s.tokens t false }.goto t .asleepLock)
    else (.quiet, s)
  | .asleepLock => s.spinlockLock t .downTest
  -- semaphore_up
  | .upLock => s.spinlockLock t .upInc
  | .upInc => (.added, { s with count := s.count + 1 }.goto t .castLock)
  | .upUnlock => (.upReturns, { s with lock := false }.goto t .out)
  -- cond_broadcast
  | .castLock => s.condSpinlockLock t .castTest
  | .castTest => (.quiet, s.goto t (if s.queue = none then .castUnlock else .castWake))
  | .castWake =>
    match s.queue with
    | none => (.nullThread, s)
    | some u => (.woke u, { s with tokens := update s.tokens u true }.goto t .castNext)
  | .castNext =>
    match s.queue with
    | none => (.nullThread, s)
    | some u => (.quiet, { s with queue := s.next u }.goto t .castTest)
  | .castUnlock => (.quiet, { s with condLock := false }.goto t .upUnlock)

def step (s : State) : Act → Ret × State
  | .down t => if s.place t = .out then (.quiet, s.goto t .downLock) else (.quiet, s)
  | .up t => if s.place t = .out then (.quiet, s.goto t .upLock) else (.quiet, s)
  | .run t => runStep s t

def steps : Steps State Act Ret := fun s a r s' => step s a = (r, s')

/-- `semaphore_init`; what the links of the threads are does not matter. -/
def init (x : ℕ) (next : ℕ → Option ℕ) : State where
  count := x
  lock := false
  condLock := false
  queue := none
  next := next
  tokens _ := false
  place _ := .out

def Runs (x : ℕ) (next : ℕ → Option ℕ) (tr : List (Event State Act Ret)) (s : State) : Prop :=
  Run steps (init x next) tr s

/-! ### What a step does -/

/-- A thread in this place has the lock of the semaphore. -/
def Place.holds : Place → Bool
  | .out | .downLock | .asleep | .asleepLock | .upLock => false
  | _ => true

/-- A thread in this place has the lock of the condition variable. -/
def Place.holdsCond : Place → Bool
  | .waitLink | .waitPush | .waitUnlock | .castTest | .castWake | .castNext | .castUnlock => true
  | _ => false

/-- Statements that change nothing but the place. -/
inductive Goes (s : State) : Place → Place → Prop
  | down : Goes s .out .downLock
  | up : Goes s .out .upLock
  | available (h : 0 < s.count) : Goes s .downTest .downDec
  | unavailable (h : ¬ 0 < s.count) : Goes s .downTest .waitLock
  | listed (h : s.queue ≠ none) : Goes s .castTest .castWake
  | done (h : s.queue = none) : Goes s .castTest .castUnlock

inductive Locks : Place → Place → Prop
  | down : Locks .downLock .downTest
  | again : Locks .asleepLock .downTest
  | up : Locks .upLock .upInc

inductive Unlocks : Place → Ret → Place → Prop
  | down : Unlocks .downUnlock .downReturns .out
  | asleep : Unlocks .asleepUnlock .quiet .asleep
  | up : Unlocks .upUnlock .upReturns .out

inductive LocksCond : Place → Place → Prop
  | wait : LocksCond .waitLock .waitLink
  | cast : LocksCond .castLock .castTest

inductive UnlocksCond : Place → Place → Prop
  | wait : UnlocksCond .waitUnlock .asleepUnlock
  | cast : UnlocksCond .castUnlock .upUnlock

inductive Moves (s : State) (t : ℕ) : Ret → State → Prop
  | stays : Moves s t .quiet s
  | null (hq : s.queue = none) (hp : s.place t = .castWake ∨ s.place t = .castNext) :
    Moves s t .nullThread s
  | goes {p : Place} (hp : Goes s (s.place t) p) : Moves s t .quiet (s.goto t p)
  | locks {p : Place} (hp : Locks (s.place t) p) (hl : s.lock = false) :
    Moves s t .quiet ({ s with lock := true }.goto t p)
  | unlocks {r : Ret} {p : Place} (hp : Unlocks (s.place t) r p) :
    Moves s t r ({ s with lock := false }.goto t p)
  | locksCond {p : Place} (hp : LocksCond (s.place t) p) (hl : s.condLock = false) :
    Moves s t .quiet ({ s with condLock := true }.goto t p)
  | unlocksCond {p : Place} (hp : UnlocksCond (s.place t) p) :
    Moves s t .quiet ({ s with condLock := false }.goto t p)
  | takes (hp : s.place t = .downDec) :
    Moves s t .taken ({ s with count := s.count - 1 }.goto t .downUnlock)
  | adds (hp : s.place t = .upInc) : Moves s t .added ({ s with count := s.count + 1 }.goto t .castLock)
  | links (hp : s.place t = .waitLink) :
    Moves s t .quiet ({ s with next := update s.next t s.queue }.goto t .waitPush)
  | pushes (hp : s.place t = .waitPush) : Moves s t .quiet ({ s with queue := some t }.goto t .waitUnlock)
  | awakes (hp : s.place t = .asleep) (ht : s.tokens t = true) :
    Moves s t .quiet ({ s with tokens := update s.tokens t false }.goto t .asleepLock)
  | wakes {u : ℕ} (hp : s.place t = .castWake) (hq : s.queue = some u) :
    Moves s t (.woke u) ({ s with tokens := update s.tokens u true }.goto t .castNext)
  | pops {u : ℕ} (hp : s.place t = .castNext) (hq : s.queue = some u) :
    Moves s t .quiet ({ s with queue := s.next u }.goto t .castTest)

def Act.thread : Act → ℕ
  | .down t | .up t | .run t => t

variable {s s' : State} {a : Act} {r : Ret} {t u : ℕ} {p : Place} {l : List ℕ}

theorem moves_spinlockLock {p₀ : Place} (hp : s.place t = p₀) (hk : Locks p₀ p)
    (h : s.spinlockLock t p = (r, s')) : Moves s t r s' := by
  unfold State.spinlockLock at h
  split_ifs at h with hl
  · cases h
    exact .stays
  · cases h
    exact .locks (hp ▸ hk) (Bool.eq_false_iff.mpr hl)

theorem moves_condSpinlockLock {p₀ : Place} (hp : s.place t = p₀) (hk : LocksCond p₀ p)
    (h : s.condSpinlockLock t p = (r, s')) : Moves s t r s' := by
  unfold State.condSpinlockLock at h
  split_ifs at h with hl
  · cases h
    exact .stays
  · cases h
    exact .locksCond (hp ▸ hk) (Bool.eq_false_iff.mpr hl)

theorem moves_runStep (h : runStep s t = (r, s')) : Moves s t r s' := by
  unfold runStep at h
  cases hp : s.place t
  all_goals simp only [hp] at h
  case downLock => exact moves_spinlockLock hp .down h
  case asleepLock => exact moves_spinlockLock hp .again h
  case upLock => exact moves_spinlockLock hp .up h
  case waitLock => exact moves_condSpinlockLock hp .wait h
  case castLock => exact moves_condSpinlockLock hp .cast h
  case asleep =>
    split_ifs at h with ht
    · cases h
      exact .awakes hp ht
    · cases h
      exact .stays
  case castWake =>
    split at h
    · rename_i hq
      cases h
      exact .null hq (.inl hp)
    · rename_i u hq
      cases h
      exact .wakes hp hq
  case castNext =>
    split at h
    · rename_i hq
      cases h
      exact .null hq (.inr hp)
    · rename_i u hq
      cases h
      exact .pops hp hq
  all_goals cases h
  case out => exact .stays
  case downTest =>
    split_ifs with hc
    · exact .goes (hp ▸ .available hc)
    · exact .goes (hp ▸ .unavailable hc)
  case castTest =>
    split_ifs with hq
    · exact .goes (hp ▸ .done hq)
    · exact .goes (hp ▸ .listed hq)
  case downDec => exact .takes hp
  case upInc => exact .adds hp
  case waitLink => exact .links hp
  case waitPush => exact .pushes hp
  case downUnlock => exact .unlocks (hp ▸ .down)
  case asleepUnlock => exact .unlocks (hp ▸ .asleep)
  case upUnlock => exact .unlocks (hp ▸ .up)
  case waitUnlock => exact .unlocksCond (hp ▸ .wait)
  case castUnlock => exact .unlocksCond (hp ▸ .cast)

theorem moves_of_step (h : steps s a r s') : Moves s a.thread r s' := by
  cases a with
  | down t =>
    simp only [steps, step] at h
    split_ifs at h with hp
    · cases h
      exact .goes (hp ▸ .down)
    · cases h
      exact .stays
  | up t =>
    simp only [steps, step] at h
    split_ifs at h with hp
    · cases h
      exact .goes (hp ▸ .up)
    · cases h
      exact .stays
  | run t => exact moves_runStep h

end Nanvix.Pm.Semaphore
