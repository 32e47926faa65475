import Mathlib.Data.Finset.Basic
import Mathlib.Data.Fintype.Basic
import Nanvix.Lib.Trace

/-! Exceptions that a user-space handler serves. A core that raises an exception leaves its thread
in the table of waiting threads, releases `ulock` and then takes the lock of its own entry, which
the handler releases when it resumes the thread. All locks but the one of the module start out
taken: they are binary semaphores that one party releases for another. A section under the lock of
the module and an operation on one of the other locks are one step each. -/

namespace Nanvix.Pm.Exception

open Nanvix.Lib Function

/-- `EXCP_ACTION_IGNORE` and `EXCP_ACTION_HANDLE`. -/
inductive Action where
  | ignore
  | handle
  deriving DecidableEq, Repr

inductive Errno where
  | EPERM
  | EINVAL
  deriving DecidableEq, Repr

/-- A thread in the table, and the information about its exception. -/
structure Waiter (ε : Type) where
  thread : ℕ
  excp : ε
  deriving DecidableEq, Repr

/-- Where a core is in `exception_wait`: before it releases `ulock`, or before it takes the lock of
its entry. -/
inductive Core (N : ℕ) where
  | out
  | raised (i : Fin N)
  | waits (i : Fin N)
  deriving DecidableEq, Repr

/-- Where the handler is: in user space with no exception, on `ulock` in `exception_pause`, past
that lock, or in user space with the exception that `exception_pause` has returned. A blocked
handler remembers whether its argument is a null pointer. -/
inductive Handler where
  | out
  | blocked (store : Bool)
  | woken (store : Bool)
  | serving
  deriving DecidableEq, Repr

/-- The tables `kexceptions` for `N` exceptions and `M` threads, the locks, and who is where. An
entry is given by its exception and its core. A lock that is taken is `true`. -/
structure State (N M : ℕ) (ε : Type) where
  action : Fin N → Action
  waiting : Fin N × Fin M → Option (Waiter ε)
  locks : Fin N × Fin M → Bool
  ulock : Bool
  handling : Option (Fin N × Fin M)
  cores : Fin M → Core N
  handler : Handler

inductive Act (N M : ℕ) (ε : Type) where
  | control (i : Fin N) (action : Action)
  | wait (j : Fin M) (i : Fin N) (thread : ℕ) (excp : ε)
  | unlock (j : Fin M)
  | lock (j : Fin M)
  | pause (store : Bool)
  | acquire
  | regrab
  | resume
  deriving DecidableEq, Repr

/-- What a call returns in this step, if it does, and what it stores for its caller. -/
structure Out (ε : Type) where
  ret : Option (Except Errno Unit)
  info : Option ε

namespace Out

variable {ε : Type}

def goesOn : Out ε := ⟨none, none⟩

def done : Out ε := ⟨some (.ok ()), none⟩

def fails (e : Errno) : Out ε := ⟨some (.error e), none⟩

def succeeds (o : Out ε) : Bool :=
  match o.ret with
  | some (.ok _) => true
  | _ => false

end Out

variable {N M : ℕ} {ε : Type}

section Calls

variable (s : State N M ε)

def exceptionControl (i : Fin N) (action : Action) : Out ε × State N M ε :=
  if action = .ignore ∧ ∃ j, (s.waiting (i, j)).isSome then (.fails .EPERM, s)
  else (.done, { s with action := update s.action i action })

/-- `exception_grab`: the first exception that is handled and has a thread waiting, and the first
core where one is. -/
def exceptionGrab : Option (Fin N × Fin M) :=
  (List.finRange N).findSome? fun i =>
    if s.action i = .handle then
      ((List.finRange M).find? fun j => (s.waiting (i, j)).isSome).map fun j => (i, j)
    else none

def serve (k : Fin N × Fin M) : State N M ε := { s with handling := some k, handler := .serving }

def release (k : Fin N × Fin M) : State N M ε :=
  { s with
    waiting := update s.waiting k none
    locks := update s.locks k false
    handling := none
    handler := .out }

def raise (j : Fin M) (i : Fin N) (w : Waiter ε) : State N M ε :=
  { s with
    waiting := update s.waiting (i, j) (some w)
    cores := update s.cores j (.raised i) }

/-- The loop of `exception_pause`, under the lock: an exception is taken and its information
stored, or the handler goes to wait for `ulock`. -/
def pauseGrab (store : Bool) : Out ε × State N M ε :=
  match exceptionGrab s with
  | some k =>
    (⟨some (.ok ()), if store then (s.waiting k).map (·.excp) else none⟩, serve s k)
  | none => (.goesOn, { s with handler := .blocked store })

/-- `exception_pause` up to the first attempt. -/
def exceptionPause (store : Bool) : Out ε × State N M ε :=
  if ∃ i, s.action i = .handle then pauseGrab s store else (.fails .EPERM, s)

def exceptionResume : Out ε × State N M ε :=
  match s.handling with
  | none => (.fails .EINVAL, { s with handler := .out })
  | some k =>
    if s.action k.1 = .ignore then (.fails .EINVAL, { s with handler := .out })
    else if s.waiting k = none then (.fails .EINVAL, { s with handler := .out })
    else (.done, release s k)

/-- The section of `exception_wait`. -/
def exceptionWait (j : Fin M) (i : Fin N) (w : Waiter ε) : Out ε × State N M ε :=
  if s.action i = .ignore then (.done, s)
  else (.goesOn, raise s j i w)

/-- The end of `exception_wait`: `ulock` is released, then the lock of the entry taken. -/
def waitUnlock (j : Fin M) (i : Fin N) : State N M ε :=
  { s with ulock := false, cores := update s.cores j (.waits i) }

def waitLock (j : Fin M) (i : Fin N) : State N M ε :=
  { s with locks := update s.locks (i, j) true, cores := update s.cores j .out }

end Calls

/-- A step, if it can be taken. A core raises one exception at a time, a lock is taken when it is
free, and the handler does not pause again with an exception in its hands. -/
def step (s : State N M ε) : Act N M ε → Option (Out ε × State N M ε)
  | .control i action => some (exceptionControl s i action)
  | .wait j i thread excp => if s.cores j = .out then some (exceptionWait s j i ⟨thread, excp⟩) else none
  | .unlock j =>
    match s.cores j with
    | .raised i => some (.goesOn, waitUnlock s j i)
    | _ => none
  | .lock j =>
    match s.cores j with
    | .waits i => if s.locks (i, j) then none else some (.done, waitLock s j i)
    | _ => none
  | .pause store => if s.handler = .out then some (exceptionPause s store) else none
  | .acquire =>
    match s.handler with
    | .blocked store =>
      if s.ulock then none else some (.goesOn, { s with ulock := true, handler := .woken store })
    | _ => none
  | .regrab =>
    match s.handler with
    | .woken store => some (pauseGrab s store)
    | _ => none
  | .resume => if s.handler = .out ∨ s.handler = .serving then some (exceptionResume s) else none

def steps : Steps (State N M ε) (Act N M ε) (Out ε) := fun s a o t => step s a = some (o, t)

def init : State N M ε where
  action _ := .ignore
  waiting _ := none
  locks _ := true
  ulock := true
  handling := none
  cores _ := .out
  handler := .out

def Runs (tr : List (Event (State N M ε) (Act N M ε) (Out ε))) (s : State N M ε) : Prop :=
  Run steps init tr s

/-! ### What a step does -/

variable {s t : State N M ε} {a : Act N M ε} {o : Out ε}

/-- An attempt takes an entry of a handled exception. -/
theorem exceptionGrab_some {k : Fin N × Fin M} (h : exceptionGrab s = some k) :
    s.action k.1 = .handle ∧ (s.waiting k).isSome := by
  obtain ⟨i, -, hi⟩ := List.exists_of_findSome?_eq_some h
  split at hi
  · rename_i hact
    obtain ⟨j, hj, rfl⟩ := Option.map_eq_some_iff.mp hi
    exact ⟨hact, by simpa using List.find?_some hj⟩
  · cases hi

/-- An attempt fails if nobody waits with a handled exception. -/
theorem exceptionGrab_none (h : exceptionGrab s = none) {i : Fin N} (hi : s.action i = .handle)
    (j : Fin M) : s.waiting (i, j) = none := by
  have hnone := List.findSome?_eq_none_iff.mp h i (List.mem_finRange i)
  rw [if_pos hi, Option.map_eq_none_iff, List.find?_eq_none] at hnone
  simpa using hnone j (List.mem_finRange j)

/-- The handler is where it looks for an exception. -/
def Looks (s : State N M ε) (a : Act N M ε) (store : Bool) : Prop :=
  (a = .pause store ∧ s.handler = .out) ∨ (a = .regrab ∧ s.handler = .woken store)

inductive StepOutcome (s : State N M ε) : Act N M ε → Out ε → State N M ε → Prop
  | failed {a err} (hcall : (∃ i c, a = .control i c) ∨ ∃ b, a = .pause b) : StepOutcome s a (.fails err) s
  | ignored {j i thread excp} (hact : s.action i = .ignore) : StepOutcome s (.wait j i thread excp) .done s
  | controlled {i action} (hnone : action = .ignore → ∀ j, s.waiting (i, j) = none) :
      StepOutcome s (.control i action) .done { s with action := update s.action i action }
  | raised {j i thread excp} (hcore : s.cores j = .out) (hact : s.action i = .handle) :
      StepOutcome s (.wait j i thread excp) .goesOn (raise s j i ⟨thread, excp⟩)
  | unlocked {j i} (hcore : s.cores j = .raised i) : StepOutcome s (.unlock j) .goesOn (waitUnlock s j i)
  | left {j i} (hcore : s.cores j = .waits i) (hfree : s.locks (i, j) = false) :
      StepOutcome s (.lock j) .done (waitLock s j i)
  | grabbed {a store k} (hlook : Looks s a store) (hact : s.action k.1 = .handle)
      (hwait : (s.waiting k).isSome) :
      StepOutcome s a ⟨some (.ok ()), if store then (s.waiting k).map (·.excp) else none⟩ (serve s k)
  | slept {a store} (hlook : Looks s a store)
      (hnone : ∀ i j, s.action i = .handle → s.waiting (i, j) = none) :
      StepOutcome s a .goesOn { s with handler := .blocked store }
  | acquired {store} (hpc : s.handler = .blocked store) (hfree : s.ulock = false) :
      StepOutcome s .acquire .goesOn { s with ulock := true, handler := .woken store }
  | idle {err} (hno : ∀ k, s.handling = some k → s.action k.1 = .ignore ∨ s.waiting k = none) :
      StepOutcome s .resume (.fails err) { s with handler := .out }
  | resumed {k} (hk : s.handling = some k) (hwait : (s.waiting k).isSome) :
      StepOutcome s .resume .done (release s k)

theorem ne_ignore {c : Action} : c ≠ .ignore ↔ c = .handle := by
  cases c <;> simp

theorem pauseGrab_cases {store : Bool} (hlook : Looks s a store) (h : pauseGrab s store = (o, t)) :
    StepOutcome s a o t := by
  unfold pauseGrab at h
  split at h
  · rename_i k hk
    cases h
    obtain ⟨hact, hwait⟩ := exceptionGrab_some hk
    exact .grabbed hlook hact hwait
  · rename_i hk
    cases h
    exact .slept hlook fun i j hi => exceptionGrab_none hk hi j

theorem exceptionResume_cases (h : exceptionResume s = (o, t)) : StepOutcome s .resume o t := by
  unfold exceptionResume at h
  split at h
  · rename_i hk
    cases h
    exact .idle fun k hk' => by rw [hk] at hk'; cases hk'
  · rename_i k hk
    have same : ∀ {k'}, s.handling = some k' → k' = k := fun hk' => by
      rw [hk] at hk'
      exact (Option.some.inj hk').symm
    split at h
    · rename_i hact
      cases h
      exact .idle fun k' hk' => .inl (by rw [same hk', hact])
    · split at h
      · rename_i hwait
        cases h
        exact .idle fun k' hk' => .inr (by rw [same hk', hwait])
      · rename_i hwait
        cases h
        exact .resumed hk (Option.isSome_iff_ne_none.mpr hwait)

theorem steps_cases (h : steps s a o t) : StepOutcome s a o t := by
  cases a with
  | control i action =>
    have h := Option.some.inj h
    unfold exceptionControl at h
    split at h
    · cases h
      exact .failed (.inl ⟨i, action, rfl⟩)
    · rename_i hno
      cases h
      refine .controlled fun hact j => ?_
      by_contra hw
      exact hno ⟨hact, j, Option.isSome_iff_ne_none.mpr hw⟩
  | wait j i thread excp =>
    simp only [steps, step] at h
    split at h
    · rename_i hcore
      have h := Option.some.inj h
      unfold exceptionWait at h
      split at h
      · rename_i hact
        cases h
        exact .ignored hact
      · rename_i hact
        cases h
        exact .raised hcore (ne_ignore.mp hact)
    · cases h
  | unlock j =>
    simp only [steps, step] at h
    split at h
    · rename_i i hcore
      cases h
      exact .unlocked hcore
    · cases h
  | lock j =>
    simp only [steps, step] at h
    split at h
    · rename_i i hcore
      split at h
      · cases h
      · rename_i hfree
        cases h
        exact .left hcore (by simpa using hfree)
    · cases h
  | pause store =>
    simp only [steps, step] at h
    split at h
    · rename_i hpc
      have h := Option.some.inj h
      unfold exceptionPause at h
      split at h
      · exact pauseGrab_cases (.inl ⟨rfl, hpc⟩) h
      · cases h
        exact .failed (.inr ⟨store, rfl⟩)
    · cases h
  | acquire =>
    simp only [steps, step] at h
    split at h
    · rename_i store hpc
      split at h
      · cases h
      · rename_i hfree
        cases h
        exact .acquired hpc (by simpa using hfree)
    · cases h
  | regrab =>
    simp only [steps, step] at h
    split at h
    · rename_i store hpc
      exact pauseGrab_cases (.inr ⟨rfl, hpc⟩) (Option.some.inj h)
    · cases h
  | resume =>
    simp only [steps, step] at h
    split at h
    · exact exceptionResume_cases (Option.some.inj h)
    · cases h

end Nanvix.Pm.Exception
