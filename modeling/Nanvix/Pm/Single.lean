import Nanvix.Pm.Exception
import Nanvix.Pm.Thread

/-! The thread manager of clusters whose cores run one thread each. `thread_alloc` gives the thread in
slot `i` the core `i`, so the table of threads has one slot for each core, the master's among them.
The table of threads that wait in an exception has one entry less, one for each user thread, and
`exception_wait` takes the number of the core for the index in it. A section that holds `lock_tm` is
one step, and so is each attempt to start a core. -/

namespace Nanvix.Pm.Single

open Nanvix.Lib Function

/-- `struct thread`, as far as the allocation of slots and cores is concerned. -/
structure Thread where
  tid : ℤ
  coreid : ℤ
  state : ThreadState
  deriving DecidableEq, Repr

/-- What `core_start` answers: 0, `-EBUSY`, or another error. -/
inductive Start where
  | ok | busy | failed
  deriving DecidableEq, Repr

/-- What a core executes: nothing, user code, `thread_create` with the new thread in slot `i` after
`trials` calls of `core_start` or before its rollback, or the end of `thread_exit`. -/
inductive Core where
  | idle
  | user
  | starting (i trials : ℕ)
  | rollback (i : ℕ) (ret : Start)
  | leaving
  deriving DecidableEq, Repr

/-- The thread manager and what the cores execute. -/
structure State where
  threads : ℕ → Thread
  nthreads : ℤ
  nextTid : ℤ
  cores : ℕ → Core

namespace State

variable (s : State)

def setThread (i : ℕ) (t : Thread) : State := { s with threads := update s.threads i t }

def setCore (c : ℕ) (x : Core) : State := { s with cores := update s.cores c x }

@[simp] theorem setThread_threads (i : ℕ) (t : Thread) :
    (s.setThread i t).threads = update s.threads i t := rfl

@[simp] theorem setThread_nextTid (i : ℕ) (t : Thread) : (s.setThread i t).nextTid = s.nextTid := rfl

@[simp] theorem setThread_cores (i : ℕ) (t : Thread) : (s.setThread i t).cores = s.cores := rfl

@[simp] theorem setCore_threads (c : ℕ) (x : Core) : (s.setCore c x).threads = s.threads := rfl

@[simp] theorem setCore_cores (c : ℕ) (x : Core) :
    (s.setCore c x).cores = update s.cores c x := rfl

end State

inductive Act where
  | create (c : ℕ)
  | start (c : ℕ) (ret : Start)
  | undo (c : ℕ)
  | exit (c : ℕ)
  | reset (c : ℕ)
  deriving DecidableEq, Repr

/-- What `thread_create` returns: 0, `-EAGAIN`, or what `core_start` has answered. -/
inductive Ret where
  | ok | EAGAIN
  | start (ret : Start)
  deriving DecidableEq, Repr

/-- What a step shows: the thread ID that `thread_create` stores for its caller, and what it returns. -/
structure Out where
  tid : Option ℤ := none
  ret : Option Ret := none
  deriving DecidableEq, Repr

def createNtrials : ℕ := 5

/-- `THREAD_MAX` on `n` cores: one user thread for each core but the master's. -/
def threadMax (n : ℕ) : ℕ := n - 1

def kthreadMax (n : ℕ) : ℕ := 1 + threadMax n

variable (n : ℕ)

def threadGetCurr (s : State) (c : ℕ) : Option ℕ :=
  (List.range (kthreadMax n)).find? fun i => decide ((s.threads i).coreid = c)

/-- The loop of `thread_alloc`. -/
def allocSlot (s : State) : Option ℕ :=
  (List.range (kthreadMax n)).tail.find? fun i => decide ((s.threads i).state = .notStarted)

def threadAlloc (s : State) : Option (ℕ × State) :=
  match allocSlot n s with
  | none => none
  | some i => some (i, { s.setThread i { s.threads i with coreid := i, state := .started } with
      nthreads := s.nthreads + 1 })

def threadFree (s : State) (i : ℕ) : State :=
  { s.setThread i ⟨-1, -1, .notStarted⟩ with nthreads := s.nthreads - 1 }

/-- `thread_create` under `lock_tm`. -/
def threadCreate (s : State) (c : ℕ) : Out × State :=
  match threadAlloc n s with
  | none => ({ ret := some .EAGAIN }, s)
  | some (i, s) =>
    ({ tid := some s.nextTid }, { s.setThread i { s.threads i with tid := s.nextTid, state := .running } with
      nextTid := s.nextTid + 1 }.setCore c (.starting i 0))

/-- A step, if it can be taken. A core is started only when it is idle; the master does not exit. -/
def step (s : State) : Act → Option (Out × State)
  | .create c => if s.cores c = .user then some (threadCreate n s c) else none
  | .start c ret =>
    match s.cores c with
    | .starting i trials =>
      match ret with
      | .ok =>
        if s.cores i = .idle then some ({ ret := some .ok }, (s.setCore c .user).setCore i .user)
        else none
      | .busy =>
        if trials + 1 < createNtrials then some ({}, s.setCore c (.starting i (trials + 1)))
        else some ({}, s.setCore c (.rollback i .busy))
      | .failed => some ({}, s.setCore c (.rollback i .failed))
    | _ => none
  | .undo c =>
    match s.cores c with
    | .rollback i ret => some ({ ret := some (.start ret) }, (threadFree s i).setCore c .user)
    | _ => none
  | .exit c =>
    if s.cores c = .user ∧ c ≠ 0 then
      match threadGetCurr n s c with
      | some i => some ({}, (threadFree s i).setCore c .leaving)
      | none => none
    else none
  | .reset c => if s.cores c = .leaving then some ({}, s.setCore c .idle) else none

def steps : Steps State Act Out := fun s a o t => step n s a = some (o, t)

/-- The static initialisers. -/
def boot : State where
  threads i := if i = 0 then ⟨0, 0, .running⟩ else ⟨-1, 0, .notStarted⟩
  nthreads := 1
  nextTid := 1
  cores c := if c = 0 then .user else .idle

def Runs (tr : List (Event State Act Out)) (s : State) : Prop := Run (steps n) boot tr s

def Core.active : Core → Bool
  | .idle | .leaving => false
  | _ => true

/-- The slot that a core is about to start, or to give up. -/
def Core.pending : Core → Option ℕ
  | .starting i _ | .rollback i _ => some i
  | _ => none

/-- A thread has the core with the number of its slot. -/
structure Placed (s : State) : Prop where
  taken : ∀ i, (s.threads i).state ≠ .notStarted → (s.threads i).coreid = i
  free : ∀ i, (s.threads i).state = .notStarted → (s.threads i).coreid = 0 ∨ (s.threads i).coreid = -1
  active : ∀ c, (s.cores c).active = true → c < kthreadMax n ∧ (s.threads c).state ≠ .notStarted
  pending : ∀ c i, (s.cores c).pending = some i →
    (1 ≤ i ∧ i < kthreadMax n) ∧ (s.threads i).state ≠ .notStarted ∧ (s.cores i).active = false
  once : ∀ c d i, (s.cores c).pending = some i → (s.cores d).pending = some i → c = d
  master : (s.threads 0).state ≠ .notStarted

variable {n} {s t : State} {a : Act} {o : Out} {c d i : ℕ}

theorem Core.active_of_pending {x : Core} (h : x.pending = some i) : x.active = true := by
  cases x with
  | starting | rollback => rfl
  | idle | user | leaving => cases h

theorem ne_of_active (hc : (s.cores c).active = true) (hd : (s.cores d).active = false) : d ≠ c := by
  rintro rfl
  rw [hc] at hd
  cases hd

theorem allocSlot_some (h : allocSlot n s = some i) :
    (1 ≤ i ∧ i < kthreadMax n) ∧ (s.threads i).state = .notStarted := by
  have hmem := List.mem_of_find?_eq_some h
  rw [List.range_eq_range', List.tail_range', List.mem_range'_1] at hmem
  exact ⟨by omega, by simpa using List.find?_some h⟩

/-- A new thread is in the table and its core is to be started. -/
theorem threadCreate_eq (h : allocSlot n s = some i) : threadCreate n s c =
    ({ tid := some s.nextTid },
      { threads := update s.threads i ⟨s.nextTid, i, .running⟩, nthreads := s.nthreads + 1,
        nextTid := s.nextTid + 1, cores := update s.cores c (.starting i 0) }) := by
  simp [threadCreate, threadAlloc, h, State.setThread, State.setCore]

namespace Placed

/-- The thread that a core takes for its own is the one in its slot. -/
theorem threadGetCurr_eq (h : Placed n s) (hc : (s.cores c).active = true) :
    threadGetCurr n s c = some c := by
  obtain ⟨hlt, hst⟩ := h.active c hc
  rw [threadGetCurr, List.find?_range_eq_some]
  refine ⟨by simpa using h.taken c hst, List.mem_range.mpr hlt, fun j hj => ?_⟩
  -- a slot before it has its own core, or none
  have hne : (s.threads j).coreid ≠ c := by
    by_cases hs : (s.threads j).state = .notStarted
    · rcases h.free j hs with h0 | h1 <;> omega
    · rw [h.taken j hs]
      omega
  simpa using hne

/-- A core goes on with what it was at. -/
theorem setCore (h : Placed n s) {x : Core} (hp : x.pending = (s.cores c).pending)
    (ha : x.active = (s.cores c).active) : Placed n (s.setCore c x) := by
  have hsame : ∀ d, (update s.cores c x d).pending = (s.cores d).pending ∧
      (update s.cores c x d).active = (s.cores d).active := by
    intro d
    by_cases hd : d = c
    · subst hd
      simp [hp, ha]
    · simp [hd]
  constructor
  · exact h.taken
  · exact h.free
  · intro d hd
    exact h.active d (by simpa [hsame] using hd)
  · intro d i hd
    simpa [hsame] using h.pending d i (by simpa [hsame] using hd)
  · intro d e i hd he
    exact h.once d e i (by simpa [hsame] using hd) (by simpa [hsame] using he)
  · exact h.master

/-- A slot is taken, and its creator is to start the core. -/
theorem create (h : Placed n s) (hc : s.cores c = .user) (hi : allocSlot n s = some i) {x : Thread}
    (hx : x.coreid = i) (hst : x.state ≠ .notStarted) {u : State}
    (hthreads : u.threads = update s.threads i x)
    (hcores : u.cores = update s.cores c (.starting i 0)) : Placed n u := by
  obtain ⟨hlt, hfree⟩ := allocSlot_some hi
  have hca : (s.cores c).active = true := by rw [hc]; rfl
  have hia : (s.cores i).active = false := by
    by_contra hact
    exact (h.active i (by simpa using hact)).2 hfree
  have hic : i ≠ c := ne_of_active hca hia
  have hold : ∀ j, (s.threads j).state ≠ .notStarted → (u.threads j).state ≠ .notStarted := by
    intro j hj
    have hji : j ≠ i := fun heq => hj (heq ▸ hfree)
    rwa [hthreads, update_of_ne hji]
  have hself : u.threads i = x := by rw [hthreads, update_self]
  have hother : ∀ j, j ≠ i → u.threads j = s.threads j := fun j hj => by
    rw [hthreads, update_of_ne hj]
  have hmine : u.cores c = .starting i 0 := by rw [hcores, update_self]
  have hrest : ∀ d, d ≠ c → u.cores d = s.cores d := fun d hd => by rw [hcores, update_of_ne hd]
  constructor
  · intro j hj
    by_cases hji : j = i
    · rw [hji, hself, hx]
    · rw [hother j hji] at hj ⊢
      exact h.taken j hj
  · intro j hj
    have hji : j ≠ i := fun heq => hst (by rw [← hself, ← heq, hj])
    rw [hother j hji] at hj ⊢
    exact h.free j hj
  · intro d hd
    have hds : (s.cores d).active = true := by
      by_cases hdc : d = c
      · rw [hdc, hca]
      · rwa [hrest d hdc] at hd
    exact ⟨(h.active d hds).1, hold d (h.active d hds).2⟩
  · intro d j hd
    by_cases hdc : d = c
    · rw [hdc, hmine] at hd
      cases hd
      exact ⟨hlt, by rwa [hself], by rwa [hrest i hic]⟩
    · rw [hrest d hdc] at hd
      obtain ⟨hj, hjs, hja⟩ := h.pending d j hd
      have hjc : j ≠ c := ne_of_active hca hja
      exact ⟨hj, hold j hjs, by rwa [hrest j hjc]⟩
  · -- nobody else was about to start the slot, which was free
    have hnew : ∀ d, d ≠ c → (u.cores d).pending ≠ some i := by
      intro d hd hp
      rw [hrest d hd] at hp
      exact (h.pending d i hp).2.1 hfree
    intro d e j hd he
    by_cases hdc : d = c
    · rw [hdc, hmine] at hd
      cases hd
      by_contra hne
      exact hnew e (fun hec => hne (by rw [hdc, hec])) he
    · by_cases hec : e = c
      · rw [hec, hmine] at he
        cases he
        exact absurd hd (hnew d hdc)
      · rw [hrest d hdc] at hd
        rw [hrest e hec] at he
        exact h.once d e j hd he
  · exact hold 0 h.master

/-- The core of a new thread is started. -/
theorem started (h : Placed n s) {k : ℕ} (hc : s.cores c = .starting i k) (hi : s.cores i = .idle) :
    Placed n ((s.setCore c .user).setCore i .user) := by
  have hp : (s.cores c).pending = some i := by rw [hc]; rfl
  have hca := Core.active_of_pending hp
  obtain ⟨hlt, hst, hia⟩ := h.pending c i hp
  have hrest : ∀ d, d ≠ c → d ≠ i →
      ((s.setCore c .user).setCore i .user).cores d = s.cores d := fun d hdc hdi => by simp [hdc, hdi]
  have hmine : ∀ d, d = c ∨ d = i → ((s.setCore c .user).setCore i .user).cores d = .user := by
    rintro d (rfl | rfl) <;> simp [update_apply]
  -- only cores other than these two have a slot to start, and not this one
  have hothers : ∀ d j, (((s.setCore c .user).setCore i .user).cores d).pending = some j →
      (d ≠ c ∧ d ≠ i) ∧ (s.cores d).pending = some j := by
    intro d j hd
    by_cases hdd : d = c ∨ d = i
    · rw [hmine d hdd] at hd
      cases hd
    · push Not at hdd
      exact ⟨hdd, by rwa [hrest d hdd.1 hdd.2] at hd⟩
  constructor
  · exact h.taken
  · exact h.free
  · intro d hd
    by_cases hdc : d = c
    · exact h.active d (by rw [hdc, hca])
    by_cases hdi : d = i
    · rw [hdi]
      exact ⟨hlt.2, hst⟩
    · rw [hrest d hdc hdi] at hd
      exact h.active d hd
  · intro d j hd
    obtain ⟨⟨hdc, -⟩, hps⟩ := hothers d j hd
    obtain ⟨hj, hjs, hja⟩ := h.pending d j hps
    have hjc : j ≠ c := ne_of_active hca hja
    have hji : j ≠ i := by
      rintro rfl
      exact hdc (h.once d c j hps hp)
    exact ⟨hj, hjs, by rwa [hrest j hjc hji]⟩
  · intro d e j hd he
    exact h.once d e j (hothers d j hd).2 (hothers e j he).2
  · exact h.master

/-- A slot is freed of which no core executes the thread afterwards, by the core that had it. -/
theorem freed (h : Placed n s) {x : Core} (hi0 : i ≠ 0) (hown : ∀ d, (s.cores d).active = true → d = i → d = c)
    (hx : x.active = true → c ≠ i) (hca : (s.cores c).active = true) (hxp : x.pending = none)
    (hpend : ∀ d, (s.cores d).pending = some i → d = c) : Placed n ((threadFree s i).setCore c x) := by
  have hself : ((threadFree s i).setCore c x).threads i = ⟨-1, -1, .notStarted⟩ := by
    simp [threadFree]
  have hother : ∀ j, j ≠ i → ((threadFree s i).setCore c x).threads j = s.threads j := fun j hj => by
    simp [threadFree, hj]
  have hmine : ((threadFree s i).setCore c x).cores c = x := by simp
  have hrest : ∀ d, d ≠ c → ((threadFree s i).setCore c x).cores d = s.cores d := fun d hd => by
    simp [threadFree, hd]
  have hothers : ∀ d j, (((threadFree s i).setCore c x).cores d).pending = some j →
      d ≠ c ∧ (s.cores d).pending = some j := by
    intro d j hd
    by_cases hdc : d = c
    · rw [hdc, hmine, hxp] at hd
      cases hd
    · exact ⟨hdc, by rwa [hrest d hdc] at hd⟩
  constructor
  · intro j hj
    by_cases hji : j = i
    · rw [hji, hself] at hj
      exact absurd rfl hj
    · rw [hother j hji] at hj ⊢
      exact h.taken j hj
  · intro j hj
    by_cases hji : j = i
    · rw [hji, hself]
      exact .inr rfl
    · rw [hother j hji] at hj ⊢
      exact h.free j hj
  · intro d hd
    by_cases hdc : d = c
    · rw [hdc, hmine] at hd
      rw [hdc, hother c (hx hd)]
      exact h.active c hca
    · rw [hrest d hdc] at hd
      have hdi : d ≠ i := fun hdi => hdc (hown d hd hdi)
      rw [hother d hdi]
      exact h.active d hd
  · intro d j hd
    obtain ⟨hdc, hps⟩ := hothers d j hd
    obtain ⟨hj, hjs, hja⟩ := h.pending d j hps
    have hjc : j ≠ c := ne_of_active hca hja
    have hji : j ≠ i := by
      rintro rfl
      exact hdc (hpend d hps)
    exact ⟨hj, by rwa [hother j hji], by rwa [hrest j hjc]⟩
  · intro d e j hd he
    exact h.once d e j (hothers d j hd).2 (hothers e j he).2
  · rw [hother 0 hi0.symm]
    exact h.master

theorem step (h : Placed n s) (hs : steps n s a o t) : Placed n t := by
  cases a with
  | create c =>
    simp only [steps, Single.step] at hs
    split at hs
    · rename_i hc
      cases hslot : allocSlot n s with
      | none =>
        rw [threadCreate, threadAlloc, hslot] at hs
        cases hs
        exact h
      | some i =>
        rw [threadCreate_eq hslot] at hs
        cases hs
        exact h.create hc hslot (x := ⟨s.nextTid, i, .running⟩) rfl (by simp) rfl rfl
    · cases hs
  | start c ret =>
    simp only [steps, Single.step] at hs
    split at hs
    · rename_i i trials hc
      cases ret with
      | ok =>
        dsimp only at hs
        split at hs
        · rename_i hi
          cases hs
          exact h.started hc hi
        · cases hs
      | busy =>
        dsimp only at hs
        split at hs <;>
        · cases hs
          exact h.setCore (by rw [hc]; rfl) (by rw [hc]; rfl)
      | failed =>
        cases hs
        exact h.setCore (by rw [hc]; rfl) (by rw [hc]; rfl)
    · cases hs
  | undo c =>
    simp only [steps, Single.step] at hs
    split at hs
    · rename_i i ret hc
      cases hs
      have hp : (s.cores c).pending = some i := by rw [hc]; rfl
      obtain ⟨hlt, -, hia⟩ := h.pending c i hp
      have hca := Core.active_of_pending hp
      refine h.freed (by omega) (fun d hd heq => ?_) (fun _ => (ne_of_active hca hia).symm) hca rfl
        fun d hd => h.once d c i hd hp
      exact absurd heq.symm (ne_of_active hd hia)
    · cases hs
  | exit c =>
    simp only [steps, Single.step] at hs
    split at hs
    · rename_i hc
      have hca : (s.cores c).active = true := by rw [hc.1]; rfl
      rw [h.threadGetCurr_eq hca] at hs
      cases hs
      refine h.freed hc.2 (fun d _ hd => hd) (fun hx => by cases hx) hca rfl fun d hd => ?_
      exact absurd rfl (ne_of_active hca (h.pending d c hd).2.2)
    · cases hs
  | reset c =>
    simp only [steps, Single.step] at hs
    split at hs
    · rename_i hc
      cases hs
      exact h.setCore (by rw [hc]; rfl) (by rw [hc]; rfl)
    · cases hs

theorem boot : Placed n boot := by
  have hcore : ∀ c, (Single.boot.cores c).active = true → c = 0 := by
    intro c hc
    by_contra h0
    simp [Single.boot, h0, Core.active] at hc
  have hpend : ∀ c, (Single.boot.cores c).pending = none := by
    intro c
    unfold Single.boot
    dsimp only
    split <;> rfl
  constructor
  · intro i hi
    by_cases h0 : i = 0 <;> simp_all [Single.boot]
  · intro i hi
    by_cases h0 : i = 0 <;> simp_all [Single.boot]
  · intro c hc
    rw [hcore c hc]
    exact ⟨by unfold kthreadMax; omega, by simp [Single.boot]⟩
  · intro c i hc
    rw [hpend c] at hc
    cases hc
  · intro c d i hc
    rw [hpend c] at hc
    cases hc
  · simp [Single.boot]

end Placed

theorem placed_runs {tr : List (Event State Act Out)} (h : Runs n tr s) : Placed n s :=
  Run.invariant h (P := fun _ => True) Placed.boot (fun _ _ => trivial)
    fun _ hs _ hi => hi.step hs

/-! ### Exceptions -/

section Exceptions

open Nanvix.Pm.Exception (Waiter exceptionWait exceptionGrab exceptionResume serve release exceptionGrab_some
  exceptionGrab_none)

variable {N M : ℕ} {ε : Type} {x y : Exception.State N M ε} {e : Fin N} {j : Fin M} {w : Waiter ε}

/-- `exception_wait` on core `c`: the entry is that of the core that the current thread has according
to the table. There is no state after an access outside of the table. -/
def exceptionWaitOn (n : ℕ) (s : State) (c : ℕ) (x : Exception.State N (threadMax n) ε) (e : Fin N)
    (excp : ε) : Option (Exception.Out ε × Exception.State N (threadMax n) ε) :=
  match threadGetCurr n s c with
  | none => none
  | some t =>
    if x.action e = .ignore then some (.done, x)
    else if h : 0 ≤ (s.threads t).coreid ∧ (s.threads t).coreid < threadMax n then
      some (exceptionWait x ⟨(s.threads t).coreid.toNat, by omega⟩ e ⟨t, excp⟩)
    else none

/-- The thread `w` waits in an entry where the handler finds it, takes it and resumes it. -/
structure Resumable (y : Exception.State N M ε) (e : Fin N) (j : Fin M) (w : Waiter ε) : Prop where
  stored : y.waiting (e, j) = some w
  found : (exceptionGrab y).isSome = true
  alone : (∀ k, k ≠ (e, j) → y.waiting k = none) → exceptionGrab y = some (e, j)
  resumed : exceptionResume (serve y (e, j)) = (.done, release (serve y (e, j)) (e, j))

theorem resumable_of_waiting (hact : y.action e = .handle) (hw : y.waiting (e, j) = some w) :
    Resumable y e j w := by
  have hfound : exceptionGrab y ≠ none := by
    intro hnone
    rw [exceptionGrab_none hnone hact j] at hw
    cases hw
  refine ⟨hw, Option.isSome_iff_ne_none.mpr hfound, fun halone => ?_, ?_⟩
  · obtain ⟨k, hk⟩ := Option.ne_none_iff_exists'.mp hfound
    have hwait := (exceptionGrab_some hk).2
    by_cases hkj : k = (e, j)
    · rw [hk, hkj]
    · rw [halone k hkj] at hwait
      cases hwait
  · simp [exceptionResume, serve, hact, hw]

/-- What `exception_wait` does for a thread in its place. -/
theorem exceptionWaitOn_eq {x : Exception.State N (threadMax n) ε} (h : Placed n s)
    (hc : (s.cores c).active = true) (hact : x.action e = .handle) (excp : ε) :
    exceptionWaitOn n s c x e excp = if hlt : c < threadMax n then
      some (exceptionWait x ⟨c, hlt⟩ e ⟨c, excp⟩) else none := by
  have hcore := h.taken c (h.active c hc).2
  unfold exceptionWaitOn
  rw [h.threadGetCurr_eq hc]
  dsimp only
  rw [if_neg (by rw [hact]; simp)]
  by_cases hlt : c < threadMax n
  · rw [dif_pos (by omega), dif_pos hlt]
    simp [hcore]
  · rw [dif_neg (by omega), dif_neg hlt]

end Exceptions

/-- A thread that raises an exception is stored in the table and can be resumed by the handler exactly
if it is not the thread of the last core. -/
theorem exception_index_iff {N : ℕ} {ε : Type} {tr : List (Event State Act Out)} (h : Runs n tr s)
    (hc : (s.cores c).active = true) (x : Exception.State N (threadMax n) ε) (e : Fin N)
    (hact : x.action e = .handle) (excp : ε) :
    (∃ j y, exceptionWaitOn n s c x e excp = some (.goesOn, y) ∧ Resumable y e j ⟨c, excp⟩) ↔ c ≠ n - 1 := by
  have hp := placed_runs h
  have hlt := (hp.active c hc).1
  rw [exceptionWaitOn_eq hp hc hact excp]
  unfold kthreadMax at hlt
  by_cases hin : c < threadMax n
  · rw [dif_pos hin]
    refine iff_of_true ⟨⟨c, hin⟩, Exception.raise x ⟨c, hin⟩ e ⟨c, excp⟩, ?_, ?_⟩ (by unfold threadMax at hin; omega)
    · simp [Exception.exceptionWait, hact]
    · exact resumable_of_waiting (by simpa [Exception.raise] using hact) (by simp [Exception.raise])
  · rw [dif_neg hin]
    refine iff_of_false ?_ (by unfold threadMax at hin hlt; omega)
    rintro ⟨j, y, hsome, -⟩
    cases hsome

/-- The master has started the first `k` cores, and no others. -/
structure Filled (k : ℕ) (s : State) : Prop where
  busy : ∀ c ≤ k, s.cores c = .user ∧ (s.threads c).state ≠ .notStarted
  spare : ∀ c, k < c → s.cores c = .idle ∧ (s.threads c).state = .notStarted

/-- The master starts the next core. -/
theorem Filled.next {k : ℕ} (h : Filled k s) (hk : k + 1 < kthreadMax n) :
    ∃ o t u, steps n s (.create 0) o t ∧ steps n t (.start 0 .ok) { ret := some .ok } u ∧ Filled (k + 1) u := by
  have hslot : allocSlot n s = some (k + 1) := by
    rw [allocSlot, List.range_eq_range', List.tail_range', List.find?_range'_eq_some]
    refine ⟨by simpa using (h.spare (k + 1) (by omega)).2, ?_, fun j _ hj => ?_⟩
    · simp only [List.mem_range'_1]
      omega
    · simpa using (h.busy j (by omega)).2
  have h0 := (h.busy 0 (by omega)).1
  have hidle := (h.spare (k + 1) (by omega)).1
  obtain ⟨o, t, hcreate, hthreads, hcores⟩ : ∃ o t, steps n s (.create 0) o t ∧
      t.threads = update s.threads (k + 1) ⟨s.nextTid, (k + 1 : ℕ), .running⟩ ∧
      t.cores = update s.cores 0 (.starting (k + 1) 0) := by
    refine ⟨(threadCreate n s 0).1, (threadCreate n s 0).2, by simp [steps, step, h0], ?_, ?_⟩ <;>
    rw [threadCreate_eq hslot]
  refine ⟨o, t, (t.setCore 0 .user).setCore (k + 1) .user, hcreate, ?_, ⟨fun c hc => ?_, fun c hc => ?_⟩⟩
  · simp [steps, step, hcores, hidle]
  · by_cases hck : c = k + 1
    · subst hck
      simp [hthreads]
    · obtain ⟨hu, hst⟩ := h.busy c (by omega)
      by_cases hc0 : c = 0
      · subst hc0
        simpa [hthreads] using hst
      · simp [hcores, hthreads, hck, hc0, hu, hst]
  · obtain ⟨hi, hst⟩ := h.spare c (by omega)
    have hck : c ≠ k + 1 := by omega
    have hc0 : c ≠ 0 := by omega
    simp [hcores, hthreads, hck, hc0, hi, hst]

/-- Every slot of the table can hold a thread, the last one included. -/
theorem exists_filled {k : ℕ} (hk : k < kthreadMax n) : ∃ tr s, Runs n tr s ∧ Filled k s := by
  induction k with
  | zero =>
    refine ⟨[], boot, .nil, fun c hc => ?_, fun c hc => ?_⟩
    · obtain rfl : c = 0 := by omega
      simp [boot]
    · have hc0 : c ≠ 0 := by omega
      simp [boot, hc0]
  | succ k ih =>
    obtain ⟨tr, s, hrun, hfill⟩ := ih (by omega)
    obtain ⟨o, t, u, hcreate, hstart, hnext⟩ := hfill.next hk
    exact ⟨_, u, (Run.snoc hrun hcreate).snoc hstart, hnext⟩

/-- On any number of cores the last one comes to have a thread, whose exceptions go outside of the
table. -/
theorem exception_index_last (n : ℕ) {N : ℕ} {ε : Type} : ∃ tr s, Runs n tr s ∧ s.cores (n - 1) = .user ∧
    ∀ (x : Exception.State N (threadMax n) ε) (e : Fin N) (excp : ε), x.action e = .handle →
      exceptionWaitOn n s (n - 1) x e excp = none := by
  obtain ⟨tr, s, hrun, hfill⟩ := exists_filled (n := n) (k := n - 1) (by unfold kthreadMax threadMax; omega)
  have hcore := (hfill.busy (n - 1) le_rfl).1
  refine ⟨tr, s, hrun, hcore, fun x e excp hact => ?_⟩
  rw [exceptionWaitOn_eq (placed_runs hrun) (by rw [hcore]; rfl) hact excp]
  exact dif_neg (by unfold threadMax; omega)

/-- The state of the exceptions when a handler serves the only one there is. -/
def handled (n : ℕ) : Exception.State 1 (threadMax n) Unit :=
  { Exception.init with action := fun _ => .handle }

/-- Three cores: the thread on core 1 is stored and can be resumed. -/
theorem exception_index_first : ∃ tr s, Runs 3 tr s ∧ tr.map (·.act) = [.create 0, .start 0 .ok] ∧
    (s.cores 1).active = true ∧ ∃ j y, exceptionWaitOn 3 s 1 (handled 3) 0 () = some (.goesOn, y) ∧
      Resumable y 0 j ⟨1, ()⟩ := by
  obtain ⟨tr, s, hrun, hacts, hact⟩ := exists_run_of_exec (f := step 3) (s := boot)
    [.create 0, .start 0 .ok] (fun r => (r.2.cores 1).active = true) (by decide +kernel)
  exact ⟨tr, s, hrun, hacts, hact, (exception_index_iff hrun hact (handled 3) 0 rfl ()).mpr (by decide)⟩

/-- The thread on core 2 is beyond the two entries of the table. -/
theorem not_exception_index : ∃ tr s, Runs 3 tr s ∧
    tr.map (·.act) = [.create 0, .start 0 .ok, .create 0, .start 0 .ok] ∧ s.cores 2 = .user ∧
    threadGetCurr 3 s 2 = some 2 ∧ (s.threads 2).coreid = 2 ∧ threadMax 3 = 2 ∧
    exceptionWaitOn 3 s 2 (handled 3) 0 () = none := by
  obtain ⟨tr, s, hrun, hacts, hcore, hcurr, hid⟩ := exists_run_of_exec (f := step 3) (s := boot)
    [.create 0, .start 0 .ok, .create 0, .start 0 .ok]
    (fun r => r.2.cores 2 = .user ∧ threadGetCurr 3 r.2 2 = some 2 ∧ (r.2.threads 2).coreid = 2)
    (by decide +kernel)
  have hact : (s.cores 2).active = true := by rw [hcore]; rfl
  refine ⟨tr, s, hrun, hacts, hcore, hcurr, hid, rfl, ?_⟩
  rw [exceptionWaitOn_eq (placed_runs hrun) hact rfl ()]
  rfl

end Nanvix.Pm.Single
