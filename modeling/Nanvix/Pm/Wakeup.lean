import Mathlib.Data.Int.Notation
import Nanvix.Lib.Trace
import Nanvix.Pm.Thread

/-! Sleeping and waking up. `kernel_sleep` leaves the identifier of the thread in the queue of its core
and waits on the condition variable there; `kernel_wakeup` looks for the identifier and broadcasts.
The sleeper takes its identifier back only when it has the lock again: a wakeup that comes in between
finds it, wakes up nobody and reports success. A section under the lock is one step, and so is the
return of `core_sleep`, which consumes the token that `core_wakeup` leaves at the core. -/

namespace Nanvix.Pm.Wakeup

open Nanvix.Lib Function

/-- The threads of the cores, each with an identifier of its own. -/
structure Threads (P : Platform) where
  tid : ℕ → ℕ
  tid_inj : ∀ {c d}, c < P.coresNum → d < P.coresNum → tid c = tid d → c = d

/-- An entry of `queues`: the identifier, and the threads that wait on the condition variable, by
their cores. -/
structure Queue where
  tid : ℤ
  cond : List ℕ
  deriving DecidableEq, Repr

/-- Where the thread of a core is: not in `kernel_sleep`, in `core_sleep`, or past it and without the
lock. -/
inductive Place where
  | out | asleep | woken
  deriving DecidableEq, Repr

structure State where
  queues : ℕ → Queue
  tokens : ℕ → Bool
  places : ℕ → Place

/-- The thread of a core calls `kernel_sleep`, returns from `core_sleep`, and ends the call; somebody
calls `kernel_wakeup`. -/
inductive Act where
  | sleep (c : ℕ)
  | resume (c : ℕ)
  | finish (c : ℕ)
  | wakeup (tid : ℤ)
  deriving DecidableEq, Repr

inductive Out where
  | goesOn | ok | EINVAL | EAGAIN
  deriving DecidableEq, Repr

variable {P : Platform} (T : Threads P)

/-- `cond_wait` on the condition variable of a core, up to `core_sleep`. -/
def sleepSection (s : State) (c : ℕ) : State :=
  { s with
    queues := update s.queues c ⟨T.tid c, c :: (s.queues c).cond⟩
    places := update s.places c .asleep }

/-- `core_sleep` returns. -/
def coreResume (s : State) (c : ℕ) : State :=
  { s with
    tokens := update s.tokens c false
    places := update s.places c .woken }

/-- `kernel_sleep` after `cond_wait`. -/
def finishSection (s : State) (c : ℕ) : State :=
  { s with
    queues := update s.queues c { s.queues c with tid := -1 }
    places := update s.places c .out }

/-- `cond_broadcast` on the condition variable of a core. -/
def condBroadcast (s : State) (i : ℕ) : State :=
  { s with
    queues := update s.queues i { s.queues i with cond := [] }
    tokens := fun c => s.tokens c || decide (c ∈ (s.queues i).cond) }

def kernelWakeup (P : Platform) (s : State) (tid : ℤ) : Out × State :=
  if tid < 0 then (.EINVAL, s)
  else
    match (List.range P.kthreadMax).find? fun i => decide (tid = (s.queues i).tid) with
    | some i => (.ok, condBroadcast s i)
    | none => (.EAGAIN, s)

def step (s : State) : Act → Option (Out × State)
  | .sleep c =>
    if c < P.coresNum ∧ s.places c = .out then some (.goesOn, sleepSection T s c) else none
  | .resume c =>
    if s.places c = .asleep ∧ s.tokens c = true then some (.goesOn, coreResume s c) else none
  | .finish c => if s.places c = .woken then some (.ok, finishSection s c) else none
  | .wakeup tid => some (kernelWakeup P s tid)

def steps : Steps State Act Out := fun s a o t => step T s a = some (o, t)

/-- Nobody sleeps. -/
def boot : State where
  queues _ := ⟨-1, []⟩
  tokens _ := false
  places _ := .out

def Runs (tr : List (Event State Act Out)) (s : State) : Prop := Run (steps T) boot tr s

/-! ### Who sleeps -/

/-- The thread of core `c` sleeps: nobody has ended its sleep yet. -/
def Asleep (s : State) (c : ℕ) : Prop := s.places c = .asleep ∧ s.tokens c = false

/-- Its sleep has been ended, but it has not taken its identifier back. -/
def Ended (s : State) (c : ℕ) : Prop :=
  (s.places c = .asleep ∧ s.tokens c = true) ∨ s.places c = .woken

instance (s : State) (c : ℕ) : Decidable (Asleep s c) := inferInstanceAs (Decidable (_ ∧ _))

instance (s : State) (c : ℕ) : Decidable (Ended s c) := inferInstanceAs (Decidable (_ ∨ _))

/-- The entry of a core says where its thread is. -/
structure ListedAt (s : State) (c : ℕ) : Prop where
  sleeper : s.places c ≠ .out → c < P.coresNum ∧ (s.queues c).tid = T.tid c
  absent : s.places c = .out → (s.queues c).tid = -1
  waits : Asleep s c → (s.queues c).cond = [c]
  empty : ¬ Asleep s c → (s.queues c).cond = []
  token : s.tokens c = true → s.places c = .asleep

def Listed (s : State) : Prop := ∀ c, ListedAt T s c

variable {T} {s t : State} {a : Act} {o : Out} {c : ℕ}

/-- Only a core in `cond_wait` has a token. -/
theorem ListedAt.token_eq_false (h : ListedAt T s c) (hp : s.places c ≠ .asleep) : s.tokens c = false := by
  by_contra htok
  exact hp (h.token (by simpa using htok))

/-- The thread of core `c` is the one that `kernel_wakeup` finds. -/
theorem Listed.find (h : Listed T s) (hc : c < P.coresNum) :
    (List.range P.kthreadMax).find? (fun i => decide ((T.tid c : ℤ) = (s.queues i).tid)) =
      if s.places c = .out then none else some c := by
  -- an entry with the identifier is that of a thread in the call, and of this one
  have honly : ∀ i, (T.tid c : ℤ) = (s.queues i).tid → i = c ∧ s.places i ≠ .out := by
    intro i hi
    have hin : s.places i ≠ .out := by
      intro hout
      rw [(h i).absent hout] at hi
      omega
    obtain ⟨hlt, htid⟩ := (h i).sleeper hin
    rw [htid] at hi
    exact ⟨T.tid_inj hlt hc (by exact_mod_cast hi.symm), hin⟩
  by_cases hout : s.places c = .out
  · rw [if_pos hout, List.find?_eq_none]
    intro i _
    simp only [decide_eq_true_eq]
    intro hi
    obtain ⟨rfl, hin⟩ := honly i hi
    exact hin hout
  · rw [if_neg hout, List.find?_range_eq_some]
    refine ⟨by simpa using ((h c).sleeper hout).2.symm, List.mem_range.mpr ?_, fun j hj => ?_⟩
    · unfold Platform.kthreadMax
      omega
    · simp only [Bool.not_eq_true', decide_eq_false_iff_not]
      intro hi
      exact absurd (honly j hi).1 (by omega)

/-- What `kernel_wakeup` does for the thread of a core. -/
theorem Listed.kernelWakeup_eq (h : Listed T s) (hc : c < P.coresNum) : kernelWakeup P s (T.tid c) =
    if s.places c = .out then (.EAGAIN, s) else (.ok, condBroadcast s c) := by
  rw [kernelWakeup, if_neg (by omega), h.find hc]
  by_cases hout : s.places c = .out
  · rw [if_pos hout, if_pos hout]
  · rw [if_neg hout, if_neg hout]

/-- Everything a step can do. A wakeup finds the identifier of a thread in `kernel_sleep`, or it finds
nothing. -/
inductive StepOutcome (T : Threads P) (s : State) : Act → Out → State → Prop
  | slept {c : ℕ} (hlt : c < P.coresNum) (hout : s.places c = .out) :
      StepOutcome T s (.sleep c) .goesOn (sleepSection T s c)
  | resumed {c : ℕ} (hpc : s.places c = .asleep) (htok : s.tokens c = true) :
      StepOutcome T s (.resume c) .goesOn (coreResume s c)
  | finished {c : ℕ} (hpc : s.places c = .woken) : StepOutcome T s (.finish c) .ok (finishSection s c)
  | missed {tid : ℤ} (hno : ∀ c < P.coresNum, (T.tid c : ℤ) = tid → s.places c = .out) :
      StepOutcome T s (.wakeup tid) (if tid < 0 then .EINVAL else .EAGAIN) s
  | found {c : ℕ} (hlt : c < P.coresNum) (hin : s.places c ≠ .out) :
      StepOutcome T s (.wakeup (T.tid c)) .ok (condBroadcast s c)

theorem kernelWakeup_cases (h : Listed T s) (tid : ℤ) (hs : kernelWakeup P s tid = (o, t)) :
    StepOutcome T s (.wakeup tid) o t := by
  by_cases hown : ∃ c < P.coresNum, (T.tid c : ℤ) = tid
  · obtain ⟨c, hlt, rfl⟩ := hown
    rw [h.kernelWakeup_eq hlt] at hs
    by_cases hout : s.places c = .out
    · rw [if_pos hout] at hs
      cases hs
      have hno : ∀ d < P.coresNum, (T.tid d : ℤ) = T.tid c → s.places d = .out := fun d hd htid => by
        rw [T.tid_inj hd hlt (by exact_mod_cast htid), hout]
      have hmiss := StepOutcome.missed hno
      rwa [if_neg (by omega)] at hmiss
    · rw [if_neg hout] at hs
      cases hs
      exact .found hlt hout
  · have hno : ∀ c < P.coresNum, (T.tid c : ℤ) = tid → s.places c = .out := fun c hc htid =>
      absurd ⟨c, hc, htid⟩ hown
    have hmiss := StepOutcome.missed hno
    by_cases hneg : tid < 0
    · rw [kernelWakeup, if_pos hneg] at hs
      cases hs
      rwa [if_pos hneg] at hmiss
    · -- no entry has the identifier
      have hnone : (List.range P.kthreadMax).find? (fun i => decide (tid = (s.queues i).tid)) = none := by
        rw [List.find?_eq_none]
        intro i _
        simp only [decide_eq_true_eq]
        intro hi
        by_cases hout : s.places i = .out
        · rw [(h i).absent hout] at hi
          omega
        · obtain ⟨hlt, htid⟩ := (h i).sleeper hout
          exact hown ⟨i, hlt, by rw [hi, htid]⟩
      rw [kernelWakeup, if_neg hneg, hnone] at hs
      cases hs
      rwa [if_neg hneg] at hmiss

theorem steps_cases (h : Listed T s) (hs : steps T s a o t) : StepOutcome T s a o t := by
  cases a with
  | sleep c =>
    simp only [steps, step] at hs
    split at hs
    · rename_i hc
      cases hs
      exact .slept hc.1 hc.2
    · cases hs
  | resume c =>
    simp only [steps, step] at hs
    split at hs
    · rename_i hc
      cases hs
      exact .resumed hc.1 hc.2
    · cases hs
  | finish c =>
    simp only [steps, step] at hs
    split at hs
    · rename_i hc
      cases hs
      exact .finished hc
    · cases hs
  | wakeup tid => exact kernelWakeup_cases h tid (Option.some.inj hs)

/-- A broadcast gives a token to the thread that sleeps there, and to nobody else. -/
theorem Listed.broadcast_tokens (h : Listed T s) (d : ℕ) :
    (condBroadcast s c).tokens d = (s.tokens d || decide (d = c ∧ Asleep s c)) := by
  by_cases ha : Asleep s c
  · simp [condBroadcast, (h c).waits ha, ha]
  · simp [condBroadcast, (h c).empty ha, ha]

/-- Nobody sleeps where a broadcast has been. -/
theorem Listed.not_asleep_broadcast (h : Listed T s) : ¬ Asleep (condBroadcast s c) c := by
  rintro ⟨hpc, htok⟩
  rw [h.broadcast_tokens c] at htok
  simp only [true_and, Bool.or_eq_false_iff, decide_eq_false_iff_not] at htok
  exact htok.2 ⟨hpc, htok.1⟩

/-- What a step makes of the sleep of the thread of core `d`. -/
theorem StepOutcome.asleep (ho : StepOutcome T s a o t) (h : Listed T s) {d : ℕ} (hd : d < P.coresNum) :
    (Asleep t d ↔ a = .sleep d ∨ Asleep s d ∧ a ≠ .wakeup (T.tid d)) := by
  cases ho with
  | @slept c hlt hout =>
    by_cases hdc : d = c
    · subst hdc
      have htok := (h d).token_eq_false (by simp [hout])
      simp [Asleep, sleepSection, htok]
    · have hcd : c ≠ d := fun heq => hdc heq.symm
      simp [Asleep, sleepSection, hdc, hcd]
  | @resumed c hpc htok =>
    by_cases hdc : d = c
    · subst hdc
      simp [Asleep, coreResume, htok]
    · simp [Asleep, coreResume, hdc]
  | @finished c hpc =>
    by_cases hdc : d = c
    · subst hdc
      simp [Asleep, finishSection, hpc]
    · simp [Asleep, finishSection, hdc]
  | @missed tid hno =>
    have hne : Asleep s d → Act.wakeup tid ≠ .wakeup (T.tid d) := by
      rintro ha heq
      cases heq
      have := hno d hd rfl
      rw [ha.1] at this
      cases this
    simp only [reduceCtorEq, false_or]
    exact ⟨fun ha => ⟨ha, hne ha⟩, fun ha => ha.1⟩
  | @found c hlt hin =>
    have hsame : Act.wakeup (T.tid c : ℤ) = .wakeup (T.tid d) ↔ d = c := by
      simp only [Act.wakeup.injEq]
      exact ⟨fun heq => (T.tid_inj hlt hd (by exact_mod_cast heq)).symm, fun heq => by rw [heq]⟩
    simp only [reduceCtorEq, false_or, ne_eq, hsame]
    by_cases hdc : d = c
    · subst hdc
      simp [h.not_asleep_broadcast]
    · have hplace : (condBroadcast s c).places d = s.places d := rfl
      simp [Asleep, hplace, h.broadcast_tokens d, hdc]

theorem ListedAt.congr (h : ListedAt T s c) (hq : t.queues c = s.queues c) (ht : t.tokens c = s.tokens c)
    (hp : t.places c = s.places c) : ListedAt T t c := by
  have ha : Asleep t c ↔ Asleep s c := by rw [Asleep, Asleep, hp, ht]
  constructor
  · rw [hp, hq]
    exact h.sleeper
  · rw [hp, hq]
    exact h.absent
  · rw [ha, hq]
    exact h.waits
  · rw [ha, hq]
    exact h.empty
  · rw [ht, hp]
    exact h.token

theorem Listed.step (h : Listed T s) (hs : steps T s a o t) : Listed T t := by
  intro d
  cases steps_cases h hs with
  | @slept c hlt hout =>
    by_cases hdc : d = c
    · subst hdc
      have hcond := (h d).empty (by simp [Asleep, hout])
      have htok := (h d).token_eq_false (by simp [hout])
      constructor
      · exact fun _ => ⟨hlt, by simp [sleepSection]⟩
      · simp [sleepSection]
      · exact fun _ => by simp [sleepSection, hcond]
      · exact fun hna => absurd ⟨by simp [sleepSection], htok⟩ hna
      · simp [sleepSection]
    · exact (h d).congr (by simp [sleepSection, hdc]) rfl (by simp [sleepSection, hdc])
  | @resumed c hpc htok =>
    by_cases hdc : d = c
    · subst hdc
      have hcond := (h d).empty (by simp [Asleep, htok])
      have hin : s.places d ≠ .out := by simp [hpc]
      constructor
      · exact fun _ => (h d).sleeper hin
      · simp [coreResume]
      · simp [coreResume, Asleep]
      · exact fun _ => hcond
      · simp [coreResume]
    · exact (h d).congr rfl (by simp [coreResume, hdc]) (by simp [coreResume, hdc])
  | @finished c hpc =>
    by_cases hdc : d = c
    · subst hdc
      have hcond := (h d).empty (by simp [Asleep, hpc])
      have htok := (h d).token_eq_false (by simp [hpc])
      constructor
      · simp [finishSection]
      · simp [finishSection]
      · simp [finishSection, Asleep]
      · exact fun _ => by simp [finishSection, hcond]
      · simp [finishSection, htok]
    · exact (h d).congr (by simp [finishSection, hdc]) rfl (by simp [finishSection, hdc])
  | missed => exact h d
  | @found c hlt hin =>
    by_cases hdc : d = c
    · subst hdc
      constructor
      · exact fun _ => by simpa [condBroadcast] using (h d).sleeper hin
      · exact fun hout => absurd hout hin
      · exact fun ha => absurd ha h.not_asleep_broadcast
      · simp [condBroadcast]
      · rw [h.broadcast_tokens d]
        simp only [true_and, Bool.or_eq_true, decide_eq_true_eq]
        rintro (htok | ha)
        · exact (h d).token htok
        · exact ha.1
    · refine (h d).congr (by simp [condBroadcast, hdc]) ?_ rfl
      rw [h.broadcast_tokens d]
      simp [hdc]

theorem listed_boot : Listed T boot := by
  intro c
  have hno : ¬ Asleep boot c := fun ha => by cases ha.1
  exact ⟨fun hin => absurd rfl hin, fun _ => rfl, fun ha => absurd ha hno, fun _ => rfl, fun htok => by cases htok⟩

theorem listed_runs {tr : List (Event State Act Out)} (h : Runs T tr s) : Listed T s :=
  Run.invariant h (P := fun _ => True) listed_boot (fun _ _ => trivial) fun _ hs _ hi => hi.step hs

/-! ### Counting -/

def begins (c : ℕ) (e : Event State Act Out) : Bool := decide (e.act = .sleep c)

def wakes (T : Threads P) (c : ℕ) (e : Event State Act Out) : Bool :=
  decide (e.act = .wakeup (T.tid c)) && decide (e.out = .ok)

/-- A wakeup of the thread of core `c` comes when the sleep of the thread has been ended. -/
def Absorbed (T : Threads P) (c : ℕ) (e : Event State Act Out) : Prop :=
  e.act = .wakeup (T.tid c) ∧ Ended e.pre c

instance (T : Threads P) (c : ℕ) (e : Event State Act Out) : Decidable (Absorbed T c e) :=
  inferInstanceAs (Decidable (_ ∧ _))

theorem asleep_or_ended (hin : s.places c ≠ .out) : Asleep s c ∨ Ended s c := by
  unfold Asleep Ended
  cases hp : s.places c with
  | out => exact absurd hp hin
  | asleep => cases s.tokens c <;> simp
  | woken => simp

theorem not_ended_of_asleep (h : Asleep s c) : ¬ Ended s c := by
  rintro (⟨-, htok⟩ | hp)
  · rw [h.2] at htok
    cases htok
  · rw [h.1] at hp
    cases hp

theorem wakeup_out (h : Listed T s) (hs : steps T s (.wakeup (T.tid c)) o t) (hc : c < P.coresNum) :
    o = if s.places c = .out then .EAGAIN else .ok := by
  have hs := Option.some.inj hs
  rw [h.kernelWakeup_eq hc] at hs
  split at hs <;> cases hs <;> simp_all

/-- A step begins a sleep, ends one by a wakeup that returns zero, or absorbs such a wakeup. -/
theorem count_step {e : Event State Act Out} (h : Listed T e.pre) (hs : steps T e.pre e.act e.out e.post)
    (hc : c < P.coresNum) :
    (wakes T c e).toNat + (decide (Asleep e.post c)).toNat =
      (begins c e).toNat + (decide (Absorbed T c e)).toNat + (decide (Asleep e.pre c)).toNat := by
  have hiff := (steps_cases h hs).asleep h hc
  obtain ⟨s, a, o, t⟩ := e
  unfold wakes begins Absorbed
  dsimp only at h hs hiff ⊢
  by_cases hsleep : a = .sleep c
  · subst hsleep
    have hna : ¬ Asleep s c := by
      simp only [steps, step] at hs
      split at hs
      · rename_i hout
        rintro ⟨hp, -⟩
        rw [hout.2] at hp
        cases hp
      · cases hs
    simp [hiff, hna]
  by_cases hwake : a = .wakeup (T.tid c)
  · subst hwake
    have hout := wakeup_out h hs hc
    have hnt : ¬ Asleep t c := by simp [hiff]
    by_cases hp : s.places c = .out
    · have hna : ¬ Asleep s c := by simp [Asleep, hp]
      have hne : ¬ Ended s c := by simp [Ended, hp]
      simp [hout, hp, hnt, hna, hne]
    · rcases asleep_or_ended hp with ha | hend
      · simp [hout, hp, hnt, ha, not_ended_of_asleep ha]
      · have hna : ¬ Asleep s c := fun ha => not_ended_of_asleep ha hend
        simp [hout, hp, hnt, hna, hend]
  · have hsame : Asleep t c ↔ Asleep s c := by simp [hiff, hsleep, hwake]
    simp [hsleep, hwake, hsame]

/-- Along a run, the wakeups that return zero are the sleeps that have been ended and the wakeups that
were absorbed. -/
theorem count_runs {tr : List (Event State Act Out)} (h : Runs T tr s) (hc : c < P.coresNum) :
    tr.countP (wakes T c) + (decide (Asleep s c)).toNat =
      tr.countP (begins c) + tr.countP (fun e => decide (Absorbed T c e)) := by
  induction h with
  | nil => simp [Asleep, boot]
  | @snoc tr t a o u hr hs ih =>
    have hlast := count_step (e := ⟨t, a, o, u⟩) (listed_runs hr) hs hc
    have hone : ∀ (p : Event State Act Out → Bool) (e : Event State Act Out),
        [e].countP p = (p e).toNat := by
      intro p e
      cases hp : p e <;> simp [hp]
    simp only [List.countP_append, hone]
    dsimp only at hlast
    omega

/-- At every moment, as many wakeups of a thread have returned zero as sleeps of it have been ended. -/
def SleepsCounted (T : Threads P) (tr : List (Event State Act Out)) : Prop :=
  ∀ l e r, tr = l ++ e :: r → ∀ c < P.coresNum,
    (l ++ [e]).countP (wakes T c) + (decide (Asleep e.post c)).toNat = (l ++ [e]).countP (begins c)

/-- A wakeup that returns zero ends a sleep. -/
def WakeupsEnd (T : Threads P) (tr : List (Event State Act Out)) : Prop :=
  ∀ e ∈ tr, ∀ c < P.coresNum, wakes T c e = true → Asleep e.pre c ∧ Ended e.post c

/-- A wakeup of a thread that does not sleep returns `-EAGAIN`. -/
def WakeupsMiss (T : Threads P) (tr : List (Event State Act Out)) : Prop :=
  ∀ e ∈ tr, ∀ c < P.coresNum, e.act = .wakeup (T.tid c) → ¬ Asleep e.pre c → e.out = .EAGAIN

def NoneAbsorbed (T : Threads P) (tr : List (Event State Act Out)) : Prop :=
  ∀ e ∈ tr, ∀ c < P.coresNum, ¬ Absorbed T c e

/-- A wakeup of a thread whose sleep has been ended returns zero all the same. -/
theorem Absorbed.out {e : Event State Act Out} (ha : Absorbed T c e) (h : Listed T e.pre)
    (hs : steps T e.pre e.act e.out e.post) (hc : c < P.coresNum) : e.out = .ok ∧ ¬ Asleep e.pre c := by
  obtain ⟨hact, hend⟩ := ha
  rw [hact] at hs
  have hin : e.pre.places c ≠ .out := by
    rcases hend with ⟨hp, -⟩ | hp <;> simp [hp]
  exact ⟨by rw [wakeup_out h hs hc, if_neg hin], fun ha => not_ended_of_asleep ha hend⟩

/-- A wakeup of a sleeping thread ends its sleep. -/
theorem ended_of_wakeup (h : Listed T s) (hs : steps T s (.wakeup (T.tid c)) o t) (hc : c < P.coresNum)
    (ha : Asleep s c) : Ended t c := by
  have hs := Option.some.inj hs
  rw [h.kernelWakeup_eq hc, if_neg (by simp [ha.1])] at hs
  cases hs
  refine .inl ⟨ha.1, ?_⟩
  rw [h.broadcast_tokens c]
  simp [ha]

theorem sleepsCounted_iff {tr : List (Event State Act Out)} (h : Runs T tr s) :
    SleepsCounted T tr ↔ NoneAbsorbed T tr := by
  have hcount : ∀ l e r, tr = l ++ e :: r → ∀ c < P.coresNum,
      (l ++ [e]).countP (wakes T c) + (decide (Asleep e.post c)).toNat =
        (l ++ [e]).countP (begins c) + (l ++ [e]).countP (fun e => decide (Absorbed T c e)) := by
    rintro l e r rfl c hc
    obtain ⟨hl, hs, -⟩ := Run.at_event h
    exact count_runs (Run.snoc hl hs) hc
  constructor
  · intro hall e he c hc ha
    obtain ⟨l, r, hlr⟩ := List.append_of_mem he
    have hnone : (l ++ [e]).countP (fun e => decide (Absorbed T c e)) = 0 := by
      have := hcount l e r hlr c hc
      have := hall l e r hlr c hc
      omega
    rw [List.countP_eq_zero] at hnone
    exact hnone e (by simp) (by simpa using ha)
  · rintro hno l e r hlr c hc
    have hnone : (l ++ [e]).countP (fun e => decide (Absorbed T c e)) = 0 := by
      rw [List.countP_eq_zero]
      intro x hx
      have hmem : x ∈ tr := by
        rw [hlr, ← List.singleton_append, ← List.append_assoc]
        exact List.mem_append_left r hx
      simpa using hno x hmem c hc
    rw [hcount l e r hlr c hc, hnone, Nat.add_zero]

/-- In every run: wakeups that return zero and sleeps that were ended are equally many, each such wakeup
ends a sleep, and a wakeup of a thread that does not sleep is refused, all exactly if no wakeup of a
thread comes between the end of its sleep and the moment it takes its identifier back. -/
theorem wakeups_not_absorbed_iff {tr : List (Event State Act Out)} (h : Runs T tr s) :
    (SleepsCounted T tr ↔ NoneAbsorbed T tr) ∧ (WakeupsEnd T tr ↔ NoneAbsorbed T tr) ∧
      (WakeupsMiss T tr ↔ NoneAbsorbed T tr) := by
  have hlisted : ∀ e ∈ tr, Listed T e.pre := by
    intro e he
    obtain ⟨l, r, rfl⟩ := List.append_of_mem he
    exact listed_runs (Run.at_event h).1
  have hstep : ∀ e ∈ tr, steps T e.pre e.act e.out e.post := fun e he => Run.step_of_mem h he
  refine ⟨sleepsCounted_iff h, ⟨?_, ?_⟩, ⟨?_, ?_⟩⟩
  · intro hends e he c hc ha
    obtain ⟨hok, hna⟩ := ha.out (hlisted e he) (hstep e he) hc
    exact hna (hends e he c hc (by simp [wakes, ha.1, hok])).1
  · intro hno e he c hc hw
    simp only [wakes, Bool.and_eq_true, decide_eq_true_eq] at hw
    have hs := hstep e he
    rw [hw.1] at hs
    have hin : e.pre.places c ≠ .out := by
      intro hp
      have hout := wakeup_out (hlisted e he) hs hc
      rw [hw.2, if_pos hp] at hout
      cases hout
    have ha := (asleep_or_ended hin).resolve_right fun hend => hno e he c hc ⟨hw.1, hend⟩
    exact ⟨ha, ended_of_wakeup (hlisted e he) hs hc ha⟩
  · intro hmiss e he c hc ha
    obtain ⟨hok, hna⟩ := ha.out (hlisted e he) (hstep e he) hc
    have := hmiss e he c hc ha.1 hna
    rw [hok] at this
    cases this
  · intro hno e he c hc hact hna
    have hs := hstep e he
    rw [hact] at hs
    have hp : e.pre.places c = .out := by
      by_contra hin
      exact hno e he c hc ⟨hact, (asleep_or_ended hin).resolve_left hna⟩
    rw [wakeup_out (hlisted e he) hs hc, if_pos hp]

/-- Two cores, whose threads have the numbers of the cores. -/
def twoThreads : Threads pairPlatform := ⟨id, fun _ _ h => h⟩

/-- The thread of core 1 sleeps, is woken up and leaves; a second wakeup is refused. -/
theorem wakeups_not_absorbed_twice : ∃ tr s, Runs twoThreads tr s ∧
    tr.map (fun e => (e.act, e.out)) = [(.sleep 1, .goesOn), (.wakeup 1, .ok), (.resume 1, .goesOn),
      (.finish 1, .ok), (.wakeup 1, .EAGAIN)] ∧
    SleepsCounted twoThreads tr ∧ WakeupsEnd twoThreads tr ∧ WakeupsMiss twoThreads tr := by
  obtain ⟨tr, s, hrun, -, houts, hno⟩ := exists_run_of_exec (f := step twoThreads) (s := boot)
    [.sleep 1, .wakeup 1, .resume 1, .finish 1, .wakeup 1]
    (fun r => r.1.map (fun e => (e.act, e.out)) = [(.sleep 1, .goesOn), (.wakeup 1, .ok), (.resume 1, .goesOn),
      (.finish 1, .ok), (.wakeup 1, .EAGAIN)] ∧ ∀ e ∈ r.1, ∀ c ∈ List.range 2, ¬ Absorbed twoThreads c e)
    (by decide +kernel)
  have hnone : NoneAbsorbed twoThreads tr := fun e he c hc => hno e he c (List.mem_range.mpr hc)
  obtain ⟨h1, h2, h3⟩ := wakeups_not_absorbed_iff (T := twoThreads) hrun
  exact ⟨tr, s, hrun, houts, h1.mpr hnone, h2.mpr hnone, h3.mpr hnone⟩

/-- The second wakeup comes before the thread has the lock again. It returns zero, and the next sleep of
the thread goes on. -/
theorem not_wakeups_not_absorbed : ∃ tr s, Runs twoThreads tr s ∧
    tr.map (fun e => (e.act, e.out)) = [(.sleep 1, .goesOn), (.wakeup 1, .ok), (.wakeup 1, .ok),
      (.resume 1, .goesOn), (.finish 1, .ok), (.sleep 1, .goesOn)] ∧
    tr.countP (wakes twoThreads 1) = 2 ∧ tr.countP (begins 1) = 2 ∧ Asleep s 1 := by
  obtain ⟨tr, s, hrun, -, houts, hw, hb, ha⟩ := exists_run_of_exec (f := step twoThreads) (s := boot)
    [.sleep 1, .wakeup 1, .wakeup 1, .resume 1, .finish 1, .sleep 1]
    (fun r => r.1.map (fun e => (e.act, e.out)) = [(.sleep 1, .goesOn), (.wakeup 1, .ok), (.wakeup 1, .ok),
      (.resume 1, .goesOn), (.finish 1, .ok), (.sleep 1, .goesOn)] ∧ r.1.countP (wakes twoThreads 1) = 2 ∧
      r.1.countP (begins 1) = 2 ∧ Asleep r.2 1) (by decide +kernel)
  exact ⟨tr, s, hrun, houts, hw, hb, ha⟩

end Nanvix.Pm.Wakeup
