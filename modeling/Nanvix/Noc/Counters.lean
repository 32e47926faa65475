import Nanvix.Lib.Store
import Nanvix.Noc.KernelOutcome

/-! The counters of reads and writes. They go up where a wait comes back from the
hardware with a success. A wait on a communicator whose operation was finished on the
spot, because its message was stored or forwarded locally, returns `0` as well and leaves
them alone. -/

namespace Nanvix.Noc

open Nanvix.Lib

/-- The direction of a communicator, as `communicator_wait` tells it. -/
def Communicator.type (c : Communicator) : CommType := if c.resource.isReadable then .input else .output

def State.counter (s : State) : CommType → UInt64
  | .input => s.counters.nreads
  | .output => s.counters.nwrites

/-- The last section of `communicator_wait` after a success: the direction of the communicator. -/
def leavesWith (e : Event State Act Out) : Option CommType :=
  match e.act with
  | .resume tid _ =>
    match e.pre.waits tid with
    | .leaving id (.ok .success) => some (e.pre.comms id).type
    | _ => none
  | _ => none

variable (F : Facility)

/-- The wait finds its communicator finished: the direction of the communicator. -/
def collectsWith (e : Event State Act Out) : Option CommType :=
  match e.act with
  | .wait tid id =>
    let c := e.pre.comms id.toNat
    if e.pre.waits tid = .idle ∧ validComm F id = true ∧ c.resource.used = true ∧
        c.resource.busy = true ∧ c.finished = true
    then some c.type else none
  | _ => none

/-- `communicator_wait` returns `0` on a communicator of the given direction. -/
def waitSucceeds (ty : CommType) (e : Event State Act Out) : Bool :=
  decide (leavesWith e = some ty ∨ collectsWith F e = some ty)

/-- The counters are the numbers of waits that were successful, in their width. -/
def CountersAgree (tr : List (Event State Act Out)) (s : State) : Prop :=
  s.counters.nreads = UInt64.ofNat (tr.countP (waitSucceeds F .input)) ∧
    s.counters.nwrites = UInt64.ofNat (tr.countP (waitSucceeds F .output))

variable {F} {s t : State} {a : Act} {o : Out} {ty : CommType} {e : Event State Act Out}
  {tr : List (Event State Act Out)}

@[simp] theorem leavesWith_leaving {tid id : ℕ} {env : Env} (hpc : s.waits tid = .leaving id (.ok .success)) :
    leavesWith ⟨s, .resume tid env, o, t⟩ = some (s.comms id).type := by
  simp [leavesWith, hpc]

theorem leaving_of_leavesWith (h : leavesWith ⟨s, a, o, t⟩ = some ty) :
    ∃ tid env id, a = .resume tid env ∧ s.waits tid = .leaving id (.ok .success) ∧
      (s.comms id).type = ty := by
  unfold leavesWith at h
  dsimp only at h
  split at h
  · rename_i tid env
    split at h
    · rename_i id hpc
      exact ⟨tid, env, id, rfl, hpc, Option.some.inj h⟩
    · cases h
  · cases h

/-- The counter of the communicator's direction goes up, the other one stays. -/
theorem Counters.operated_counter (s : State) (c : Communicator) (ty : CommType) :
    ({ s with counters := s.counters.operated c } : State).counter ty =
      if c.type = ty then s.counter ty + 1 else s.counter ty := by
  cases hr : c.resource.isReadable <;> cases ty <;>
    simp [State.counter, Counters.operated, Communicator.type, hr]

/-- A wait that comes back with a success is counted. -/
theorem counter_of_leaves (hs : steps F s a o t) (h : leavesWith ⟨s, a, o, t⟩ = some ty) :
    t.counter ty = s.counter ty + 1 := by
  obtain ⟨tid, env, id, rfl, hpc, hty⟩ := leaving_of_leavesWith h
  simp only [steps, step, waitStep, hpc, waitLeave] at hs
  have hcount := Counters.operated_counter s (s.comms id) ty
  rw [if_pos hty] at hcount
  obtain ⟨-, rfl | ⟨-, rfl⟩⟩ := waitReturns_cases hs
  · exact hcount
  · exact hcount

/-- No other step moves the counter. -/
theorem counter_of_not_leaves (hs : steps F s a o t) (h : leavesWith ⟨s, a, o, t⟩ ≠ some ty) :
    t.counter ty = s.counter ty := by
  cases steps_cases hs with
  | @counted ty' id env hpc => cases ty' <;> cases ty <;> rfl
  | @freed c id ty' ph hidle hcall hid hused hfits hbusy hv ho => cases ty' <;> cases ty <;> rfl
  | @succeeded tid id o pc env hpc hans hnext =>
    have hcount := Counters.operated_counter s (s.comms id) ty
    rw [leavesWith_leaving hpc, ne_eq, Option.some.injEq] at h
    rw [if_neg h] at hcount
    exact hcount
  | _ => rfl

theorem counter_eq (h : Runs F tr s) (ty : CommType) :
    s.counter ty = UInt64.ofNat (tr.countP fun e => decide (leavesWith e = some ty)) := by
  obtain ⟨s₀, ⟨ph, -, rfl⟩, hrun⟩ := h
  refine hrun.counts (P := fun n s => s.counter ty = UInt64.ofNat n) (by cases ty <;> rfl) fun n e he hn => ?_
  have hs := hrun.step_of_mem he
  by_cases hl : leavesWith e = some ty
  · rw [counter_of_leaves hs hl, hn, decide_eq_true hl, Bool.toNat_true, UInt64.ofNat_add]
    rfl
  · rw [counter_of_not_leaves hs hl, hn, decide_eq_false hl, Bool.toNat_false, Nat.add_zero]

/-- A step is not both ways to end a wait. -/
theorem leavesWith_eq_none_of_collects (h : collectsWith F e = some ty) : leavesWith e = none := by
  unfold collectsWith at h
  split at h
  · rename_i tid id hact
    rw [leavesWith, hact]
  · cases h

theorem countP_waitSucceeds (h : ∀ e ∈ tr, collectsWith F e = none) (ty : CommType) :
    tr.countP (waitSucceeds F ty) = tr.countP fun e => decide (leavesWith e = some ty) := by
  refine List.countP_congr fun e he => ?_
  rw [waitSucceeds, h e he]
  simp

/-! ### What the callers see -/

/-- A wait of the thread ends with a success inside `communicator_wait`. -/
def succeedsFor (F : Facility) (tid : ℕ) (e : Event State Act Out) : Bool :=
  decide (e.act.thread = some tid ∧ (leavesWith e ≠ none ∨ collectsWith F e ≠ none))

def returnsZero (tid : ℕ) (e : Event State Act Out) : Bool :=
  decide (e.act.thread = some tid ∧ e.out.ret = some (.ok 0))

def WaitPc.isResetting : WaitPc → Bool
  | .resetting _ => true
  | _ => false

/-- The thread either returns `0` or has still to reset the filter, and only after a success. -/
theorem waitReturns_zero {tid id : ℕ} {ret : Except Err CommStatus}
    (h : waitReturns F s tid id ret = .ok (o, t)) :
    (decide (ret = .ok .success)).toNat =
      (decide (o.ret = some (.ok 0))).toNat + (t.waits tid).isResetting.toNat := by
  unfold waitReturns at h
  split at h
  · cases h
    simp [WaitPc.isResetting]
  · split at h <;> cases h <;> simp [WaitPc.isResetting]
  · cases h
    simp [WaitPc.isResetting]
  · cases h
    simp [WaitPc.isResetting]

/-- A call of `kernel_mailbox_wait` or `kernel_portal_wait` that finds the communicator finished. -/
theorem kernelWait_zero {tid : ℕ} {id : ℤ} (hpc : s.waits tid = .idle)
    (h : kernelWait F s tid id = .ok (o, t)) :
    (decide (collectsWith F ⟨s, .wait tid id, o, t⟩ ≠ none)).toNat =
      (decide (o.ret = some (.ok 0))).toNat + (t.waits tid).isResetting.toNat := by
  unfold kernelWait communicatorWait at h
  dsimp only at h
  split_ifs at h with hid hused hbusy hfin
  · cases h
    simp_all [collectsWith, WaitPc.isResetting]
  · cases h
    simp_all [collectsWith, WaitPc.isResetting]
  · cases h
    simp_all [collectsWith, WaitPc.isResetting]
  · rw [← waitReturns_zero h]
    simp_all [collectsWith]
  · cases h
    simp_all [collectsWith, WaitPc.isResetting]

/-- A later section of a wait. -/
theorem waitStep_zero {tid : ℕ} {env : Env} (h : waitStep F s tid env = .ok (o, t)) :
    (decide (leavesWith ⟨s, .resume tid env, o, t⟩ ≠ none)).toNat + (s.waits tid).isResetting.toNat =
      (decide (o.ret = some (.ok 0))).toNat + (t.waits tid).isResetting.toNat := by
  cases hpc : s.waits tid with
  | idle =>
    simp only [waitStep, hpc] at h
    cases h
    simp [leavesWith, hpc]
  | checked id =>
    simp only [waitStep, hpc, waitEnter] at h
    split at h <;> cases h <;> simp [leavesWith, hpc, WaitPc.isResetting]
  | blocked id fd mbufferid =>
    simp only [waitStep, hpc, waitBlock] at h
    cases h
    simp [leavesWith, hpc, WaitPc.isResetting]
  | woken id fd mbufferid ret =>
    simp only [waitStep, hpc, waitFinish] at h
    split at h
    · cases h
    · cases h
      simp [leavesWith, hpc, WaitPc.isResetting]
  | leaving id ret =>
    simp only [waitStep, hpc, waitLeave] at h
    split at h
    · rw [← waitReturns_zero h, leavesWith_leaving hpc]
      simp [WaitPc.isResetting]
    · rename_i hret
      have hnone : leavesWith ⟨s, .resume tid env, o, t⟩ = none := by
        by_contra hne
        obtain ⟨ty, hty⟩ := Option.ne_none_iff_exists'.mp hne
        obtain ⟨tid', env', id', hact, hpc', -⟩ := leaving_of_leavesWith hty
        cases hact
        rw [hpc] at hpc'
        cases hpc'
        exact hret rfl
      rw [← waitReturns_zero h, decide_eq_false hret, hnone]
      simp [WaitPc.isResetting]
  | resetting id =>
    simp only [waitStep, hpc, waitReset] at h
    cases h
    simp [leavesWith, hpc, WaitPc.isResetting]

/-- What the steps of a thread add to its successes is what they add to its returns with `0`, up to
the one that it is about to make. -/
theorem thread_balance (hs : steps F s a o t) (tid : ℕ) :
    (succeedsFor F tid ⟨s, a, o, t⟩).toNat + (s.waits tid).isResetting.toNat =
      (returnsZero tid ⟨s, a, o, t⟩).toNat + (t.waits tid).isResetting.toNat := by
  by_cases hth : a.thread = some tid
  swap
  · rw [waits_of_step hs tid hth, succeedsFor, returnsZero]
    simp [hth]
  cases a with
  | call c => cases hth
  | master env => cases hth
  | wait tid' id =>
    obtain rfl : tid' = tid := Option.some.inj hth
    have hleaves : leavesWith ⟨s, .wait tid' id, o, t⟩ = none := rfl
    by_cases hpc : s.waits tid' = .idle
    · simp only [steps, step, hpc] at hs
      have hzero := kernelWait_zero hpc hs
      simpa [succeedsFor, returnsZero, hleaves, Act.thread, hpc, WaitPc.isResetting] using hzero
    · have hcoll : collectsWith F ⟨s, .wait tid' id, o, t⟩ = none := by simp [collectsWith, hpc]
      have hquiet : steps F s (.wait tid' id) {} s := by
        simp only [steps, step]
        rfl
      rw [steps, hquiet] at hs
      cases hs
      simp [succeedsFor, returnsZero, hleaves, hcoll]
  | resume tid' env =>
    obtain rfl : tid' = tid := Option.some.inj hth
    have hcoll : collectsWith F ⟨s, .resume tid' env, o, t⟩ = none := rfl
    have hw : waitStep F s tid' env = .ok (o, t) := hs
    have hzero := waitStep_zero hw
    simpa [succeedsFor, returnsZero, hcoll, Act.thread] using hzero

/-- Over a run, a thread returns `0` as often as its waits succeed. -/
theorem succeeds_eq_returns (h : Runs F tr s) (tid : ℕ) :
    tr.countP (succeedsFor F tid) =
      tr.countP (returnsZero tid) + (s.waits tid).isResetting.toNat := by
  obtain ⟨s₀, ⟨ph, -, rfl⟩, hrun⟩ := h
  induction hrun with
  | nil => rfl
  | @snoc tr t a o u _ hs ih =>
    have hb := thread_balance hs tid
    rw [List.countP_append, List.countP_append, List.countP_singleton, List.countP_singleton]
    cases hx : succeedsFor F tid ⟨t, a, o, u⟩ <;> cases hz : returnsZero tid ⟨t, a, o, u⟩ <;>
      simp only [hx, hz, Bool.toNat_true, Bool.toNat_false] at hb ⊢ <;> simp <;> omega

/-! ### The counters and the calls -/

/-- The step that finds its communicator finished is counted nowhere. -/
theorem not_agree_of_collects {l : List (Event State Act Out)} (hty : collectsWith F e = some ty)
    (hpre : e.post.counter ty = UInt64.ofNat (l.countP (waitSucceeds F ty))) :
    e.post.counter ty ≠ UInt64.ofNat ((l ++ [e]).countP (waitSucceeds F ty)) := by
  have hb : waitSucceeds F ty e = true := decide_eq_true (.inr hty)
  rw [List.countP_append, List.countP_singleton, if_pos hb, hpre, UInt64.ofNat_add]
  grind

theorem CountersAgree.counter (h : CountersAgree F tr s) (ty : CommType) :
    s.counter ty = UInt64.ofNat (tr.countP (waitSucceeds F ty)) := by
  cases ty with
  | input => exact h.1
  | output => exact h.2

/-- The counters of reads and writes are the numbers of waits that returned `0`, after every step
of a run, exactly if no wait of the run finds its communicator finished. A thread's waits
that end so are its calls that return `0`, but for the one whose filter is still to be reset. -/
theorem counters_agree_iff (h : Runs F tr s) :
    ((∀ l e r, tr = l ++ e :: r → CountersAgree F (l ++ [e]) e.post) ↔
      ∀ e ∈ tr, collectsWith F e = none) ∧
    ∀ tid, tr.countP (succeedsFor F tid) =
      tr.countP (returnsZero tid) + (s.waits tid).isResetting.toNat := by
  refine ⟨⟨fun hagree e he => ?_, fun hno l e r htr => ?_⟩, succeeds_eq_returns h⟩
  · by_contra hne
    obtain ⟨ty, hty⟩ := Option.ne_none_iff_exists'.mp hne
    obtain ⟨l, r, rfl⟩ := List.append_of_mem he
    obtain ⟨s₀, ⟨ph, -, rfl⟩, hrun⟩ := h
    obtain ⟨hl, hs, -⟩ := hrun.at_event
    -- The state before the step agrees, and the step does not move the counter.
    have hpre : e.pre.counter ty = UInt64.ofNat (l.countP (waitSucceeds F ty)) := by
      rcases List.eq_nil_or_concat l with rfl | ⟨l', e', rfl⟩
      · rw [hl.eq_of_nil]
        cases ty <;> rfl
      · rw [List.concat_eq_append] at hl hagree ⊢
        have hpost : e.pre = e'.post := hl.at_event.2.2.eq_of_nil
        rw [hpost]
        exact (hagree l' e' (e :: r) (by simp)).counter ty
    have hstay : e.post.counter ty = e.pre.counter ty := counter_of_not_leaves hs
      (by rw [leavesWith_eq_none_of_collects hty]; exact (Option.some_ne_none ty).symm)
    exact not_agree_of_collects hty (hstay.trans hpre) ((hagree l e r rfl).counter ty)
  · obtain ⟨s₀, h₀, hrun⟩ := h
    subst htr
    obtain ⟨hl, hs, -⟩ := hrun.at_event
    have hafter : ∀ ty, e.post.counter ty = UInt64.ofNat ((l ++ [e]).countP (waitSucceeds F ty)) := by
      intro ty
      rw [countP_waitSucceeds (fun x hx => hno x (by simp at hx ⊢; tauto)) ty]
      exact counter_eq ⟨s₀, h₀, hl.snoc hs⟩ ty
    exact ⟨hafter .input, hafter .output⟩

/-- A write to another node goes through the hardware and is counted. -/
theorem counters_agree_iff_remote : ∃ tr s, Runs quadMailbox tr s ∧ (∀ e ∈ tr, collectsWith quadMailbox e = none) ∧
    (∀ l e r, tr = l ++ e :: r → CountersAgree quadMailbox (l ++ [e]) e.post) ∧ s.counters.nwrites = 1 := by
  obtain ⟨tr, s, hrun, -, hno, hone⟩ := exists_runs_of_exec quadBoot_boot
    [.call (.open 0 1 0), .master {}, .master {}, .call (.awrite 0 64 1), .master {}, .wait 0 0,
      .resume 0 {}, .resume 0 {}, .resume 0 {}, .resume 0 {}, .resume 0 {}]
    (fun r => (∀ e ∈ r.1, collectsWith quadMailbox e = none) ∧ r.2.counters.nwrites = 1) (by decide +kernel)
  exact ⟨tr, s, hrun, hno, (counters_agree_iff hrun).1.mpr hno, hone⟩

/-- A mailbox of the node itself and one that writes to it: the message is stored by the write and
taken by the read, and both waits return `0` at once. -/
def localExchange : List Act :=
  [.call (.create 0 3), .master {}, .master {}, .call (.open 0 0 3), .master {}, .master {},
    .call (.awrite 1 64 1), .master {}, .wait 0 1, .resume 0 {},
    .call (.aread 0 64 1), .master {}, .master {}, .wait 0 0, .resume 0 {}]

/-- One read and one write have returned `0`, and the counters stand at zero. -/
theorem local_exchange_not_counted : ∃ tr s, Runs quadMailbox tr s ∧ tr.map (·.act) = localExchange ∧
    tr.countP (returnsZero 0) = 2 ∧ tr.countP (waitSucceeds quadMailbox .input) = 1 ∧
    tr.countP (waitSucceeds quadMailbox .output) = 1 ∧ s.counters.nreads = 0 ∧ s.counters.nwrites = 0 ∧
    ¬ CountersAgree quadMailbox tr s := by
  obtain ⟨tr, s, hrun, hacts, hzero, hin, hout, hreads, hwrites⟩ := exists_runs_of_exec quadBoot_boot
    localExchange
    (fun r => r.1.countP (returnsZero 0) = 2 ∧ r.1.countP (waitSucceeds quadMailbox .input) = 1 ∧
      r.1.countP (waitSucceeds quadMailbox .output) = 1 ∧ r.2.counters.nreads = 0 ∧
      r.2.counters.nwrites = 0) (by decide +kernel)
  refine ⟨tr, s, hrun, hacts, hzero, hin, hout, hreads, hwrites, fun hagree => ?_⟩
  have hcount := hagree.1
  rw [hin, hreads] at hcount
  exact absurd hcount (by decide)

end Nanvix.Noc
