import Nanvix.Pm.Thread
import Mathlib.Tactic.Common

/-! What the sections of the thread manager do: how a core chooses its next thread, how a zombie
is released, and how a thread is created. -/

namespace Nanvix.Pm

open Nanvix.Lib Function

variable {P : Platform} {s s' : State} {a : Act} {o : Out} {c i curr next : ℕ} {via : Caller}

namespace State

variable (s : State) (t : Thread) (f : Frame)

@[simp] theorem setThread_threads : (s.setThread i t).threads = update s.threads i t := rfl
@[simp] theorem setThread_queue : (s.setThread i t).queue = s.queue := rfl
@[simp] theorem setThread_cpus : (s.setThread i t).cpus = s.cpus := rfl
@[simp] theorem setThread_ustacks : (s.setThread i t).ustacks = s.ustacks := rfl
@[simp] theorem setThread_kstacks : (s.setThread i t).kstacks = s.kstacks := rfl
@[simp] theorem setThread_kpages : (s.setThread i t).kpages = s.kpages := rfl
@[simp] theorem setThread_conds : (s.setThread i t).conds = s.conds := rfl
@[simp] theorem setThread_tokens : (s.setThread i t).tokens = s.tokens := rfl
@[simp] theorem setThread_nextTid : (s.setThread i t).nextTid = s.nextTid := rfl
@[simp] theorem setThread_exitValues : (s.setThread i t).exitValues = s.exitValues := rfl
@[simp] theorem setThread_nextExitValue : (s.setThread i t).nextExitValue = s.nextExitValue := rfl

@[simp] theorem setFrame_threads : (s.setFrame c f).threads = s.threads := rfl
@[simp] theorem setFrame_queue : (s.setFrame c f).queue = s.queue := rfl
@[simp] theorem setFrame_cpus :
    (s.setFrame c f).cpus = update s.cpus c { s.cpus c with frame := f } := rfl
@[simp] theorem setFrame_ustacks : (s.setFrame c f).ustacks = s.ustacks := rfl
@[simp] theorem setFrame_kstacks : (s.setFrame c f).kstacks = s.kstacks := rfl
@[simp] theorem setFrame_kpages : (s.setFrame c f).kpages = s.kpages := rfl
@[simp] theorem setFrame_conds : (s.setFrame c f).conds = s.conds := rfl
@[simp] theorem setFrame_tokens : (s.setFrame c f).tokens = s.tokens := rfl
@[simp] theorem setFrame_nextTid : (s.setFrame c f).nextTid = s.nextTid := rfl
@[simp] theorem setFrame_exitValues : (s.setFrame c f).exitValues = s.exitValues := rfl
@[simp] theorem setFrame_nextExitValue : (s.setFrame c f).nextExitValue = s.nextExitValue := rfl

@[simp] theorem mark_threads (st : ThreadState) :
    (s.mark i st).threads = update s.threads i { s.threads i with state := st } := rfl
@[simp] theorem mark_queue (st : ThreadState) : (s.mark i st).queue = s.queue := rfl
@[simp] theorem popped_threads (n : ℕ) :
    (s.popped c n).threads = update s.threads n { s.threads n with next := none, coreid := c } := rfl
@[simp] theorem popped_queue (n : ℕ) :
    (s.popped c n).queue = { s.queue with head := (s.threads n).next, size := s.queue.size - 1 } := rfl

/-- What an update keeps of its thread, it keeps of all threads. -/
theorem setThread_proj {α : Type*} (g : Thread → α) {t : Thread} (h : g t = g (s.threads i)) (j : ℕ) :
    g ((s.setThread i t).threads j) = g (s.threads j) := by
  by_cases hj : j = i
  · subst hj
    rw [setThread_threads, update_self, h]
  · rw [setThread_threads, update_of_ne hj]

theorem mark_proj {α : Type*} (g : Thread → α) (st : ThreadState)
    (h : ∀ t : Thread, g { t with state := st } = g t) (j : ℕ) :
    g ((s.mark i st).threads j) = g (s.threads j) :=
  setThread_proj s g (h _) j

theorem popped_proj {α : Type*} (g : Thread → α) (n : ℕ)
    (h : ∀ t : Thread, g { t with next := none, coreid := c } = g t) (j : ℕ) :
    g ((s.popped c n).threads j) = g (s.threads j) :=
  setThread_proj _ g (h _) j

theorem retired_proj {α : Type*} (g : Thread → α) (z n : ℕ)
    (h : ∀ t : Thread, g { t with state := .zombie } = g t)
    (hn : ∀ t : Thread, g { t with next := some z } = g t) (j : ℕ) :
    g ((s.retired z n).threads j) = g (s.threads j) :=
  (setThread_proj _ g (hn _) j).trans (setThread_proj s g (h _) j)

theorem mark_eq_self {st : ThreadState} (h : (s.threads i).state = st) : s.mark i st = s := by
  unfold mark setThread
  rw [← h, update_eq_self]

end State

/-- What the section of `thread_yield` does: nobody else is there, or the idle thread
takes over, or the head of the queue does, from the idle thread, from a running thread
or from a terminated one. -/
inductive Yields (P : Platform) (s : State) (c curr : ℕ) : ℕ → State → Prop
  | stay (hq : s.queue.size = 0) (hs : (s.threads curr).state ≠ .terminated) :
    Yields P s c curr curr (s.mark curr .running)
  | toIdle {idle} (hq : s.queue.size = 0) (hs : (s.threads curr).state = .terminated)
      (hi : idle = (s.threads curr).coreid.toNat) (hne : curr ≠ idle) :
    Yields P s c curr idle ((s.retired curr idle).mark idle .running)
  | fromIdle {n} (hq : s.queue.size ≠ 0) (hh : s.queue.head = some n)
      (hs : (s.threads curr).state ≠ .terminated) (hi : curr = (s.threads curr).coreid.toNat) :
    Yields P s c curr n (((s.popped c n).mark curr .stopped).mark n .running)
  | swap {n s₁} (hq : s.queue.size ≠ 0) (hh : s.queue.head = some n)
      (hs : (s.threads curr).state ≠ .terminated) (hi : curr ≠ (s.threads curr).coreid.toNat)
      (hsch : threadSchedule P ((s.popped c n).mark curr .stopped) curr = .ok s₁) :
    Yields P s c curr n (s₁.mark n .running)
  | handOver {n} (hq : s.queue.size ≠ 0) (hh : s.queue.head = some n)
      (hs : (s.threads curr).state = .terminated) (hi : curr ≠ (s.threads curr).coreid.toNat)
      (hne : curr ≠ n) :
    Yields P s c curr n (((s.popped c n).retired curr n).mark n .running)

theorem popped_state (s : State) (c n i : ℕ) :
    ((s.popped c n).threads i).state = (s.threads i).state :=
  State.popped_proj s Thread.state n (fun _ => rfl) i

theorem threadSchedule_user (h : threadSchedule P s i = .ok s') : P.IsUser i := by
  unfold threadSchedule at h
  split_ifs at h with hu
  · exact hu
  · exact hu

/-- `thread_schedule` changes links, and the core of the thread that it schedules. -/
theorem threadSchedule_apply (h : threadSchedule P s i = .ok s') (j : ℕ) :
    s'.threads j = { s.threads j with
      next := (s'.threads j).next
      coreid := if j = i then -1 else (s.threads j).coreid } := by
  unfold threadSchedule at h
  split_ifs at h
  · cases h
    simp only [enqueue, State.setThread_threads, update_apply]
    split_ifs with hj
    · subst hj; rfl
    · rfl
  · split at h
    · cases h
    · rename_i l _
      cases h
      simp only [enqueue, State.setThread_threads, update_apply]
      split_ifs <;> simp_all

/-- Besides the links and the queue it changes nothing. -/
theorem threadSchedule_rest (h : threadSchedule P s i = .ok s') :
    s' = { s with threads := s'.threads, queue := s'.queue } := by
  unfold threadSchedule at h
  split_ifs at h
  · cases h
    rfl
  · split at h
    · cases h
    · cases h
      rfl

theorem threadSchedule_state (h : threadSchedule P s i = .ok s') (j : ℕ) :
    (s'.threads j).state = (s.threads j).state := by
  rw [threadSchedule_apply h j]

theorem threadSchedule_coreid (h : threadSchedule P s i = .ok s') (j : ℕ) :
    (s'.threads j).coreid = if j = i then -1 else (s.threads j).coreid := by
  rw [threadSchedule_apply h j]

theorem threadSchedule_proj {α : Type*} (g : Thread → α) (h : threadSchedule P s i = .ok s')
    (hn : ∀ (t : Thread) x, g { t with next := x } = g t)
    (hc : ∀ (t : Thread) x, g { t with coreid := x } = g t) (j : ℕ) :
    g (s'.threads j) = g (s.threads j) := by
  rw [threadSchedule_apply h j]
  generalize (s'.threads j).next = x
  generalize (if j = i then -1 else (s.threads j).coreid) = y
  exact (hc { s.threads j with next := x } y).trans (hn _ x)

inductive Picks (P : Platform) (s : State) (c curr idle : ℕ) : ℕ → State → Prop
  | stay (hq : s.queue.size = 0) (hs : (s.threads curr).state ≠ .terminated) :
    Picks P s c curr idle curr s
  | toIdle (hq : s.queue.size = 0) (hs : (s.threads curr).state = .terminated) :
    Picks P s c curr idle idle s
  | fromIdle {n} (hq : s.queue.size ≠ 0) (hh : s.queue.head = some n)
      (hs : (s.threads curr).state ≠ .terminated) (hi : curr = idle) :
    Picks P s c curr idle n ((s.popped c n).mark curr .stopped)
  | swap {n s₁} (hq : s.queue.size ≠ 0) (hh : s.queue.head = some n)
      (hs : (s.threads curr).state ≠ .terminated) (hi : curr ≠ idle)
      (hsch : threadSchedule P ((s.popped c n).mark curr .stopped) curr = .ok s₁) :
    Picks P s c curr idle n s₁
  | handOver {n} (hq : s.queue.size ≠ 0) (hh : s.queue.head = some n)
      (hs : (s.threads curr).state = .terminated) : Picks P s c curr idle n (s.popped c n)

theorem pickNext_cases {idle : ℕ} (h : pickNext P s c curr idle = .ok (next, s')) :
    Picks P s c curr idle next s' := by
  unfold pickNext at h
  by_cases hq : s.queue.size = 0
  · rw [if_neg (not_not_intro hq)] at h
    split_ifs at h with hs
    · cases h
      exact .stay hq hs
    · cases h
      exact .toIdle hq (not_not.mp hs)
  · rw [if_pos hq] at h
    split at h
    · cases h
    · rename_i n hh
      split_ifs at h with hs hi
      · split at h
        · cases h
        · rename_i s₁ hsch
          cases h
          exact .swap hq hh hs hi hsch
      · cases h
        exact .fromIdle hq hh hs (not_not.mp hi)
      · cases h
        exact .handOver hq hh (not_not.mp hs)

theorem yieldSection_cases (h : yieldSection P s c curr via = .ok (o, s')) :
    ∃ next s₁, Yields P s c curr next s₁ ∧ o = ⟨.picked curr next, none⟩ ∧
      s' = s₁.setFrame c (.switch curr next via) := by
  unfold yieldSection at h
  split at h
  · cases h
  · rename_i next s₁ hp
    dsimp only at h
    split_ifs at h with hz hne
    · cases h
      refine ⟨_, _, ?_, rfl, rfl⟩
      cases pickNext_cases hp with
      | stay hq hs => exact absurd hz hs
      | toIdle hq hs => exact .toIdle hq hs rfl hne.1
      | fromIdle => simp [State.mark] at hz
      | swap hq hh hs hi hsch =>
        rw [threadSchedule_state hsch] at hz
        simp [State.mark] at hz
      | handOver hq hh hs => exact .handOver hq hh hs hne.1 hne.2
    · cases h
      refine ⟨_, _, ?_, rfl, rfl⟩
      cases pickNext_cases hp with
      | stay hq hs => exact .stay hq hs
      | toIdle hq hs => exact absurd hs hz
      | fromIdle hq hh hs hi => exact .fromIdle hq hh hs hi
      | swap hq hh hs hi hsch => exact .swap hq hh hs hi hsch
      | handOver hq hh hs => exact absurd ((popped_state ..).trans hs) hz

namespace Yields

variable {s₁ : State}

/-- A yield keeps what does not depend on states, cores and links. -/
theorem proj {α : Type*} (g : Thread → α) (h : Yields P s c curr next s₁)
    (hs : ∀ (t : Thread) st, g { t with state := st } = g t)
    (hn : ∀ (t : Thread) x, g { t with next := x } = g t)
    (hc : ∀ (t : Thread) x, g { t with coreid := x } = g t) (j : ℕ) :
    g (s₁.threads j) = g (s.threads j) := by
  have hpop : ∀ t : Thread, g { t with next := none, coreid := c } = g t :=
    fun t => (hc { t with next := none } c).trans (hn t none)
  cases h with
  | stay => exact State.mark_proj _ g _ (fun t => hs t _) j
  | toIdle =>
    rw [State.mark_proj _ g _ fun t => hs t _]
    exact State.retired_proj _ g _ _ (fun t => hs t _) (fun t => hn t _) j
  | fromIdle =>
    rw [State.mark_proj _ g _ fun t => hs t _, State.mark_proj _ g _ fun t => hs t _]
    exact State.popped_proj _ g _ hpop j
  | swap _ _ _ _ hsch =>
    rw [State.mark_proj _ g _ fun t => hs t _, threadSchedule_proj g hsch hn hc,
      State.mark_proj _ g _ fun t => hs t _]
    exact State.popped_proj _ g _ hpop j
  | handOver =>
    rw [State.mark_proj _ g _ fun t => hs t _,
      State.retired_proj _ g _ _ (fun t => hs t _) fun t => hn t _]
    exact State.popped_proj _ g _ hpop j

theorem tid (h : Yields P s c curr next s₁) (j : ℕ) : (s₁.threads j).tid = (s.threads j).tid :=
  h.proj Thread.tid (fun _ _ => rfl) (fun _ _ => rfl) (fun _ _ => rfl) j

theorem ctx (h : Yields P s c curr next s₁) (j : ℕ) : (s₁.threads j).ctx = (s.threads j).ctx :=
  h.proj Thread.ctx (fun _ _ => rfl) (fun _ _ => rfl) (fun _ _ => rfl) j

theorem next_state (h : Yields P s c curr next s₁) : (s₁.threads next).state = .running := by
  cases h <;> simp

theorem state_of_ne {j : ℕ} (h : Yields P s c curr next s₁) (hc : j ≠ curr) (hn : j ≠ next) :
    (s₁.threads j).state = (s.threads j).state := by
  cases h with
  | swap _ _ _ _ hsch => simp [hc, hn, threadSchedule_state hsch]
  | _ => simp [State.retired, hc, hn]

theorem coreid_of_ne {j : ℕ} (h : Yields P s c curr next s₁) (hc : j ≠ curr) (hn : j ≠ next) :
    (s₁.threads j).coreid = (s.threads j).coreid := by
  cases h with
  | swap _ _ _ _ hsch => simp [hc, hn, threadSchedule_coreid hsch]
  | _ => simp [State.retired, hc, hn]

/-- The thread that yields becomes a zombie if it was terminated. -/
theorem curr_state (h : Yields P s c curr next s₁) (hne : curr ≠ next) :
    (s₁.threads curr).state =
      if (s.threads curr).state = .terminated then .zombie else .stopped := by
  cases h with
  | stay => exact absurd rfl hne
  | swap _ _ hs _ hsch => simp [hne, hs, threadSchedule_state hsch]
  | toIdle _ hs | fromIdle _ _ hs | handOver _ _ hs => simp [State.retired, hne, hs]

/-- Besides the table and the queue, a yield changes nothing. -/
theorem rest (h : Yields P s c curr next s₁) :
    s₁ = { s with threads := s₁.threads, queue := s₁.queue } := by
  cases h with
  | swap _ _ _ _ hsch =>
    rw [State.mark, State.setThread, threadSchedule_rest hsch]
    rfl
  | _ => rfl

end Yields

@[simp] theorem kpagePut_threads (s : State) (p : Option ℕ) : (kpagePut s p).threads = s.threads := by
  cases p <;> rfl
@[simp] theorem kpagePut_queue (s : State) (p : Option ℕ) : (kpagePut s p).queue = s.queue := by
  cases p <;> rfl
@[simp] theorem kpagePut_cpus (s : State) (p : Option ℕ) : (kpagePut s p).cpus = s.cpus := by
  cases p <;> rfl

@[simp] theorem kpagePut_ustacks (s : State) (p : Option ℕ) : (kpagePut s p).ustacks = s.ustacks := by
  cases p <;> rfl
@[simp] theorem kpagePut_kstacks (s : State) (p : Option ℕ) : (kpagePut s p).kstacks = s.kstacks := by
  cases p <;> rfl
@[simp] theorem kpagePut_nextTid (s : State) (p : Option ℕ) : (kpagePut s p).nextTid = s.nextTid := by
  cases p <;> rfl
@[simp] theorem kpagePut_conds (s : State) (p : Option ℕ) : (kpagePut s p).conds = s.conds := by
  cases p <;> rfl
@[simp] theorem kpagePut_tokens (s : State) (p : Option ℕ) : (kpagePut s p).tokens = s.tokens := by
  cases p <;> rfl
@[simp] theorem kpagePut_exitValues (s : State) (p : Option ℕ) : (kpagePut s p).exitValues = s.exitValues := by
  cases p <;> rfl
@[simp] theorem kpagePut_nextExitValue (s : State) (p : Option ℕ) : (kpagePut s p).nextExitValue = s.nextExitValue := by
  cases p <;> rfl

@[simp] theorem threadFree_threads (P : Platform) (s : State) (i : ℕ) :
    (threadFree P s i).threads = update s.threads i
      { s.threads i with coreid := -1, state := .notStarted, tid := -1 } := by
  simp [threadFree]
@[simp] theorem threadFree_queue (P : Platform) (s : State) (i : ℕ) :
    (threadFree P s i).queue = s.queue := by simp [threadFree]
@[simp] theorem threadFree_cpus (P : Platform) (s : State) (i : ℕ) :
    (threadFree P s i).cpus = s.cpus := by simp [threadFree]

@[simp] theorem threadFree_nextTid (P : Platform) (s : State) (i : ℕ) :
    (threadFree P s i).nextTid = s.nextTid := by simp [threadFree]

theorem threadFree_rest (P : Platform) (s : State) (i : ℕ) : threadFree P s i =
    { s with threads := (threadFree P s i).threads, nthreads := (threadFree P s i).nthreads,
             ustacks := (threadFree P s i).ustacks, kstacks := (threadFree P s i).kstacks,
             kpages := (threadFree P s i).kpages } := by
  have hput : ∀ p q, ∃ k, kpagePut (kpagePut s p) q = { s with kpages := k } := by
    intro p q
    cases p <;> cases q <;> exact ⟨_, rfl⟩
  obtain ⟨k, hk⟩ := hput (s.ustacks (P.utid i)) (s.kstacks (P.utid i))
  simp only [threadFree]
  rw [hk]
  rfl

/-- A zombie is reaped only by the thread that is linked to it. -/
inductive Reaps (P : Platform) (s : State) (curr : ℕ) : Option ℕ → State → Prop
  | none : Reaps P s curr none s
  | some {z} (hn : (s.threads curr).next = some z) (hz : (s.threads z).state = .zombie) :
    Reaps P s curr (some z)
      ((threadFree P s z).setThread curr { (threadFree P s z).threads curr with next := none })

namespace Reaps

variable {freed : Option ℕ} {s₁ : State}

/-- What is not released is kept, up to a link. -/
theorem keeps {j : ℕ} (h : Reaps P s curr freed s₁) (hj : freed ≠ Option.some j) :
    s₁.threads j = { s.threads j with next := (s₁.threads j).next } := by
  cases h with
  | none => rfl
  | @some z hn hz =>
    have hjz : j ≠ z := fun he => hj (congrArg Option.some he.symm)
    by_cases hc : j = curr
    · subst hc
      simp [hjz]
    · simp [hjz, hc]

theorem zombie {z : ℕ} (h : Reaps P s curr freed s₁) (hf : freed = Option.some z) :
    (s.threads z).state = .zombie := by
  cases h with
  | none => cases hf
  | some hn hz =>
    cases hf
    exact hz

theorem released {z : ℕ} (h : Reaps P s curr freed s₁) (hf : freed = Option.some z) :
    s₁.threads z = { s.threads z with
      coreid := -1, state := .notStarted, tid := -1, next := (s₁.threads z).next } := by
  cases h with
  | none => cases hf
  | @some z hn hz =>
    cases hf
    by_cases hc : z = curr
    · subst hc
      simp
    · simp [hc]

theorem cpus (h : Reaps P s curr freed s₁) : s₁.cpus = s.cpus := by
  cases h with
  | none => rfl
  | some => simp

theorem queue (h : Reaps P s curr freed s₁) : s₁.queue = s.queue := by
  cases h with
  | none => rfl
  | some => simp

theorem rest (h : Reaps P s curr freed s₁) : s₁ =
    { s with threads := s₁.threads, nthreads := s₁.nthreads, ustacks := s₁.ustacks, kstacks := s₁.kstacks,
             kpages := s₁.kpages } := by
  cases h with
  | none => rfl
  | @some z =>
    rw [State.setThread, threadFree_rest P s z]

theorem nextTid (h : Reaps P s curr freed s₁) : s₁.nextTid = s.nextTid := by
  cases h with
  | none => rfl
  | some => simp

theorem ctx (h : Reaps P s curr freed s₁) (j : ℕ) : (s₁.threads j).ctx = (s.threads j).ctx := by
  by_cases hf : freed = Option.some j
  · rw [h.released hf]
  · rw [h.keeps hf]

theorem tid (h : Reaps P s curr freed s₁) (j : ℕ) :
    (s₁.threads j).tid = (s.threads j).tid ∨ (s₁.threads j).tid = -1 := by
  by_cases hf : freed = Option.some j
  · exact .inr (by rw [h.released hf])
  · exact .inl (by rw [h.keeps hf])

end Reaps

theorem reap_cases (P : Platform) (s : State) (curr : ℕ) :
    Reaps P s curr (reap P s curr).1 (reap P s curr).2 := by
  unfold reap
  split
  · exact .none
  · rename_i z hn
    split_ifs with hz
    · exact .some hn hz
    · exact .none

/-- The slot that `thread_alloc` finds, free or with a zombie to release. -/
inductive Allocs (P : Platform) (s : State) (i : ℕ) : Option ℕ → State → Prop
  | fresh (hs : (s.threads i).state = .notStarted) :
    Allocs P s i none { s.mark i .started with nthreads := s.nthreads + 1 }
  | recycled (hs : (s.threads i).state = .zombie) :
    Allocs P s i (some i) ((threadFree P s i).mark i .started)

namespace Allocs

variable {freed : Option ℕ} {s₁ : State}

theorem free (h : Allocs P s i freed s₁) :
    (s.threads i).state = .notStarted ∨ (s.threads i).state = .zombie := by
  cases h with
  | fresh hs => exact .inl hs
  | recycled hs => exact .inr hs

/-- The table after an allocation. -/
theorem threads (h : Allocs P s i freed s₁) :
    ∃ t : Thread, t.state = .started ∧ s₁.threads = update s.threads i t := by
  cases h with
  | fresh => exact ⟨_, rfl, rfl⟩
  | recycled => exact ⟨{ s.threads i with coreid := -1, state := .started, tid := -1 }, rfl, by simp⟩

theorem queue (h : Allocs P s i freed s₁) : s₁.queue = s.queue := by
  cases h with
  | fresh => rfl
  | recycled => exact threadFree_queue ..

theorem cpus (h : Allocs P s i freed s₁) : s₁.cpus = s.cpus := by
  cases h with
  | fresh => rfl
  | recycled => exact threadFree_cpus ..

theorem rest (h : Allocs P s i freed s₁) : s₁ =
    { s with threads := s₁.threads, nthreads := s₁.nthreads, ustacks := s₁.ustacks, kstacks := s₁.kstacks,
             kpages := s₁.kpages } := by
  cases h with
  | fresh => rfl
  | recycled =>
    rw [State.mark, State.setThread, threadFree_rest P s i]

theorem nextTid (h : Allocs P s i freed s₁) : s₁.nextTid = s.nextTid := by
  cases h with
  | fresh => rfl
  | recycled => exact threadFree_nextTid ..

theorem ctx (h : Allocs P s i freed s₁) (j : ℕ) : (s₁.threads j).ctx = (s.threads j).ctx := by
  cases h with
  | fresh => exact State.mark_proj s Thread.ctx .started (fun _ => rfl) j
  | recycled =>
    rw [State.mark_proj _ Thread.ctx .started fun _ => rfl, threadFree_threads]
    exact State.setThread_proj s Thread.ctx
      (t := { s.threads i with coreid := -1, state := .notStarted, tid := -1 }) rfl j

theorem tid (h : Allocs P s i freed s₁) :
    (s₁.threads i).tid = (s.threads i).tid ∨ (s₁.threads i).tid = -1 := by
  cases h with
  | fresh => exact .inl (by simp)
  | recycled => exact .inr (by simp)

end Allocs

theorem allocSlot_some (h : allocSlot P s = some i) :
    (1 ≤ i ∧ i < P.kthreadMax) ∧ ((s.threads i).state = .notStarted ∨ (s.threads i).state = .zombie) := by
  have hmem := List.mem_of_find?_eq_some h
  have hst := List.find?_some h
  refine ⟨?_, by simpa using hst⟩
  rw [List.range_eq_range', List.tail_range', List.mem_range'_1] at hmem
  omega

theorem threadAlloc_cases {freed : Option ℕ} (h : threadAlloc P s = some (i, freed, s')) :
    (1 ≤ i ∧ i < P.kthreadMax) ∧ Allocs P s i freed s' := by
  unfold threadAlloc at h
  split at h
  · cases h
  · rename_i j hj
    obtain ⟨hlt, hst⟩ := allocSlot_some hj
    split_ifs at h with hz
    · cases h
      exact ⟨hlt, .recycled hz⟩
    · cases h
      exact ⟨hlt, .fresh (hst.resolve_right hz)⟩

theorem kpageGet_some {ans : Option ℕ} {p : ℕ} (h : kpageGet s ans = some (p, s')) :
    s.kpages p = 0 ∧ s' = { s with kpages := update s.kpages p 1 } := by
  unfold kpageGet at h
  split at h
  · cases h
  · split_ifs at h with hp
    cases h
    exact ⟨hp, rfl⟩

inductive Creates (P : Platform) (s : State) (start arg : ℕ) : Out → State → Prop
  | full : Creates P s start arg ⟨.failed .EAGAIN, none⟩ s
  | noPages {i freed s₁} (hlt : 1 ≤ i ∧ i < P.kthreadMax) (ha : Allocs P s i freed s₁) :
    Creates P s start arg ⟨.failed .EAGAIN, freed⟩ s₁
  | created {i freed s₁ kstack ustack s₂} (hlt : 1 ≤ i ∧ i < P.kthreadMax) (ha : Allocs P s i freed s₁)
      (hk : s₁.kpages kstack = 0) (hu : s₁.kpages ustack = 0) (hne : ustack ≠ kstack)
      (hsch : threadSchedule P (initThread P
        { s₁ with kpages := update (update s₁.kpages kstack 1) ustack 1 }
        i start arg kstack ustack) i = .ok s₂) :
    Creates P s start arg ⟨.created s₁.nextTid i, freed⟩ s₂

namespace Creates

variable {start arg : ℕ} {s₁ : State}

/-- A creation leaves the threads of busy slots alone, up to a link. -/
theorem keeps {j : ℕ} (h : Creates P s start arg o s₁)
    (hs : ¬ ((s.threads j).state = .notStarted ∨ (s.threads j).state = .zombie)) :
    s₁.threads j = { s.threads j with next := (s₁.threads j).next } := by
  cases h with
  | full => rfl
  | @noPages i freed s₁ hlt ha =>
    obtain ⟨t, -, ht⟩ := ha.threads
    have hj : j ≠ i := fun hj => hs (hj ▸ ha.free)
    rw [ht, update_of_ne hj]
  | @created i freed s₁ kstack ustack s₂ hlt ha hk hu hne hsch =>
    obtain ⟨t, -, ht⟩ := ha.threads
    have hj : j ≠ i := fun hj => hs (hj ▸ ha.free)
    rw [threadSchedule_apply hsch]
    simp [initThread, ht, hj]

theorem cpus (h : Creates P s start arg o s₁) : s₁.cpus = s.cpus := by
  cases h with
  | full => rfl
  | noPages hlt ha => exact ha.cpus
  | created hlt ha hk hu hne hsch =>
    rw [threadSchedule_rest hsch]
    exact ha.cpus

theorem ctx (h : Creates P s start arg o s₁) (j : ℕ) :
    (s₁.threads j).ctx = (s.threads j).ctx ∨
      ∃ x, x.frame = .starting ∧ (s₁.threads j).ctx = some x := by
  cases h with
  | full => exact .inl rfl
  | noPages hlt ha => exact .inl (ha.ctx j)
  | @created i freed s₁ kstack ustack s₂ hlt ha hk hu hne hsch =>
    rw [threadSchedule_proj Thread.ctx hsch (fun _ _ => rfl) fun _ _ => rfl]
    by_cases hj : j = i
    · subst hj
      exact .inr ⟨⟨.starting, some (ustack, kstack), s₁.nextTid⟩, rfl, by simp [initThread]⟩
    · exact .inl (by simpa [initThread, hj] using ha.ctx j)

theorem tid (h : Creates P s start arg o s₁) (j : ℕ) : (s₁.threads j).tid = (s.threads j).tid ∨
    (s₁.threads j).tid = -1 ∨ (s₁.threads j).tid = s.nextTid := by
  have halloc : ∀ {i freed t}, Allocs P s i freed t →
      (t.threads j).tid = (s.threads j).tid ∨ (t.threads j).tid = -1 := by
    intro i freed t ha
    by_cases hj : j = i
    · subst hj
      exact ha.tid
    · obtain ⟨t, -, ht⟩ := ha.threads
      rw [ht, update_of_ne hj]
      exact .inl rfl
  cases h with
  | full => exact .inl rfl
  | noPages hlt ha => exact (halloc ha).imp_right .inl
  | @created i freed s₁ kstack ustack s₂ hlt ha hk hu hne hsch =>
    rw [threadSchedule_proj Thread.tid hsch (fun _ _ => rfl) fun _ _ => rfl]
    by_cases hj : j = i
    · subst hj
      simp [initThread, ha.nextTid]
    · have hsame := (halloc ha).imp_right (Or.inl (b := (s₁.threads j).tid = s.nextTid))
      simpa [initThread, hj] using hsame

theorem rest (h : Creates P s start arg o s₁) : s₁ =
    { s with threads := s₁.threads, nthreads := s₁.nthreads, nextTid := s₁.nextTid, queue := s₁.queue,
             ustacks := s₁.ustacks, kstacks := s₁.kstacks, kpages := s₁.kpages } := by
  cases h with
  | full => rfl
  | noPages hlt ha =>
    rw [ha.rest]
  | created hlt ha hk hu hne hsch =>
    rw [threadSchedule_rest hsch, initThread, State.setThread, ha.rest]

theorem nextTid (h : Creates P s start arg o s₁) : s₁.nextTid =
    match o.ret with
    | .created _ _ => s.nextTid + 1
    | _ => s.nextTid := by
  cases h with
  | full => rfl
  | noPages hlt ha => exact ha.nextTid
  | created hlt ha hk hu hne hsch =>
    rw [threadSchedule_rest hsch]
    simp [initThread, ha.nextTid]

end Creates

theorem threadCreate_cases {start arg : ℕ} {kpage upage : Option ℕ}
    (h : threadCreate P s start arg kpage upage = .ok (o, s')) : Creates P s start arg o s' := by
  unfold threadCreate at h
  split at h
  · cases h
    exact .full
  · rename_i i freed s₁ halloc
    obtain ⟨hlt, ha⟩ := threadAlloc_cases halloc
    split at h
    · cases h
      exact .noPages hlt ha
    · rename_i kstack s₂ hkget
      obtain ⟨hk, rfl⟩ := kpageGet_some hkget
      split at h
      · cases h
        -- The page that was taken is put back.
        have hback : kpagePut { s₁ with kpages := update s₁.kpages kstack 1 } (some kstack) = s₁ := by
          simp [kpagePut, ← hk]
        rw [hback]
        exact .noPages hlt ha
      · rename_i ustack s₃ huget
        obtain ⟨hu, rfl⟩ := kpageGet_some huget
        have hne : ustack ≠ kstack := by
          rintro rfl
          simp at hu
        split at h
        · cases h
        · rename_i s₄ hsch
          cases h
          have hu' : s₁.kpages ustack = 0 := by simpa [hne] using hu
          exact show Creates P s start arg ⟨.created s₁.nextTid i, freed⟩ s' from
            .created hlt ha hk hu' hne hsch

end Nanvix.Pm
