import Nanvix.Pm.Table

/-! The queue and the table in every run. A section never finds the queue in disorder, so the
assertions on the threads that are scheduled or that have terminated hold. -/

namespace Nanvix.Pm

open Nanvix.Lib

variable {P : Platform} {s s' : State} {a : Act} {o : Out} {c d i j n curr next : ℕ} {via : Caller}
  {q : List ℕ} {freed : Option ℕ}

/-! ### The assertions -/

theorem pickNext_ok {idle : ℕ} (hq : Ready P s q) (hon : OnCore P s c curr)
    (hu : curr ≠ idle → P.IsUser curr) : ∃ r, pickNext P s c curr idle = .ok r := by
  unfold pickNext
  by_cases hsize : s.queue.size = 0
  · rw [if_neg (not_not_intro hsize)]
    split_ifs <;> exact ⟨_, rfl⟩
  · obtain ⟨n, hh⟩ := hq.exists_head hsize
    obtain ⟨r, rfl⟩ := hq.eq_cons hh
    rw [if_pos hsize, hh]
    dsimp only
    split_ifs with hs hi
    · have hcurr : curr ∉ r := fun hm => hq.not_mem hon (List.mem_cons_of_mem _ hm)
      obtain ⟨t, ht⟩ := ((hq.pop c).setThread hcurr _).schedule_ok (hu hi)
      rw [State.mark, ht]
      exact ⟨_, rfl⟩
    · exact ⟨_, rfl⟩
    · exact ⟨_, rfl⟩

theorem Cores.user_of_terminated (h : Cores P s) (hon : OnCore P s c curr)
    (hs : (s.threads curr).state = .terminated) : P.IsUser curr := by
  refine ⟨?_, hon.lt⟩
  by_contra hsys
  rcases (h.system curr (by omega)).2 with hr | hr <;> rw [hs] at hr <;> cases hr

theorem yieldSection_ok (h : Table P s) (hc : c < P.coresNum) (hon : OnCore P s c curr) (via : Caller) :
    ∃ r, yieldSection P s c curr via = .ok r := by
  obtain ⟨q, hq⟩ := h.ready
  have hco : (s.threads curr).coreid.toNat = c := by rw [hon.coreid]; rfl
  unfold yieldSection
  rw [hco]
  obtain ⟨⟨next, s₁⟩, hp⟩ := pickNext_ok hq hon (h.cores.user_of_ne hon)
  rw [hp]
  dsimp only
  split_ifs with hz hne
  · exact ⟨_, rfl⟩
  · -- A terminated thread is neither the idle thread nor its own successor.
    exfalso
    apply hne
    have hterm : ∀ hs : (s.threads curr).state = .terminated, curr ≠ c := by
      intro hs hcc
      have := (h.cores.user_of_terminated hon hs).1
      omega
    cases pickNext_cases hp with
    | stay hsize hs => exact absurd hz hs
    | toIdle hsize hs => exact ⟨hterm hs, hterm hs⟩
    | fromIdle => simp at hz
    | swap hsize hh hs hi hsch =>
      rw [threadSchedule_state hsch] at hz
      simp at hz
    | handOver hsize hh hs =>
      obtain ⟨r, rfl⟩ := hq.eq_cons hh
      exact ⟨hterm hs, fun he => hq.not_mem hon (he ▸ List.mem_cons_self ..)⟩
  · exact ⟨_, rfl⟩

theorem Table.exists_curr (h : Table P s) (hc : c < P.coresNum) :
    ∃ i, threadGetCurr P s c = some i ∧ OnCore P s c i := by
  obtain ⟨i, hi⟩ := h.cores.exists_on c hc
  exact ⟨i, h.cores.threadGetCurr_eq hi, hi⟩

/-- `thread_yield` stops only where the master must not call it. -/
theorem threadYield_fault {f : Fault} (h : Table P s) (hc : c < P.coresNum)
    (hf : threadYield P s c via = .error f) :
    ((f = .idleYield ∧ via = .idle) ∨ (f = .unreachable ∧ via = .exit)) ∧
      ∃ i, OnCore P s c i ∧ (s.threads i).tid = 0 := by
  obtain ⟨i, hcurr, hi⟩ := h.exists_curr hc
  unfold threadYield at hf
  rw [hcurr] at hf
  dsimp only at hf
  split_ifs at hf with htid
  · refine ⟨?_, i, hi, htid⟩
    cases via with
    | user => cases hf
    | idle => cases hf; exact .inl ⟨rfl, rfl⟩
    | exit => cases hf; exact .inr ⟨rfl, rfl⟩
  · obtain ⟨r, hr⟩ := yieldSection_ok h hc hi via
    rw [hr] at hf
    cases hf

theorem threadCreate_ok (h : Table P s) (start arg : ℕ) (kpage upage : Option ℕ) :
    ∃ r, threadCreate P s start arg kpage upage = .ok r := by
  obtain ⟨q, hq⟩ := h.ready
  unfold threadCreate
  split
  · exact ⟨_, rfl⟩
  · rename_i i freed s₁ halloc
    obtain ⟨hlt, ha⟩ := threadAlloc_cases halloc
    split
    · exact ⟨_, rfl⟩
    · rename_i kstack s₂ hkget
      obtain ⟨hk, rfl⟩ := kpageGet_some hkget
      split
      · exact ⟨_, rfl⟩
      · rename_i ustack s₃ huget
        obtain ⟨hu, rfl⟩ := kpageGet_some huget
        have hinit := ha.ready_initThread hq
          (Function.update (Function.update s₁.kpages kstack 1) ustack 1) start arg kstack ustack
        obtain ⟨t, ht⟩ := hinit.schedule_ok ⟨h.cores.le_of_free ha.free, hlt.2⟩
        rw [ht]
        exact ⟨_, rfl⟩

theorem callStep_fault {f : Fault} (h : Table P s) (hc : a.core < P.coresNum)
    (hf : callStep P s a = .error f) :
    f = .startNull ∨ f = .exitUser ∨ f = .joinTid ∨ f = .endlessWalk := by
  obtain ⟨i, hcurr, hi⟩ := h.exists_curr hc
  cases a with
  | create c start arg kpage upage =>
    dsimp only [callStep] at hf
    split_ifs at hf
    · cases hf
      exact .inl rfl
    · obtain ⟨r, hr⟩ := threadCreate_ok h start arg kpage upage
      rw [hr] at hf
      cases hf
  | yield c => rcases (threadYield_fault h hc hf).1 with ⟨-, hv⟩ | ⟨-, hv⟩ <;> cases hv
  | exit c retval =>
    dsimp only [callStep, threadExit] at hf
    rw [show threadGetCurr P s c = some i from hcurr] at hf
    dsimp only at hf
    split_ifs at hf
    · split at hf
      · cases hf
        simp
      · cases hf
    · cases hf
      simp
  | join c tid want =>
    dsimp only [callStep, threadJoin] at hf
    rw [show threadGetCurr P s c = some i from hcurr] at hf
    dsimp only at hf
    split_ifs at hf
    · split at hf
      · cases hf
      · split_ifs at hf
    · cases hf
      simp
  | wait c j =>
    dsimp only [callStep] at hf
    rw [show threadGetCurr P s c = some i from hcurr] at hf
    cases hf
  | broadcast c j =>
    dsimp only [callStep] at hf
    split at hf
    · cases hf
      simp
    · cases hf
  | run c => cases hf

theorem runStep_fault {f : Fault} (h : Table P s) (hc : c < P.coresNum)
    (hf : runStep P s c = .error f) :
    f = .contextSaved ∨ f = .contextRestored ∨ f = .idleYield ∨ f = .unreachable := by
  obtain ⟨i, hcurr, hi⟩ := h.exists_curr hc
  unfold runStep at hf
  dsimp only at hf
  split at hf
  · cases hf
  · cases hf
  · split_ifs at hf
  · split_ifs at hf
  · cases hf
  · split_ifs at hf
  · exact .inr (.inr ((threadYield_fault h hc hf).1.imp And.left And.left))
  · exact .inr (.inr ((threadYield_fault h hc hf).1.imp And.left And.left))
  · rename_i curr next via _
    unfold switchStep threadSwitchTo at hf
    rw [hcurr] at hf
    dsimp only at hf
    split_ifs at hf <;> grind
  · dsimp only [cleanStep] at hf
    split_ifs at hf
    cases hf
    simp
  · dsimp only [threadStart] at hf
    rw [hcurr] at hf
    cases hf
  · split_ifs at hf
    split at hf
    · cases hf
    · cases hf

/-! ### Every run -/

theorem table_boot (P : Platform) : Table P (boot P) := by
  have hpos := P.cores_pos
  refine ⟨⟨[], ⟨rfl, rfl, fun h => absurd rfl h, .nil, ?_, ?_, ?_⟩⟩, ⟨?_, ?_, ?_, ?_⟩⟩
  · simp
  · simp
  · simp
  · intro c hc
    refine ⟨c, ?_, ?_, ?_⟩
    · unfold Platform.kthreadMax
      omega
    · simp [boot, hc, Active]
    · simp [boot, hc]
  · rintro c i j ⟨_, hia, hic⟩ ⟨_, hja, hjc⟩
    by_cases hi : i < P.coresNum
    · by_cases hj : j < P.coresNum
      · simp [boot, hi, hj] at hic hjc
        omega
      · simp [boot, hj, Active] at hja
    · simp [boot, hi, Active] at hia
  · intro i _ ha
    by_cases hi : i < P.coresNum
    · exact ⟨i, hi, by simp [boot, hi]⟩
    · simp [boot, hi, Active] at ha
  · intro i hi
    simp [boot, hi]

theorem table_of_runs {tr : List (Event State Act Out)} (h : Runs P tr s) : Table P s :=
  h.invariant (P := fun _ => True) (table_boot P) (fun _ _ => trivial) fun _ hs _ ht => table_step ht hs

theorem table_of_mem {tr : List (Event State Act Out)} {e : Event State Act Out} (h : Runs P tr s)
    (he : e ∈ tr) : Table P e.pre :=
  (h.invariant_of_mem (P := fun _ => True) (table_boot P) (fun _ _ => trivial)
    (fun _ hs _ ht => table_step ht hs) he).1

theorem fault_of_mem {tr : List (Event State Act Out)} {e : Event State Act Out} (h : Runs P tr s)
    (he : e ∈ tr) : e.out.ret ≠ .fault .scheduleUser ∧ e.out.ret ≠ .fault .zombie ∧
      e.out.ret ≠ .fault .nullThread := by
  have ht := table_of_mem h he
  have hmove := moves_of_step (h.step_of_mem he)
  obtain ⟨t, a, o, t'⟩ := e
  dsimp only at ht hmove ⊢
  cases hmove with
  | fault hc hfault =>
    rcases hfault with ⟨-, hf⟩ | ⟨-, hf⟩
    · rcases callStep_fault ht hc hf with rfl | rfl | rfl | rfl <;> simp
    · rcases runStep_fault ht hc hf with rfl | rfl | rfl | rfl <;> simp
  | cleaned => cases ‹Caller› <;> simp [Caller.ret]
  | creates hc hf hcr => cases hcr <;> simp
  | _ => simp

/-- Between any two sections the links from the head of the queue visit `size` distinct user
threads and end at its tail, these threads are ready and on no core, no other kind
of thread is among them, every core has exactly one running or terminated thread, and
the assertions on scheduled and on terminated threads hold. -/
theorem queue_and_table_of_runs {tr : List (Event State Act Out)} (h : Runs P tr s) :
    (∃ q, walk s.links P.kthreadMax s.queue.head = some q ∧ q.length = s.queue.size ∧ q.Nodup ∧
      (∀ hq : q ≠ [], s.queue.tail = some (q.getLast hq)) ∧
      (∀ i ∈ q, P.IsUser i ∧ (s.threads i).coreid = -1 ∧
        ((s.threads i).state = .started ∨ (s.threads i).state = .stopped)) ∧
      ∀ i, (s.threads i).state = .running ∨ (s.threads i).state = .terminated ∨
        (s.threads i).state = .zombie ∨ (s.threads i).state = .notStarted → i ∉ q) ∧
    (∀ c < P.coresNum, ∃! i, i < P.kthreadMax ∧ (s.threads i).coreid = c ∧
      ((s.threads i).state = .running ∨ (s.threads i).state = .terminated)) ∧
    ∀ e ∈ tr, e.out.ret ≠ .fault .scheduleUser ∧ e.out.ret ≠ .fault .zombie := by
  have ht := table_of_runs h
  obtain ⟨q, hq⟩ := ht.ready
  refine ⟨⟨q, ?_, hq.size.symm, hq.nodup, hq.tail, ?_, ?_⟩, ?_, ?_⟩
  · exact hq.linked.walk (length_le_of_nodup hq.nodup fun i hi => (hq.user i hi).2)
  · exact fun i hi => ⟨hq.user i hi, hq.coreid i hi, hq.state i hi⟩
  · rintro i hs hi
    rcases hq.state i hi with hi | hi <;> rw [hi] at hs <;> simp at hs
  · intro c hc
    obtain ⟨i, hi⟩ := ht.cores.exists_on c hc
    refine ⟨i, ⟨hi.lt, hi.coreid, hi.active⟩, ?_⟩
    rintro j ⟨hlt, hco, ha⟩
    exact ht.cores.unique ⟨hlt, ha, hco⟩ hi
  · exact fun e he => ⟨(fault_of_mem h he).1, (fault_of_mem h he).2.1⟩

/-- The master creates two threads; core 1 takes the first and leaves the second in
the queue. -/
theorem queue_and_table_after_two : ∃ tr s, Runs smallPlatform tr s ∧
    s.queue.size = 1 ∧ s.queue.head = some 4 ∧ (s.threads 3).state = .running ∧
    (∃ q, walk s.links smallPlatform.kthreadMax s.queue.head = some q ∧ q.length = s.queue.size) ∧
    ∃! i, i < smallPlatform.kthreadMax ∧ (s.threads i).coreid = 1 ∧
      ((s.threads i).state = .running ∨ (s.threads i).state = .terminated) := by
  obtain ⟨tr, s, hr, -, hs⟩ := exists_runs (P := smallPlatform)
    [.create 0 1 0 (some 0) (some 1), .create 0 1 0 (some 2) (some 3), .run 1, .run 1, .run 1]
    (fun r => r.2.queue.size = 1 ∧ r.2.queue.head = some 4 ∧ (r.2.threads 3).state = .running)
    (by decide +kernel)
  obtain ⟨⟨q, hw, hl, -⟩, huniq, -⟩ := queue_and_table_of_runs hr
  exact ⟨tr, s, hr, hs.1, hs.2.1, hs.2.2, ⟨q, hw, hl⟩, huniq 1 (by decide)⟩

end Nanvix.Pm
