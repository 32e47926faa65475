import Nanvix.Pm.Grants

/-! The life of a thread, as its state in the table shows it: a slot is allocated, the
thread that is scheduled in it resumes and stops, exits, dies when its core has another
thread to go on with, and is released. -/

namespace Nanvix.Pm

open Nanvix.Lib Function

variable {P : Platform} {s s' : State} {a : Act} {o : Out} {c i j curr next : ℕ} {q : List ℕ}

inductive Turn (P : Platform) (s : State) (o : Out) (s' : State) (i : ℕ) : Prop
  | same (h : (s'.threads i).state = (s.threads i).state)
  | resumes {c curr : ℕ} (hc : c < P.coresNum) (hr : o.ret = .picked curr i)
      (hw : s.queue.head = some i ∨ i = c) (hna : ¬ Active (s.threads i))
      (h : (s'.threads i).state = .running)
  | stops {c next : ℕ} (hr : o.ret = .picked i next) (hon : OnCore P s c i)
      (hs : (s.threads i).state = .running) (h : (s'.threads i).state = .stopped)
  | dies {c next : ℕ} (hr : o.ret = .picked i next) (hon : OnCore P s c i)
      (hs : (s.threads i).state = .terminated) (h : (s'.threads i).state = .zombie)
  | exits {c retval : ℕ} (hr : o.ret = .exited (s.threads i).tid retval) (hon : OnCore P s c i)
      (hu : P.IsUser i) (h : (s'.threads i).state = .terminated)
  | released (hf : o.freed = some i) (hs : (s.threads i).state = .zombie)
      (h : (s'.threads i).state = .notStarted)
  | allocated (hs : (s.threads i).state = .notStarted ∨
        (s.threads i).state = .zombie ∧ o.freed = some i)
      (h : (s'.threads i).state = .started)

theorem Yields.turn {s₁ : State} {x : Out} (h : Yields P s c curr next s₁) (ht : Table P s)
    (hc : c < P.coresNum) (hon : OnCore P s c curr) (hx : x.ret = .picked curr next) (i : ℕ) :
    Turn P s x s₁ i := by
  by_cases hne : curr = next
  · subst hne
    by_cases hi : i = curr
    · subst hi
      -- The thread goes on.
      cases h with
      | stay hq hs => exact .same (by rw [State.mark_eq_self _ (hon.active.resolve_right hs)])
      | toIdle hq hs hi hne => exact absurd rfl hne
      | fromIdle hq hh | swap hq hh | handOver hq hh =>
        obtain ⟨q, hq⟩ := ht.ready
        obtain ⟨r, rfl⟩ := hq.eq_cons hh
        exact absurd (List.mem_cons_self ..) (hq.not_mem hon)
    · exact .same (h.state_of_ne hi hi)
  · by_cases hic : i = curr
    · subst hic
      have hst := h.curr_state hne
      split_ifs at hst with hs
      · exact .dies hx hon hs hst
      · exact .stops hx hon (hon.active.resolve_right hs) hst
    · by_cases hin : i = next
      · subst hin
        refine .resumes hc hx ?_ ?_ h.next_state
        · exact ((h.next_cases hon).resolve_left hic).symm
        · -- Neither the head of the queue nor the idle thread is current.
          intro ha
          rcases (h.next_cases hon).resolve_left hic with hi | hh
          · subst hi
            refine hne (ht.cores.unique hon ⟨?_, ha, (ht.cores.system i hc).1⟩)
            unfold Platform.kthreadMax
            omega
          · obtain ⟨q, hq⟩ := ht.ready
            obtain ⟨r, rfl⟩ := hq.eq_cons hh
            exact hq.not_active (List.mem_cons_self ..) ha
      · exact .same (h.state_of_ne hic hin)

theorem Reaps.turn {s₁ : State} {r : Ret} {freed : Option ℕ} (h : Reaps P s curr freed s₁) (i : ℕ) :
    Turn P s ⟨r, freed⟩ s₁ i := by
  by_cases hf : freed = Option.some i
  · exact .released hf (h.zombie hf) (by rw [h.released hf])
  · exact .same (by rw [h.keeps hf])

theorem Allocs.turn {s₁ : State} {r : Ret} {freed : Option ℕ} (h : Allocs P s i freed s₁) (j : ℕ) :
    Turn P s ⟨r, freed⟩ s₁ j := by
  obtain ⟨t, hst, ht⟩ := h.threads
  by_cases hj : j = i
  · subst hj
    refine .allocated ?_ (by rw [ht, update_self, hst])
    cases h with
    | fresh hs => exact .inl hs
    | recycled hs => exact .inr ⟨hs, rfl⟩
  · exact .same (by rw [ht, update_of_ne hj])

theorem Turn.congr {s₁ : State} (h : Turn P s o s₁ i)
    (hs : (s'.threads i).state = (s₁.threads i).state) : Turn P s o s' i := by
  cases h with
  | same h => exact .same (hs.trans h)
  | resumes hc hr hw hna h => exact .resumes hc hr hw hna (hs.trans h)
  | stops hr hon h₀ h => exact .stops hr hon h₀ (hs.trans h)
  | dies hr hon h₀ h => exact .dies hr hon h₀ (hs.trans h)
  | exits hr hon hu h => exact .exits hr hon hu (hs.trans h)
  | released hf h₀ h => exact .released hf h₀ (hs.trans h)
  | allocated h₀ h => exact .allocated h₀ (hs.trans h)

theorem Creates.turn {s₁ : State} {start arg : ℕ} (h : Creates P s start arg o s₁) (i : ℕ) :
    Turn P s o s₁ i := by
  cases h with
  | full => exact .same rfl
  | noPages hlt ha => exact ha.turn i
  | @created k freed s₂ kstack ustack _ hlt ha hk hu hne hsch =>
    refine (ha.turn i).congr ?_
    rw [threadSchedule_state hsch]
    exact State.setThread_proj s₂ Thread.state (i := k) (t := { s₂.threads k with
      tid := s₂.nextTid, arg := arg, start := start, next := none
      ctx := some ⟨.starting, some (ustack, kstack), s₂.nextTid⟩ }) rfl i

theorem turn_step (ht : Table P s) (hstep : steps P s a o s') (i : ℕ) : Turn P s o s' i := by
  cases moves_of_step hstep with
  | idle | refused | fault | unfenced | tookFirst | opened | took | stayed | switchFailed
  | joinsNow | joinWakes | wakes => exact .same rfl
  | yields hc ha hcurr htid hy =>
    exact (hy.turn ht hc (threadGetCurr_some hcurr) rfl i).congr rfl
  | switched => exact .same (by rw [contextSwitch_apply])
  | cleaned hc hf hx hr | started hc hf hcurr hr => exact (hr.turn i).congr rfl
  | creates hc hf hcr => exact hcr.turn i
  | @exits c retval curr s₁ hc hf hcurr hu he =>
    by_cases hi : i = curr
    · subst hi
      exact .exits rfl (threadGetCurr_some hcurr) hu (by simp [he.threads])
    · exact .same (by simp [he.threads, hi])
  | joinSleeps | sleeps => exact .same (condWait_proj Thread.state s _ _ _ _ (fun _ _ => rfl) i)
  | broadcasts hc hf hb =>
    obtain ⟨l, -, rfl⟩ := condBroadcast_cases hb
    exact .same rfl

/-- Who is released loses its identifier, and who is created gets a new one. -/
theorem tid_step (hstep : steps P s a o s') (i : ℕ) :
    (o.ret = .created s.nextTid i ∧ (s'.threads i).tid = s.nextTid) ∨
    (o.freed = some i ∧ (∀ t, o.ret ≠ .created t i) ∧ (s'.threads i).tid = -1) ∨
    (o.freed ≠ some i ∧ (∀ t, o.ret ≠ .created t i) ∧ (s'.threads i).tid = (s.threads i).tid) := by
  have reaps : ∀ {curr freed s₁ r}, Reaps P s curr freed s₁ → (∀ t, r ≠ Ret.created t i) →
      (r = .created s.nextTid i ∧ (s₁.threads i).tid = s.nextTid) ∨
      (freed = some i ∧ (∀ t, r ≠ .created t i) ∧ (s₁.threads i).tid = -1) ∨
      (freed ≠ some i ∧ (∀ t, r ≠ .created t i) ∧ (s₁.threads i).tid = (s.threads i).tid) := by
    intro curr freed s₁ r hr hret
    by_cases hf : freed = some i
    · exact .inr (.inl ⟨hf, hret, by rw [hr.released hf]⟩)
    · exact .inr (.inr ⟨hf, hret, by rw [hr.keeps hf]⟩)
  have allocs : ∀ {k freed s₁}, Allocs P s k freed s₁ →
      (freed = some i ∧ (s₁.threads i).tid = -1) ∨
        (freed ≠ some i ∧ (s₁.threads i).tid = (s.threads i).tid) := by
    intro k freed s₁ ha
    by_cases hi : i = k
    · subst hi
      cases ha with
      | fresh => exact .inr ⟨by simp, by simp⟩
      | recycled => exact .inl ⟨rfl, by simp⟩
    · obtain ⟨t, -, ht⟩ := ha.threads
      refine .inr ⟨?_, by rw [ht, update_of_ne hi]⟩
      cases ha with
      | fresh => simp
      | recycled => exact fun hf => hi (Option.some.inj hf).symm
  cases moves_of_step hstep with
  | idle | refused | fault | unfenced | tookFirst | opened | took | stayed | switchFailed | wakes
  | joinsNow | joinWakes => exact .inr (.inr ⟨by simp, by simp, rfl⟩)
  | yields hc ha hcurr htid hy => exact .inr (.inr ⟨by simp, by simp, hy.tid i⟩)
  | switched => exact .inr (.inr ⟨by simp, by simp, by rw [contextSwitch_apply]⟩)
  | @cleaned c curr via freed s₁ hc hf hx hr =>
    have h := reaps hr (r := via.ret) (by cases via <;> simp [Caller.ret])
    exact h
  | started hc hf hcurr hr =>
    have h := reaps hr (r := .quiet) (by simp)
    exact h
  | creates hc hf hcr =>
    cases hcr with
    | full => exact .inr (.inr ⟨by simp, by simp, rfl⟩)
    | noPages hlt ha =>
      rcases allocs ha with ⟨hf, ht⟩ | ⟨hf, ht⟩
      · exact .inr (.inl ⟨hf, by simp, ht⟩)
      · exact .inr (.inr ⟨hf, by simp, ht⟩)
    | @created k freed s₁ kstack ustack s₂ hlt ha hk hu hne hsch =>
      have htid := threadSchedule_proj Thread.tid hsch (fun _ _ => rfl) (fun _ _ => rfl) i
      rw [ha.nextTid]
      by_cases hi : i = k
      · subst hi
        refine .inl ⟨rfl, htid.trans ?_⟩
        simp [initThread, ha.nextTid]
      · have hret : ∀ t, Ret.created s.nextTid k ≠ .created t i :=
          fun t h => hi (Ret.created.inj h).2.symm
        have hsame : (s'.threads i).tid = (s₁.threads i).tid := htid.trans (by simp [initThread, hi])
        rcases allocs ha with ⟨hf, ht⟩ | ⟨hf, ht⟩
        · exact .inr (.inl ⟨hf, hret, hsame.trans ht⟩)
        · exact .inr (.inr ⟨hf, hret, hsame.trans ht⟩)
  | exits hc hf hcurr hu he =>
    refine .inr (.inr ⟨by simp, by simp, ?_⟩)
    rw [State.setFrame_threads, he.threads]
    exact State.mark_proj s Thread.tid .terminated (fun _ => rfl) i
  | joinSleeps | sleeps =>
    exact .inr (.inr ⟨by simp, by simp, condWait_proj Thread.tid s _ _ _ _ (fun _ _ => rfl) i⟩)
  | broadcasts hc hf hb =>
    obtain ⟨l, -, rfl⟩ := condBroadcast_cases hb
    exact .inr (.inr ⟨by simp, by simp, rfl⟩)

theorem ctx_step (hstep : steps P s a o s') (hsw : ∀ j k, o.ret ≠ .switched j k)
    (hcr : ∀ t, o.ret ≠ .created t i) : (s'.threads i).ctx = (s.threads i).ctx := by
  cases moves_of_step hstep with
  | idle | refused | fault | unfenced | tookFirst | opened | took | stayed | switchFailed | wakes
  | joinsNow | joinWakes => rfl
  | yields hc ha hcurr htid hy => exact hy.ctx i
  | switched => exact absurd rfl (hsw _ _)
  | cleaned hc hf hx hr | started hc hf hcurr hr => exact hr.ctx i
  | creates hc hf hcrs =>
    cases hcrs with
    | full => rfl
    | noPages hlt ha => exact ha.ctx i
    | @created k freed s₁ kstack ustack s₂ hlt ha hk hu hne hsch =>
      have hi : i ≠ k := by
        rintro rfl
        exact hcr _ rfl
      rw [threadSchedule_proj Thread.ctx hsch (fun _ _ => rfl) fun _ _ => rfl]
      simpa [initThread, hi] using ha.ctx i
  | exits hc hf hcurr hu he =>
    rw [State.setFrame_threads, he.threads]
    exact State.mark_proj s Thread.ctx .terminated (fun _ => rfl) i
  | joinSleeps | sleeps => exact condWait_proj Thread.ctx s _ _ _ _ (fun _ _ => rfl) i
  | broadcasts hc hf hb =>
    obtain ⟨l, -, rfl⟩ := condBroadcast_cases hb
    rfl

theorem onCore_step (ht : Table P s) (hstep : steps P s a o s') (hret : ∀ j k, o.ret ≠ .picked j k) :
    OnCore P s' c i ↔ OnCore P s c i := by
  have hact : Active (s'.threads i) ↔ Active (s.threads i) := by
    unfold Active
    cases turn_step ht hstep i with
    | same h => rw [h]
    | resumes _ hr | stops hr | dies hr => exact absurd hr (hret _ _)
    | exits _ hon _ h => exact iff_of_true (.inr h) hon.active
    | released _ hs h => simp [hs, h]
    | allocated hs h => rcases hs with hs | ⟨hs, -⟩ <;> simp [hs, h]
  have hco : Active (s.threads i) → (s'.threads i).coreid = (s.threads i).coreid := by
    intro ha
    have hbusy : ¬ ((s.threads i).state = .notStarted ∨ (s.threads i).state = .zombie) := by
      rcases ha with ha | ha <;> simp [ha]
    cases moves_of_step hstep with
    | idle | refused | fault | unfenced | tookFirst | opened | took | stayed | switchFailed | wakes
    | joinsNow | joinWakes => rfl
    | yields => exact absurd rfl (hret _ _)
    | switched => rw [contextSwitch_apply]
    | cleaned hc hf hx hr | started hc hf hcurr hr =>
      rw [State.setFrame_threads, hr.keeps fun hf => hbusy (.inr (hr.zombie hf))]
    | creates hc hf hcr => rw [hcr.keeps hbusy]
    | exits hc hf hcurr hu he =>
      rw [State.setFrame_threads, he.threads]
      exact State.mark_proj s Thread.coreid .terminated (fun _ => rfl) i
    | joinSleeps | sleeps => exact condWait_proj Thread.coreid s _ _ _ _ (fun _ _ => rfl) i
    | broadcasts hc hf hb =>
      obtain ⟨l, -, rfl⟩ := condBroadcast_cases hb
      rfl
  exact onCore_congr hact hco

/-! ### The other cores -/

/-- A step changes what its own core executes only. -/
theorem cpus_of_ne (hstep : steps P s a o s') (hc : c ≠ a.core) : s'.cpus c = s.cpus c := by
  cases moves_of_step hstep with
  | idle | refused => rfl
  | fault | unfenced | tookFirst | opened | took | stayed | switchFailed | wakes | joinsNow | joinWakes
  | joinSleeps | sleeps | switched => exact update_of_ne hc _ _
  | @yields _ c' curr next via s₁ hc' ha hcurr htid hy =>
    have hcore : a.core = c' := by cases ha <;> rfl
    rw [hcore] at hc
    rw [State.setFrame_cpus, update_of_ne hc, hy.rest]
  | cleaned hc' hf hx hr | started hc' hf hcurr hr =>
    exact (update_of_ne hc _ _).trans (congrFun hr.cpus c)
  | creates hc' hf hcr => rw [hcr.cpus]
  | exits hc' hf hcurr hu he => exact (update_of_ne hc _ _).trans (congrFun he.cpus c)
  | broadcasts hc' hf hb =>
    obtain ⟨l, -, rfl⟩ := condBroadcast_cases hb
    rfl

/-- A terminated thread is on its way out of its core. -/
def Terminal (P : Platform) (s : State) : Prop :=
  ∀ c i, OnCore P s c i → (s.threads i).state = .terminated →
    (s.cpus c).frame = .exiting ∨ (s.cpus c).frame = .halted

/-- A core that is not on its way out has a running thread. -/
theorem Terminal.running (h : Terminal P s) (hon : OnCore P s c i) (hf : (s.cpus c).frame ≠ .exiting)
    (hf' : (s.cpus c).frame ≠ .halted) : (s.threads i).state = .running := by
  rcases hon.active with ha | ha
  · exact ha
  · exact absurd (h c i hon ha) (not_or.mpr ⟨hf, hf'⟩)

/-- After a yield, the current threads of the other cores are those of before. -/
theorem Yields.onCore_of_ne {s₁ : State} (h : Yields P s c curr next s₁) (hnext : OnCore P s₁ c next)
    (hne : curr ≠ next) {d : ℕ} (hd : d ≠ c) (hi : OnCore P s₁ d i) :
    OnCore P s d i ∧ (s₁.threads i).state = (s.threads i).state := by
  have hin : i ≠ next := by
    rintro rfl
    exact hd (Int.ofNat.inj (hi.coreid.symm.trans hnext.coreid))
  have hic : i ≠ curr := by
    rintro rfl
    have ha := hi.active
    rw [Active, h.curr_state hne] at ha
    split_ifs at ha <;> simp at ha
  obtain ⟨hlt, ha, hco⟩ := hi
  rw [Active, h.state_of_ne hic hin] at ha
  rw [h.coreid_of_ne hic hin] at hco
  exact ⟨⟨hlt, ha, hco⟩, h.state_of_ne hic hin⟩

theorem Yields.onCore_next {s₁ : State} (h : Yields P s c curr next s₁) (ht : Table P s)
    (hc : c < P.coresNum) (hon : OnCore P s c curr) : OnCore P s₁ c next := by
  obtain ⟨q, hq⟩ := ht.ready
  have hhead : s.queue.head = some next → next < P.kthreadMax ∧ next ≠ curr := by
    intro hh
    obtain ⟨r, rfl⟩ := hq.eq_cons hh
    exact ⟨(hq.user _ (List.mem_cons_self ..)).2,
      fun he => hq.not_mem hon (he ▸ List.mem_cons_self ..)⟩
  refine ⟨?_, .inl h.next_state, ?_⟩
  · rcases h.next_cases hon with rfl | rfl | hh
    · exact hon.lt
    · unfold Platform.kthreadMax
      omega
    · exact (hhead hh).1
  · cases h with
    | stay => exact (State.mark_proj s Thread.coreid .running (fun _ => rfl) _).trans hon.coreid
    | toIdle hsize hs hi hne =>
      have hidle : next = c := by rw [hi, hon.coreid]; rfl
      rw [State.mark_proj _ Thread.coreid .running fun _ => rfl,
        State.retired_proj _ Thread.coreid _ _ (fun _ => rfl) fun _ => rfl]
      subst hidle
      exact (ht.cores.system next hc).1
    | fromIdle hsize hh | handOver hsize hh => simp [State.retired, (hhead hh).2]
    | swap hsize hh hs hi hsch => simp [threadSchedule_coreid hsch, (hhead hh).2]

/-- A thread that goes on with itself changes nothing. -/
theorem Yields.eq_self {s₁ : State} (h : Yields P s c curr curr s₁) (ht : Table P s)
    (hon : OnCore P s c curr) : s₁ = s := by
  cases h with
  | stay hq hs => exact State.mark_eq_self _ (hon.active.resolve_right hs)
  | toIdle _ _ _ hne => exact absurd rfl hne
  | fromIdle _ hh | swap _ hh | handOver _ hh =>
    obtain ⟨q, hq⟩ := ht.ready
    obtain ⟨r, rfl⟩ := hq.eq_cons hh
    exact absurd (List.mem_cons_self ..) (hq.not_mem hon)

theorem onCore_of_ne (ht : Table P s) (hstep : steps P s a o s') (hc : c < P.coresNum) (hne : c ≠ a.core) :
    OnCore P s' c i ↔ OnCore P s c i := by
  by_cases hpick : ∃ j k, o.ret = .picked j k
  · have hback : ∀ {j}, OnCore P s' c j → OnCore P s c j := by
      rintro j ⟨hlt, hact, hco⟩
      cases moves_of_step hstep with
      | @yields _ c' curr next via s₁ hc' ha hcurr htid hy =>
        have hcore : a.core = c' := by cases ha <;> rfl
        have hon := threadGetCurr_some hcurr
        have hj : OnCore P s₁ c j := ⟨hlt, hact, hco⟩
        by_cases hcn : curr = next
        · subst hcn
          obtain rfl := hy.eq_self ht hon
          exact hj
        · exact (hy.onCore_of_ne (hy.onCore_next ht hc' hon) hcn (hcore ▸ hne) hj).1
      | @cleaned _ _ via => cases via <;> simp [Caller.ret] at hpick
      | creates hc' hf hcr => cases hcr <;> simp at hpick
      | _ => simp at hpick
    refine ⟨hback, fun hi => ?_⟩
    obtain ⟨j, hj⟩ := (table_step ht hstep).cores.exists_on c hc
    rwa [ht.cores.unique hi (hback hj)]
  · exact onCore_step ht hstep fun j k h => hpick ⟨j, k, h⟩

theorem terminal_step (ht : Table P s) (h : Terminal P s) (hstep : steps P s a o s') : Terminal P s' := by
  -- A step of a core that is not on its way out, in which nobody exits.
  have keep : ∀ {c x}, (∀ j k, o.ret ≠ .picked j k) → (∀ t v, o.ret ≠ .exited t v) →
      s'.cpus = update s.cpus c x →
      (((s.cpus c).frame ≠ .exiting ∧ (s.cpus c).frame ≠ .halted) ∨ x.frame = .halted ∨
        x.frame = (s.cpus c).frame) → Terminal P s' := by
    intro c x hp hx hcpus hfr d i hi hs
    have hi := (onCore_step ht hstep hp).mp hi
    have hst : (s.threads i).state = .terminated := by
      cases turn_step ht hstep i with
      | same h => exact h.symm.trans hs
      | exits hr => exact absurd hr (hx _ _)
      | resumes _ _ _ _ h | stops _ _ _ h | dies _ _ _ h | released _ _ h | allocated _ h =>
        rw [h] at hs
        cases hs
    have hout := h d i hi hst
    rw [hcpus]
    by_cases hd : d = c
    · subst hd
      rw [update_self]
      rcases hfr with ⟨h₁, h₂⟩ | hfr | hfr
      · exact absurd hout (not_or.mpr ⟨h₁, h₂⟩)
      · exact .inr hfr
      · rwa [hfr]
    · rwa [update_of_ne hd]
  cases moves_of_step hstep with
  | idle | refused => exact h
  | fault => exact keep (by simp) (by simp) rfl (.inr (.inl rfl))
  | unfenced hc hf | joinsNow hc hf | joinSleeps hc hf | sleeps hc hf | opened hc hf
  | tookFirst hc hf | took hc hf | joinWakes hc hf | wakes hc hf | stayed hc hf | switched hc hf
  | switchFailed hc hf => exact keep (by simp) (by simp) rfl (.inl (by simp [hf]))
  | @yields _ c curr next via s₁ hc ha hcurr htid hy =>
    have hon := threadGetCurr_some hcurr
    have hnext := hy.onCore_next ht hc hon
    have hcores := hy.cores ht.ready.choose_spec ht.cores hc hon
    rintro d i ⟨hlt, hact, hco⟩ hs
    have hi : OnCore P s₁ d i := ⟨hlt, hact, hco⟩
    have hd : d ≠ c := by
      rintro rfl
      obtain rfl := hcores.unique hi hnext
      rw [State.setFrame_threads, hy.next_state] at hs
      cases hs
    have hold : OnCore P s d i ∧ (s₁.threads i).state = (s.threads i).state := by
      by_cases hne : curr = next
      · subst hne
        obtain rfl := hy.eq_self ht hon
        exact ⟨hi, rfl⟩
      · exact hy.onCore_of_ne hnext hne hd hi
    rw [State.setFrame_cpus, update_of_ne hd, hy.rest]
    exact h d i hold.1 (hold.2.symm.trans hs)
  | @cleaned c curr via freed s₁ hc hf hx hr =>
    refine keep (by cases via <;> simp [Caller.ret]) (by cases via <;> simp [Caller.ret])
      (by rw [State.setFrame_cpus, hr.cpus]) (.inl (by simp [hf]))
  | started hc hf hcurr hr =>
    exact keep (by simp) (by simp) (by rw [State.setFrame_cpus, hr.cpus]) (.inl (by simp [hf]))
  | @creates c start arg kpage upage r s₁ hc hf hcr =>
    refine keep (c := c) (x := s.cpus c) ?_ ?_ (by rw [hcr.cpus, update_eq_self]) (.inr (.inr rfl))
    · cases hcr <;> simp
    · cases hcr <;> simp
  | @exits c retval curr s₁ hc hf hcurr hu he =>
    intro d i hi hs
    have hi := (onCore_step ht hstep (by simp)).mp hi
    have hon := threadGetCurr_some hcurr
    by_cases hd : d = c
    · subst hd
      simp
    · have hic : i ≠ curr := by
        rintro rfl
        exact hd (Int.ofNat.inj (hi.coreid.symm.trans hon.coreid))
      rw [State.setFrame_threads, he.threads, update_of_ne hic] at hs
      rw [State.setFrame_cpus, update_of_ne hd, he.cpus]
      exact h d i hi hs
  | @broadcasts c j s₁ hc hf hb =>
    obtain ⟨l, -, rfl⟩ := condBroadcast_cases hb
    exact keep (c := c) (x := s.cpus c) (by simp) (by simp) (by rw [update_eq_self]) (.inr (.inr rfl))

theorem terminal_boot (P : Platform) : Terminal P (boot P) := by
  intro c i _ hs
  simp only [boot] at hs
  split_ifs at hs

end Nanvix.Pm
