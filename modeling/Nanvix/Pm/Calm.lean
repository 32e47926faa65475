import Nanvix.Pm.Switch

/-! Runs in which no section comes upon a thread that a core has still to switch away from, at the head
of the run queue or as a zombie. There a core finds the context of the thread that it has chosen,
and the stacks of a thread are released when no core is on them any more. Without that neither
holds. -/

namespace Nanvix.Pm

open Nanvix.Lib

variable {P : Platform} {s s' : State} {a : Act} {o : Out} {c d i j curr next : ℕ} {via : Caller}
  {q : List ℕ} {f : Frame} {x : Context}

/-- The step is a section under `lock_tm`. -/
def TakesLock (s : State) : Act → Bool
  | .create .. | .yield _ | .exit .. | .join .. => true
  | .wait .. | .broadcast .. => false
  | .run c =>
    match (s.cpus c).frame with
    | .granted | .exiting | .clean _ _ | .starting | .asleep _ (.join _ _) => true
    | _ => false

/-- The thread that a core in this place switches away from. -/
def Frame.leaving : Frame → Option ℕ
  | .switch curr next _ => if curr = next then none else some curr
  | _ => none

/-- When a section runs, no other core is between its section and its context switch away from the
thread at the head of the run queue, or away from a zombie. -/
def Calm (P : Platform) (s : State) (a : Act) : Prop :=
  TakesLock s a = true → ∀ d < P.coresNum, d ≠ a.core → ∀ i ∈ (s.cpus d).frame.leaving,
    s.queue.head ≠ some i ∧ (s.threads i).state ≠ .zombie

instance (P : Platform) (s : State) (a : Act) : Decidable (Calm P s a) := by
  unfold Calm
  exact instDecidableForall

theorem SwitchesFrom.leaving (h : SwitchesFrom s c i) : (s.cpus c).frame.leaving = some i := by
  obtain ⟨next, via, hf, hne⟩ := h
  rw [hf, Frame.leaving, if_neg hne]

theorem not_inSwitch_of_stay (hf : (s.cpus c).frame = .switch curr curr via) : ¬ InSwitch s c := by
  rintro ⟨j, k, v, h, hne⟩
  obtain ⟨rfl, rfl, -⟩ := Frame.switch.inj (hf.symm.trans h)
  exact hne rfl

theorem not_inSwitch (hf : ∀ j k v, (s.cpus c).frame ≠ .switch j k v) : ¬ InSwitch s c :=
  fun ⟨j, k, v, h, _⟩ => hf j k v h

theorem Calm.all (h : Calm P s a) (hl : TakesLock s a = true) (hw : ¬ InSwitch s a.core) (hd : d < P.coresNum)
    (hi : SwitchesFrom s d i) : s.queue.head ≠ some i ∧ (s.threads i).state ≠ .zombie := by
  by_cases hda : d = a.core
  · subst hda
    exact absurd hi.inSwitch hw
  · exact h hl d hd hda i hi.leaving

/-- A switch that has begun does not fail. -/
theorem Sane.switch_ok (h : Sane P s) (hb : Base P s) (hc : c < P.coresNum)
    (hf : (s.cpus c).frame = .switch curr next via) (hne : curr ≠ next) :
    ∃ x, (s.threads next).ctx = some x ∧ threadGetCurr P s c = some next ∧
      (s.threads next).tid ≠ 0 ∧ (s.threads curr).ctx = none := by
  obtain ⟨hnext, -, -, hx, x, hsv, -⟩ := h.switch hc hf hne
  refine ⟨x, hsv, hb.table.cores.threadGetCurr_eq hnext, ?_, hx⟩
  intro htid
  have hc0 := (hb.master.zero_iff hb.table hnext).mpr ((hb.master.tid next).mp htid)
  exact hb.master.ne_zero (by simp [hf, Frame.IsMaster]) hc0

theorem sane_step (h : Sane P s) (hh : Held P s) (hcalm : Calm P s a) (hstep : steps P s a o s') :
    Sane P s' := by
  have ht := hh.base.table
  cases moves_of_step hstep with
  | idle | refused => exact h
  | fault hc hfault =>
    have hw : ¬ InSwitch s a.core := by
      rintro ⟨curr, next, via, hf, hne⟩
      obtain ⟨x, hx, hcurr, htid, hctx⟩ := h.switch_ok hh.base hc hf hne
      rcases hfault with ⟨hu, -⟩ | ⟨-, he⟩
      · rw [hf] at hu
        cases hu
      · simp [runStep, hf, switchStep, threadSwitchTo, hcurr, htid, hctx, hne, hx] at he
    exact h.quiet hh hstep (by simp) (by simp) (by simp) hc hw rfl (by simp) fun _ _ => trivial
  | unfenced hc hf | joinsNow hc hf | joinSleeps hc hf | sleeps hc hf | opened hc hf
  | tookFirst hc hf | took hc hf | joinWakes hc hf | wakes hc hf =>
    exact h.quiet hh hstep (by simp) (by simp) (by simp) hc (not_inSwitch (by simp [hf])) rfl (by simp)
      fun _ _ => trivial
  | @yields _ c curr next via s₁ hc ha hcurr htid hy =>
    have hon := threadGetCurr_some hcurr
    obtain ⟨hcore, hlock, hw⟩ : a.core = c ∧ TakesLock s a = true ∧ ¬ InSwitch s c := by
      cases ha with
      | user hf => exact ⟨rfl, rfl, not_inSwitch (by simp [hf])⟩
      | idle hf | exit hf => exact ⟨rfl, by simp [TakesLock, hf], not_inSwitch (by simp [hf])⟩
    by_cases hne : curr = next
    · subst hne
      obtain rfl := hy.eq_self ht hon
      exact h.keepFrame hc hw (by simp) fun i hi => ht.cores.unique hon hi
    · have hhead : ∀ d < P.coresNum, ∀ i, SwitchesFrom s d i → s.queue.head ≠ some i :=
        fun d hd i hi => (hcalm.all hlock (hcore.symm ▸ hw) hd hi).1
      exact h.begin ht hc hcore hw hhead hon hy hne hstep rfl
  | stayed hc hf hx =>
    have hw := not_inSwitch_of_stay hf
    refine h.keepFrame hc hw (by simp) fun i hi => ?_
    have hat := (h.here hc hi hw).2.2
    rw [hf] at hat
    exact hat
  | switched hc hf hne hx hcurr htid hn => exact h.finish ht hc hf hne hn
  | switchFailed hc hf hne hx hcurr hn =>
    exfalso
    obtain ⟨x, hx, hcurr', htid, -⟩ := h.switch_ok hh.base hc hf hne
    rcases hn with hn | hn
    · obtain rfl := Option.some.inj (hcurr.symm.trans hcurr')
      exact htid hn
    · rw [hn] at hx
      cases hx
  | @cleaned c curr via freed s₁ hc hf hx hr =>
    have hw : ¬ InSwitch s c := not_inSwitch (by simp [hf])
    refine h.quiet hh hstep ?_ ?_ (fun _ d hd i hi => (hcalm.all (by simp [TakesLock, hf]) hw hd hi).2) hc hw
      (by rw [State.setFrame_cpus, hr.cpus]) ?_ ?_ <;> cases via <;> simp [Caller.ret, Caller.back, Frame.At]
  | @started c curr freed s₁ hc hf hcurr hr =>
    have hw : ¬ InSwitch s c := not_inSwitch (by simp [hf])
    exact h.quiet hh hstep (by simp) (by simp) (fun _ d hd i hi => (hcalm.all (by simp [TakesLock, hf]) hw hd hi).2) hc hw
      (f := .user) (by rw [State.setFrame_cpus, hr.cpus]) (by simp) fun _ _ => trivial
  | @creates c start arg kpage upage r s₁ hc hf hcr =>
    have hw : ¬ InSwitch s c := not_inSwitch (by simp [hf])
    refine h.quiet hh hstep ?_ ?_ (fun _ d hd i hi => (hcalm.all rfl hw hd hi).2) hc hw (f := .user) ?_ (by simp)
      fun _ _ => trivial
    · cases hcr <;> simp
    · cases hcr <;> simp
    · rw [hcr.cpus, ← hf, Function.update_eq_self]
  | exits hc hf hcurr hu he =>
    exact h.quiet hh hstep (by simp) (by simp) (by simp) hc (not_inSwitch (by simp [hf])) (f := .exiting)
      (by rw [State.setFrame_cpus, he.cpus]) (by simp) fun _ _ => trivial
  | broadcasts hc hf hb =>
    obtain ⟨l, -, rfl⟩ := condBroadcast_cases hb
    exact h.quiet hh hstep (by simp) (by simp) (by simp) hc (not_inSwitch (by simp [hf])) (f := .user)
      (by rw [← hf, Function.update_eq_self]) (by simp) fun _ _ => trivial

theorem sane_boot (P : Platform) : Sane P (boot P) := by
  have hw : ∀ c, ¬ InSwitch (boot P) c := by
    rintro c ⟨j, k, v, hf, -⟩
    dsimp only [boot] at hf
    split_ifs at hf
  refine ⟨?_, ?_, ?_, ?_⟩
  · intro c i hc hi _
    have hsys : i < P.coresNum := by
      by_contra hi'
      have ha := hi.active
      simp [boot, hi', Active] at ha
    obtain rfl : i = c := by
      have hco := hi.coreid
      simp only [boot, hsys, ite_true] at hco
      omega
    have hu : ¬ P.IsUser i := fun hu => absurd hu.1 (by omega)
    refine ⟨⟨by simp [boot, hsys], by simp [boot, stackOf, hu]⟩, by simp [boot, hsys], ?_⟩
    simp only [boot]
    split_ifs <;> trivial
  · intro c curr next via _ hf hne
    exact absurd ⟨curr, next, via, hf, hne⟩ (hw c)
  · exact fun _ _ hin => absurd hin.inSwitch (hw _)
  · rintro i (⟨q, hq, hm⟩ | ⟨hsys, hs⟩)
    · obtain rfl := hq.linked.unique (q := q) (r := []) rfl
      cases hm
    · simp [boot, hsys] at hs

structure Settled (P : Platform) (s : State) : Prop where
  held : Held P s
  sane : Sane P s

section Runs

variable {tr : List (Event State Act Out)} {e : Event State Act Out}

theorem settled_of_runs (h : Runs P tr s) (hcalm : ∀ e ∈ tr, Calm P e.pre e.act) : Settled P s :=
  h.invariant (I := Settled P) ⟨held_boot P, sane_boot P⟩ hcalm fun _ hs hc hi =>
    ⟨held_step hi.held hs, sane_step hi.sane hi.held hc hs⟩

theorem settled_of_mem (h : Runs P tr s) (hcalm : ∀ e ∈ tr, Calm P e.pre e.act) (he : e ∈ tr) :
    Settled P e.pre ∧ Settled P e.post :=
  h.invariant_of_mem (I := Settled P) ⟨held_boot P, sane_boot P⟩ hcalm (fun _ hs hc hi =>
    ⟨held_step hi.held hs, sane_step hi.sane hi.held hc hs⟩) he

/-- In a calm run a context switch that a yield has begun finds the context of the next
thread and takes the core to it. -/
theorem switched_of_mem (h : Runs P tr s) (hcalm : ∀ e ∈ tr, Calm P e.pre e.act) (he : e ∈ tr)
    (hact : e.act = .run c) (hc : c < P.coresNum)
    (hf : (e.pre.cpus c).frame = .switch curr next via) (hne : curr ≠ next) :
    (e.pre.threads next).ctx ≠ none ∧ e.out.ret = .switched curr next ∧
      (e.post.threads next).state = .running ∧ (e.post.threads next).coreid = c ∧
      (e.post.cpus c).owner = (e.post.threads next).tid := by
  have hpre := (settled_of_mem h hcalm he).1
  obtain ⟨x, hx, hcurr, htid, hctx⟩ := hpre.sane.switch_ok hpre.held.base hc hf hne
  have hstep := h.step_of_mem he
  rw [steps, hact] at hstep
  simp only [step, Act.core, hc, ite_true, runStep, hf, switchStep, hctx, ne_eq, not_true_eq_false,
    ite_false, hne, threadSwitchTo, hcurr, htid, hx, settle, Prod.mk.injEq] at hstep
  obtain ⟨hnext, -, -, -, y, hy, hb, -⟩ := hpre.sane.switch hc hf hne
  obtain rfl : x = y := Option.some.inj (hx.symm.trans hy)
  have hrun := hpre.held.terminal.running hnext (by simp [hf]) (by simp [hf])
  rw [← hstep.1, ← hstep.2, contextSwitch_apply]
  refine ⟨by simp [hx], rfl, hrun, hnext.coreid, ?_⟩
  simp [contextSwitch, hb.owner]

theorem not_switchFailed_of_mem (h : Runs P tr s) (hcalm : ∀ e ∈ tr, Calm P e.pre e.act) (he : e ∈ tr) :
    e.out.ret ≠ .switchFailed curr next := by
  intro hret
  have hmove := moves_of_step (h.step_of_mem he)
  have hswitched : ∀ c curr next via, e.act = .run c → c < P.coresNum →
      (e.pre.cpus c).frame = .switch curr next via → curr ≠ next →
        e.out.ret = .switched curr next :=
    fun c curr next via hact hc hf hne => (switched_of_mem h hcalm he hact hc hf hne).2.1
  obtain ⟨t, a, o, t'⟩ := e
  dsimp only at hret hmove hswitched
  cases hmove with
  | switchFailed hc hf hne =>
    have hsw := hswitched _ _ _ _ rfl hc hf hne
    cases hsw
  | @cleaned c curr via => cases via <;> cases hret
  | creates hc hf hcr => cases hcr <;> cases hret
  | _ => cases hret

/-- In a calm run no context switch fails: the context of the thread that was picked is there
when the core switches to it, and the core then executes the thread that the table shows
as running there. -/
theorem switch_reaches_next (h : Runs P tr s) (hcalm : ∀ e ∈ tr, Calm P e.pre e.act) :
    (∀ e ∈ tr, ∀ c curr next via, e.act = .run c → c < P.coresNum →
      (e.pre.cpus c).frame = .switch curr next via → curr ≠ next →
      (e.pre.threads next).ctx ≠ none ∧ e.out.ret = .switched curr next ∧
      (e.post.threads next).state = .running ∧ (e.post.threads next).coreid = c ∧
      (e.post.cpus c).owner = (e.post.threads next).tid) ∧
    (∀ e ∈ tr, ∀ curr next, e.out.ret ≠ .switchFailed curr next) ∧
    ∀ c < P.coresNum, ¬ InSwitch s c →
      ∃ i, threadGetCurr P s c = some i ∧ (s.cpus c).owner = (s.threads i).tid := by
  refine ⟨fun e he c curr next via => switched_of_mem h hcalm he, fun e he curr next => ?_, ?_⟩
  · exact not_switchFailed_of_mem h hcalm he
  · intro c hc hw
    have hs := settled_of_runs h hcalm
    obtain ⟨i, hcurr, hi⟩ := hs.held.base.table.exists_curr hc
    exact ⟨i, hcurr, (hs.sane.here hc hi hw).1.owner⟩

end Runs

/-- Core 1 switches to the first thread that was created. -/
theorem switch_reaches_next_first : ∃ tr s, Runs smallPlatform tr s ∧
    (∃ e ∈ tr, e.out.ret = .switched 1 3) ∧ ∃ i, threadGetCurr smallPlatform s 1 = some i ∧
      (s.cpus 1).owner = (s.threads i).tid := by
  obtain ⟨tr, s, hr, -, hcalm, hw, hsw⟩ := exists_runs (P := smallPlatform)
    [.create 0 1 0 (some 0) (some 1), .run 1, .run 1, .run 1, .run 1]
    (fun r => (∀ e ∈ r.1, Calm smallPlatform e.pre e.act) ∧ ¬ InSwitch r.2 1 ∧
      ∃ e ∈ r.1, e.out.ret = .switched 1 3) (by decide +kernel)
  exact ⟨tr, s, hr, hsw, (switch_reaches_next hr hcalm).2.2 1 (by decide) hw⟩

/-- Thread 3 yields on core 1 to thread 4. Before core 1 saves the context of thread 3, core 2
takes thread 3 from the queue and tries to switch to it. -/
theorem not_switch_reaches_next :
    ¬ ∀ (P : Platform) (tr : List (Event State Act Out)) (s : State), Runs P tr s →
      ∀ e ∈ tr, ∀ curr next, e.out.ret ≠ .switchFailed curr next := by
  intro h
  obtain ⟨tr, s, hr, -, e, he, hret⟩ := exists_runs (P := smallPlatform)
    [.create 0 1 0 (some 0) (some 1), .run 1, .run 1, .run 1, .run 1, .run 1,
      .create 0 1 0 (some 2) (some 3), .run 2, .run 2, .yield 1, .run 2, .run 2]
    (fun r => ∃ e ∈ r.1, e.out.ret = .switchFailed 2 3) (by decide +kernel)
  exact h smallPlatform tr s hr e he 2 3 hret

/-! ### The lifetime of stacks -/

/-- Core `c` executes on a page of the stacks of thread `i`. -/
def OnStack (P : Platform) (s : State) (c i : ℕ) : Prop :=
  ∃ u k, (s.cpus c).stack = some (u, k) ∧
    (s.ustacks (P.utid i) = some u ∨ s.kstacks (P.utid i) = some k)

/-- A core is on the stacks of its current thread, or of the one that it switches away from. -/
theorem Settled.exists_belongs (h : Settled P s) (hc : c < P.coresNum) :
    ∃ j, Belongs P s (s.cpus c) j ∧ (Active (s.threads j) ∨ SwitchesFrom s c j) := by
  by_cases hw : InSwitch s c
  · obtain ⟨curr, next, via, hf, hne⟩ := hw
    exact ⟨curr, (h.sane.switch hc hf hne).2.2.1, .inr ⟨next, via, hf, hne⟩⟩
  · obtain ⟨j, -, hj⟩ := h.held.base.table.exists_curr hc
    exact ⟨j, (h.sane.here hc hj hw).1, .inl hj.active⟩

/-- Where no core switches away from a zombie, none is on its stacks. -/
theorem Settled.not_onStack (h : Settled P s) (hc : c < P.coresNum) (hw : ¬ SwitchesFrom s c i)
    (hz : (s.threads i).state = .zombie) : ¬ OnStack P s c i := by
  rintro ⟨u, k, hstack, hpage⟩
  obtain ⟨j, hbelongs, hj⟩ := h.exists_belongs hc
  rw [hbelongs.stack, stackOf] at hstack
  split_ifs at hstack with hu
  have hpages := h.held.owned.pages
  have hi := (h.held.owned.busy i (.inr (.inr hz))).1
  -- The pages of two slots are different, and the thread is no zombie.
  have hji : P.utid j = P.utid i := by
    split at hstack
    · rename_i u' k' hu' hk'
      cases hstack
      rcases hpage with hp | hp
      · exact hpages.slot (.inl hu') (.inl hp)
      · exact hpages.slot (.inr hk') (.inr hp)
    · cases hstack
  rw [Platform.utid_inj hu hi hji] at hj
  rcases hj with ha | hfrom
  · simp [Active, hz] at ha
  · exact hw hfrom

section Runs

variable {tr : List (Event State Act Out)} {e : Event State Act Out}

theorem takesLock_of_freed (hstep : steps P s a o s') (hf : o.freed = some i) :
    TakesLock s a = true ∧ ¬ InSwitch s a.core := by
  cases moves_of_step hstep with
  | cleaned hc hfr | started hc hfr => exact ⟨by simp [TakesLock, hfr], not_inSwitch (by simp [Act.core, hfr])⟩
  | creates hc hfr => exact ⟨rfl, not_inSwitch (by simp [Act.core, hfr])⟩
  | _ => cases hf

/-- In a calm run the stacks of a thread are released when no core executes on them any
more. They are released once for every time they were allocated, and never when they are
not there. -/
theorem stacks_released_once (h : Runs P tr s) (hcalm : ∀ e ∈ tr, Calm P e.pre e.act) :
    (∀ e ∈ tr, ∀ i, e.out.freed = some i →
      Furnished e.pre (P.utid i) ∧ ∀ c < P.coresNum, ¬ OnStack P e.pre c i) ∧
    ∀ i, P.IsUser i → allocs i tr = frees i tr + if Furnished s (P.utid i) then 1 else 0 := by
  refine ⟨fun e he i hf => ?_, fun i hu => allocs_eq_frees h hu⟩
  have hpre := (settled_of_mem h hcalm he).1
  have hstep := h.step_of_mem he
  have hz := (freed_step hstep hf).1
  obtain ⟨hlock, hw⟩ := takesLock_of_freed hstep hf
  refine ⟨(hpre.held.owned.busy i (.inr (.inr hz))).2, fun c hc => ?_⟩
  exact hpre.not_onStack hc (fun hfrom => ((hcalm e he).all hlock hw hc hfrom).2 hz) hz

end Runs

/-- A thread is created, runs on core 1, exits, and is released by the idle thread. -/
theorem stacks_released_once_exit : ∃ tr s, Runs smallPlatform tr s ∧
    (∃ e ∈ tr, e.out.freed = some 3 ∧ Furnished e.pre (smallPlatform.utid 3) ∧
      ¬ OnStack smallPlatform e.pre 1 3) ∧ allocs 3 tr = frees 3 tr := by
  obtain ⟨tr, s, hr, -, hcalm, ⟨e, he, hf⟩, hempty⟩ := exists_runs (P := smallPlatform)
    [.create 0 1 0 (some 0) (some 1), .run 1, .run 1, .run 1, .run 1, .run 1, .exit 1 7, .run 1, .run 1,
      .run 1]
    (fun r => (∀ e ∈ r.1, Calm smallPlatform e.pre e.act) ∧ (∃ e ∈ r.1, e.out.freed = some 3) ∧
      ¬ Furnished r.2 (smallPlatform.utid 3)) (by decide +kernel)
  obtain ⟨hrel, hcount⟩ := stacks_released_once hr hcalm
  obtain ⟨hfur, hoff⟩ := hrel e he 3 hf
  have heq := hcount 3 (by decide)
  rw [if_neg hempty] at heq
  exact ⟨tr, s, hr, ⟨e, he, hf, hfur, hoff 1 (by decide)⟩, heq⟩

/-- Thread 3 exits on core 1. Before core 1 has left its stacks, the master creates another
thread, and the slot of the zombie is recycled. -/
theorem not_stacks_released_once :
    ¬ ∀ (P : Platform) (tr : List (Event State Act Out)) (s : State), Runs P tr s →
      ∀ e ∈ tr, ∀ i, e.out.freed = some i → ∀ c < P.coresNum, ¬ OnStack P e.pre c i := by
  intro h
  obtain ⟨tr, s, hr, -, e, he, hf, hstack, hu⟩ := exists_runs (P := smallPlatform)
    [.create 0 1 0 (some 0) (some 1), .run 1, .run 1, .run 1, .run 1, .run 1, .exit 1 7, .run 1,
      .create 0 1 0 (some 2) (some 3)]
    (fun r => ∃ e ∈ r.1, e.out.freed = some 3 ∧ (e.pre.cpus 1).stack = some (1, 0) ∧
      e.pre.ustacks (smallPlatform.utid 3) = some 1) (by decide +kernel)
  exact h smallPlatform tr s hr e he 3 hf 1 (by decide) ⟨1, 0, hstack, .inl hu⟩

end Nanvix.Pm
