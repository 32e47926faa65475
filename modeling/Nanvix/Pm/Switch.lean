import Nanvix.Pm.Stacks

/-! What the cores execute. `thread_yield` drops the lock before it switches contexts. In
between the table already shows the next thread, while the core is still on the stack
of the old one, whose context is not saved. If no other core takes up or releases that old
thread then, every core executes the thread that the table shows for it. -/

namespace Nanvix.Pm

open Nanvix.Lib Function

variable {P : Platform} {s s' : State} {a : Act} {o : Out} {c d i j curr next : ℕ} {via : Caller}
  {q : List ℕ} {f : Frame} {x : Context}

def stackOf (P : Platform) (s : State) (i : ℕ) : Option (ℕ × ℕ) :=
  if P.IsUser i then
    match s.ustacks (P.utid i), s.kstacks (P.utid i) with
    | some u, some k => some (u, k)
    | _, _ => none
  else none

/-- The context is one of thread `i`, on its stacks. -/
structure Belongs (P : Platform) (s : State) (x : Context) (i : ℕ) : Prop where
  owner : x.owner = (s.threads i).tid
  stack : x.stack = stackOf P s i

def Saved (P : Platform) (s : State) (i : ℕ) : Prop :=
  ∃ x, (s.threads i).ctx = some x ∧ Belongs P s x i ∧
    (x.frame = .starting ∨ ∃ via, x.frame = .clean i via)

/-- The core is between the section of `thread_yield` and the context switch. -/
def InSwitch (s : State) (c : ℕ) : Prop :=
  ∃ curr next via, (s.cpus c).frame = .switch curr next via ∧ curr ≠ next

instance (s : State) (c : ℕ) : Decidable (InSwitch s c) :=
  match h : (s.cpus c).frame with
  | .switch curr next via =>
    if hne : curr = next then isFalse fun ⟨_, _, _, hf, hn⟩ => by
      obtain ⟨rfl, rfl, -⟩ := Frame.switch.inj (h.symm.trans hf)
      exact hn hne
    else isTrue ⟨curr, next, via, h, hne⟩
  | .user | .fence | .downFirst | .unfence | .down | .granted | .exiting | .clean _ _ | .starting
  | .asleep _ _ | .halted => isFalse fun ⟨_, _, _, hf, _⟩ => by cases h.symm.trans hf

/-- The core is there on its way from thread `i` to another one. -/
def SwitchesFrom (s : State) (c i : ℕ) : Prop :=
  ∃ next via, (s.cpus c).frame = .switch i next via ∧ i ≠ next

/-- What a core switches away from is stopped or a zombie. An idle thread leaves its own core only. -/
def Parked (P : Platform) (s : State) (c i : ℕ) : Prop :=
  ((s.threads i).state = .stopped ∨ (s.threads i).state = .zombie) ∧ (i < P.coresNum → i = c)

/-- The thread is ready, or it is an idle thread that was stopped. -/
def Waits (P : Platform) (s : State) (i : ℕ) : Prop :=
  (∃ q, Ready P s q ∧ i ∈ q) ∨ (i < P.coresNum ∧ (s.threads i).state = .stopped)

def Frame.At (i : ℕ) : Frame → Prop
  | .switch j _ _ | .clean j _ => j = i
  | _ => True

/-- Every core executes its current thread, or is about to, and who waits is saved, or is
about to be. -/
structure Sane (P : Platform) (s : State) : Prop where
  here : ∀ {c i}, c < P.coresNum → OnCore P s c i → ¬ InSwitch s c →
    Belongs P s (s.cpus c) i ∧ (s.threads i).ctx = none ∧ (s.cpus c).frame.At i
  switch : ∀ {c curr next via}, c < P.coresNum → (s.cpus c).frame = .switch curr next via →
    curr ≠ next → OnCore P s c next ∧ Parked P s c curr ∧ Belongs P s (s.cpus c) curr ∧
      (s.threads curr).ctx = none ∧ Saved P s next
  single : ∀ {c d i}, c < P.coresNum → d < P.coresNum → SwitchesFrom s c i → SwitchesFrom s d i → c = d
  waits : ∀ {i}, Waits P s i → Saved P s i ∨ ∃ c < P.coresNum, SwitchesFrom s c i

theorem Parked.not_active (h : Parked P s c i) : ¬ Active (s.threads i) := by
  rcases h.1 with hs | hs <;> simp [Active, hs]

/-- Who waits has a slot that is neither free nor current. -/
theorem Waits.not_free (h : Waits P s i) :
    ¬ ((s.threads i).state = .notStarted ∨ (s.threads i).state = .zombie) ∧ ¬ Active (s.threads i) := by
  rcases h with ⟨q, hq, hi⟩ | ⟨-, hs⟩
  · rcases hq.state i hi with hs | hs <;> simp [Active, hs]
  · simp [Active, hs]

theorem OnCore.not_free (h : OnCore P s c i) :
    ¬ ((s.threads i).state = .notStarted ∨ (s.threads i).state = .zombie) := by
  rcases h.active with hs | hs <;> simp [hs]

theorem SwitchesFrom.inSwitch (h : SwitchesFrom s c i) : InSwitch s c := by
  obtain ⟨next, via, hf, hne⟩ := h
  exact ⟨i, next, via, hf, hne⟩

theorem SwitchesFrom.congr (h : SwitchesFrom s c i) (hcpus : s'.cpus c = s.cpus c) : SwitchesFrom s' c i := by
  unfold SwitchesFrom
  rwa [hcpus]

theorem Sane.parked (h : Sane P s) (hc : c < P.coresNum) (hi : SwitchesFrom s c i) : Parked P s c i := by
  obtain ⟨next, via, hf, hne⟩ := hi
  exact (h.switch hc hf hne).2.1

/-- What a thread is known by is left as it is. -/
structure Keeps (P : Platform) (s s' : State) (i : ℕ) : Prop where
  tid : (s'.threads i).tid = (s.threads i).tid
  ctx : (s'.threads i).ctx = (s.threads i).ctx
  stack : stackOf P s' i = stackOf P s i

theorem Keeps.belongs (h : Keeps P s s' i) (hx : Belongs P s x i) : Belongs P s' x i :=
  ⟨hx.owner.trans h.tid.symm, hx.stack.trans h.stack.symm⟩

theorem Keeps.saved (h : Keeps P s s' i) (hs : Saved P s i) : Saved P s' i := by
  obtain ⟨x, hx, hb, hf⟩ := hs
  exact ⟨x, h.ctx.trans hx, h.belongs hb, hf⟩

/-- The threads that matter: those that are current, that wait, or that a core is leaving. -/
def Matters (P : Platform) (s : State) (i : ℕ) : Prop :=
  (∃ c, OnCore P s c i) ∨ Waits P s i ∨ ∃ c < P.coresNum, SwitchesFrom s c i

theorem cpus_update_of_ne (hcpus : s'.cpus = update s.cpus c x) (hd : d ≠ c) : s'.cpus d = s.cpus d := by
  rw [hcpus, update_of_ne hd]

theorem inSwitch_update (hcpus : s'.cpus = update s.cpus c x)
    (hx : ∀ j k v, x.frame = .switch j k v → j = k) : InSwitch s' d ↔ d ≠ c ∧ InSwitch s d := by
  unfold InSwitch
  rw [hcpus]
  by_cases hd : d = c
  · subst hd
    simp only [update_self, ne_eq, not_true_eq_false, false_and, iff_false]
    rintro ⟨j, k, v, hf, hne⟩
    exact hne (hx j k v hf)
  · simp [hd]

/-- A core that is in no switch afterwards leaves no thread that another one leaves, too. -/
theorem Sane.single_update (h : Sane P s) (hcpus : s'.cpus = update s.cpus c x)
    (hx : ∀ j k v, x.frame = .switch j k v → j = k) {d e : ℕ} (hd : d < P.coresNum) (he : e < P.coresNum)
    (hsd : SwitchesFrom s' d i) (hse : SwitchesFrom s' e i) : d = e := by
  have hback : ∀ {d}, SwitchesFrom s' d i → SwitchesFrom s d i := by
    intro d hfrom
    have hdc := ((inSwitch_update hcpus hx).mp hfrom.inSwitch).1
    exact hfrom.congr (cpus_update_of_ne hcpus hdc).symm
  exact h.single hd he (hback hsd) (hback hse)

/-- Who waits and is not left by core `c` is saved, or another core goes on leaving it. -/
theorem Sane.waits_update (h : Sane P s) (hcpus : s'.cpus = update s.cpus c x) (hi : Waits P s i)
    (hc : ¬ SwitchesFrom s c i) : Saved P s i ∨ ∃ d < P.coresNum, SwitchesFrom s' d i := by
  refine (h.waits hi).imp_right ?_
  rintro ⟨d, hd, hfrom⟩
  have hdc : d ≠ c := by
    rintro rfl
    exact hc hfrom
  exact ⟨d, hd, hfrom.congr (cpus_update_of_ne hcpus hdc)⟩

/-- A step that neither begins nor ends a switch. -/
theorem Sane.keep (h : Sane P s) (hc : c < P.coresNum) (hw : ¬ InSwitch s c)
    (hcpus : s'.cpus = update s.cpus c { s.cpus c with frame := f })
    (hf : ∀ j k v, f = .switch j k v → j = k) (hat : ∀ i, OnCore P s c i → f.At i)
    (hon : ∀ d i, OnCore P s' d i ↔ OnCore P s d i)
    (hleft : ∀ d i, d < P.coresNum → SwitchesFrom s d i → (s'.threads i).state = (s.threads i).state)
    (hkeep : ∀ i, Matters P s i → Keeps P s s' i)
    (hwaits : ∀ i, Waits P s' i → Waits P s i ∨ Saved P s' i) : Sane P s' := by
  have hsw : ∀ d, InSwitch s' d ↔ d ≠ c ∧ InSwitch s d := fun d => inSwitch_update hcpus hf
  have hframe : ∀ {d}, d ≠ c → s'.cpus d = s.cpus d := cpus_update_of_ne hcpus
  refine ⟨?_, ?_, ?_, ?_⟩
  · intro d i hd hi hns
    have hi := (hon d i).mp hi
    have hk := hkeep i (.inl ⟨d, hi⟩)
    by_cases hdc : d = c
    · subst hdc
      obtain ⟨hb, hx, -⟩ := h.here hd hi hw
      rw [hcpus, update_self]
      exact ⟨⟨hb.owner.trans hk.tid.symm, hb.stack.trans hk.stack.symm⟩, hk.ctx.trans hx, hat i hi⟩
    · obtain ⟨hb, hx, hfr⟩ := h.here hd hi fun hs => hns ((hsw d).mpr ⟨hdc, hs⟩)
      rw [hframe hdc]
      exact ⟨hk.belongs hb, hk.ctx.trans hx, hfr⟩
  · intro d curr next via hd hfr hne
    have hdc : d ≠ c := ((hsw d).mp ⟨curr, next, via, hfr, hne⟩).1
    rw [hframe hdc] at hfr ⊢
    obtain ⟨hnext, hpark, hb, hx, hsv⟩ := h.switch hd hfr hne
    have hkn := hkeep next (.inl ⟨d, hnext⟩)
    have hkc := hkeep curr (.inr (.inr ⟨d, hd, next, via, hfr, hne⟩))
    refine ⟨(hon d next).mpr hnext, ?_, hkc.belongs hb, hkc.ctx.trans hx, hkn.saved hsv⟩
    rwa [Parked, hleft d curr hd ⟨next, via, hfr, hne⟩]
  · exact h.single_update hcpus hf
  · intro i hi
    rcases hwaits i hi with hi | hi
    · exact (h.waits_update hcpus hi fun hfrom => hw hfrom.inSwitch).imp_left (hkeep i (.inr (.inl hi))).saved
    · exact .inl hi

/-- A core moves on in the code of its thread. -/
theorem Sane.keepFrame (h : Sane P s) (hc : c < P.coresNum) (hw : ¬ InSwitch s c)
    (hf : ∀ j k v, f = .switch j k v → j = k) (hat : ∀ i, OnCore P s c i → f.At i) :
    Sane P (s.setFrame c f) :=
  h.keep hc hw rfl hf hat (fun _ _ => ⟨fun ⟨hl, ha, hco⟩ => ⟨hl, ha, hco⟩, fun ⟨hl, ha, hco⟩ => ⟨hl, ha, hco⟩⟩)
    (fun _ _ _ _ => rfl) (fun _ _ => ⟨rfl, rfl, rfl⟩) fun _ hi => .inl (hi.imp_left fun ⟨q, hq, hm⟩ =>
      ⟨q, hq.congr rfl rfl rfl fun _ _ => .of_eq rfl, hm⟩)

/-- Who waits after a step waited before, or was stopped or created in it. -/
theorem waits_step (ht : Table P s) (hstep : steps P s a o s') (h : Waits P s' i) :
    Waits P s i ∨ (∃ next, o.ret = .picked i next) ∨ ∃ t, o.ret = .created t i := by
  obtain ⟨q, hq⟩ := ht.ready
  obtain ⟨r, hr, hmem⟩ := ready_step hq hstep
  rcases h with ⟨r', hr', hi⟩ | ⟨hsys, hs⟩
  · rw [hr'.unique hr] at hi
    rcases hmem i hi with h | ⟨c, hon⟩ | h
    · exact .inl (.inl ⟨q, hq, h⟩)
    · -- A current thread gets into the queue by yielding only.
      have hna := hr.not_active hi
      have hon := hon.active
      unfold Active at hna hon
      cases turn_step ht hstep i with
      | same h =>
        rw [h] at hna
        exact absurd hon hna
      | stops hret => exact .inr (.inl ⟨_, hret⟩)
      | resumes _ _ _ _ h | exits _ _ _ h => simp [h] at hna
      | dies hret => exact .inr (.inl ⟨_, hret⟩)
      | released _ hs => simp [hs] at hon
      | allocated hs => rcases hs with hs | ⟨hs, -⟩ <;> simp [hs] at hon
    · exact .inr (.inr h)
  · cases turn_step ht hstep i with
    | same h => exact .inl (.inr ⟨hsys, h.symm.trans hs⟩)
    | stops hret => exact .inr (.inl ⟨_, hret⟩)
    | resumes _ _ _ _ h | exits _ _ _ h | dies _ _ _ h | released _ _ h | allocated _ h =>
      rw [h] at hs
      cases hs

theorem stackOf_step (h : Held P s) (hstep : steps P s a o s') (hf : o.freed ≠ some i)
    (hret : ∀ t, o.ret ≠ .created t i) : stackOf P s' i = stackOf P s i := by
  unfold stackOf
  split_ifs with hu
  · have hz : ∀ j, o.freed = some j → P.IsUser j := fun j hj =>
      (h.owned.busy j (.inr (.inr (freed_step hstep hj).1))).1
    obtain ⟨hus, hks⟩ := stacks_of_ne hstep hu hz hf hret h.base.table.cores
    rw [hus, hks]
  · rfl

/-- A new thread is saved at its beginning, in a slot that was free. -/
theorem created_saved {t : ℤ} (ht : Table P s) (hstep : steps P s a o s') (hret : o.ret = .created t i) :
    Saved P s' i ∧ ((s.threads i).state = .notStarted ∨ (s.threads i).state = .zombie) := by
  cases moves_of_step hstep with
  | creates hc hf hcr =>
    cases hcr with
    | full | noPages => cases hret
    | @created k freed s₁ kstack ustack s₂ hlt ha hk hu hne hsch =>
      obtain ⟨-, rfl⟩ := Ret.created.inj hret
      have huser : P.IsUser k := ⟨ht.cores.le_of_free ha.free, hlt.2⟩
      refine ⟨⟨⟨.starting, some (ustack, kstack), s₁.nextTid⟩, ?_, ⟨?_, ?_⟩, .inl rfl⟩, ha.free⟩
      · rw [threadSchedule_proj Thread.ctx hsch (fun _ _ => rfl) fun _ _ => rfl]
        simp [initThread]
      · rw [threadSchedule_proj Thread.tid hsch (fun _ _ => rfl) fun _ _ => rfl]
        simp [initThread]
      · rw [stackOf, if_pos huser, threadSchedule_rest hsch]
        simp [initThread]
  | @cleaned c curr via freed s₁ hc hf hx hr => cases via <;> cases hret
  | _ => cases hret

/-- A step that neither yields nor switches. If it releases or creates a thread, no core switches away
from a zombie. -/
theorem Sane.quiet (h : Sane P s) (hh : Held P s) (hstep : steps P s a o s')
    (hpick : ∀ j k, o.ret ≠ .picked j k) (hsw : ∀ j k, o.ret ≠ .switched j k)
    (hcalm : (o.freed ≠ none ∨ ∃ t i, o.ret = .created t i) → ∀ d < P.coresNum, ∀ i, SwitchesFrom s d i →
      (s.threads i).state ≠ .zombie)
    (hc : c < P.coresNum) (hw : ¬ InSwitch s c)
    (hcpus : s'.cpus = update s.cpus c { s.cpus c with frame := f })
    (hf : ∀ j k v, f = .switch j k v → j = k) (hat : ∀ i, OnCore P s c i → f.At i) : Sane P s' := by
  have ht := hh.base.table
  -- Nobody who matters is released or created.
  have hfree : ∀ i, (s.threads i).state = .notStarted ∨ (s.threads i).state = .zombie →
      (o.freed ≠ none ∨ ∃ t i, o.ret = .created t i) → ¬ Matters P s i := by
    rintro i hi hx (⟨d, hon⟩ | hwait | ⟨d, hd, hfrom⟩)
    · exact hon.not_free hi
    · exact hwait.not_free.1 hi
    · rcases hi with hi | hi
      · rcases (h.parked hd hfrom).1 with hs | hs <;> rw [hi] at hs <;> cases hs
      · exact hcalm hx d hd i hfrom hi
  have hmatters : ∀ i, Matters P s i → o.freed ≠ some i ∧ ∀ t, o.ret ≠ .created t i := by
    intro i hm
    constructor
    · intro hfr
      exact hfree i (.inr (freed_step hstep hfr).1) (.inl (by simp [hfr])) hm
    · intro t hret
      exact hfree i (created_saved ht hstep hret).2 (.inr ⟨t, i, hret⟩) hm
  refine h.keep hc hw hcpus hf hat (fun d i => onCore_step ht hstep hpick) ?_ ?_ ?_
  · intro d i hd hfrom
    have hpark := h.parked hd hfrom
    have hfr := (hmatters i (.inr (.inr ⟨d, hd, hfrom⟩))).1
    cases turn_step ht hstep i with
    | same h => exact h
    | resumes _ hr | stops hr | dies hr => exact absurd hr (hpick _ _)
    | exits _ hon => exact absurd hon.active hpark.not_active
    | released hx => exact absurd hx hfr
    | allocated hs =>
      rcases hs with hs | ⟨-, hx⟩
      · rcases hpark.1 with hp | hp <;> rw [hs] at hp <;> cases hp
      · exact absurd hx hfr
  · intro i hi
    obtain ⟨hfr, hcr⟩ := hmatters i hi
    refine ⟨?_, ctx_step hstep hsw hcr, stackOf_step hh hstep hfr hcr⟩
    rcases tid_step hstep i with ⟨hx, -⟩ | ⟨hx, -⟩ | ⟨-, -, hx⟩
    · exact absurd hx (hcr _)
    · exact absurd hx hfr
    · exact hx
  · intro i hi
    rcases waits_step ht hstep hi with hi | ⟨next, hx⟩ | ⟨t, hx⟩
    · exact .inl hi
    · exact absurd hx (hpick _ _)
    · exact .inr (created_saved ht hstep hx).1

/-- A yield leaves the contexts, the stacks and the names as they are. -/
theorem Yields.keeps {s₁ : State} (h : Yields P s c curr next s₁) (f : Frame) (i : ℕ) :
    Keeps P s (s₁.setFrame c f) i := by
  refine ⟨h.tid i, h.ctx i, ?_⟩
  unfold stackOf
  rw [h.rest]
  rfl

/-- The thread that is picked was waiting. -/
theorem Yields.waits_next {s₁ : State} (h : Yields P s c curr next s₁) (ht : Table P s) (hc : c < P.coresNum)
    (hon : OnCore P s c curr) (hne : curr ≠ next) : Waits P s next := by
  rcases (h.next_cases hon).resolve_left (Ne.symm hne) with rfl | hh
  · obtain ⟨hco, hst⟩ := ht.cores.system next hc
    refine .inr ⟨hc, hst.resolve_left fun hr => hne ?_⟩
    exact ht.cores.unique hon ⟨Nat.lt_of_lt_of_le hc (Nat.le_add_right _ _), .inl hr, hco⟩
  · obtain ⟨q, hq⟩ := ht.ready
    obtain ⟨r, rfl⟩ := hq.eq_cons hh
    exact .inl ⟨_, hq, List.mem_cons_self ..⟩

/-- A core begins to switch. The thread that it picks is none that another core switches away from. -/
theorem Sane.begin {s₁ : State} (h : Sane P s) (ht : Table P s) (hc : c < P.coresNum) (hcore : a.core = c)
    (hw : ¬ InSwitch s c) (hcalm : ∀ d < P.coresNum, ∀ i, SwitchesFrom s d i → s.queue.head ≠ some i)
    (hon : OnCore P s c curr) (hy : Yields P s c curr next s₁) (hne : curr ≠ next)
    (hstep : steps P s a o (s₁.setFrame c (.switch curr next via))) (hret : o.ret = .picked curr next) :
    Sane P (s₁.setFrame c (.switch curr next via)) := by
  have hnext : ∀ d < P.coresNum, ¬ SwitchesFrom s d next := by
    intro d hd hfrom
    rcases (hy.next_cases hon).resolve_left (Ne.symm hne) with rfl | hh
    · obtain rfl := (h.parked hd hfrom).2 hc
      exact hw hfrom.inSwitch
    · exact hcalm d hd next hfrom hh
  have hkeep : ∀ i, Keeps P s (s₁.setFrame c (.switch curr next via)) i := hy.keeps _
  have hcpus : (s₁.setFrame c (.switch curr next via)).cpus =
      update s.cpus c { s.cpus c with frame := .switch curr next via } := by
    rw [State.setFrame_cpus, hy.rest]
  generalize hs' : s₁.setFrame c (.switch curr next via) = s' at hkeep hcpus hstep ⊢
  have hthreads : s'.threads = s₁.threads := by rw [← hs']; rfl
  have hown : (s'.cpus c).frame = .switch curr next via := by rw [hcpus, update_self]
  have hframe : ∀ {d}, d ≠ c → s'.cpus d = s.cpus d := cpus_update_of_ne hcpus
  have hothers : ∀ {d i}, d < P.coresNum → d ≠ c → (OnCore P s' d i ↔ OnCore P s d i) :=
    fun hd hdc => onCore_of_ne ht hstep hd (hcore.symm ▸ hdc)
  have hcurr : ∀ {d}, d < P.coresNum → ¬ SwitchesFrom s d curr :=
    fun hd hfrom => (h.parked hd hfrom).not_active hon.active
  obtain ⟨hb, hx, -⟩ := h.here hc hon hw
  refine ⟨?_, ?_, ?_, ?_⟩
  · intro d i hd hi hns
    have hdc : d ≠ c := by
      rintro rfl
      exact hns ⟨curr, next, via, hown, hne⟩
    have hns' : ¬ InSwitch s d := by
      unfold InSwitch at hns ⊢
      rwa [hframe hdc] at hns
    obtain ⟨hb, hx, hat⟩ := h.here hd ((hothers hd hdc).mp hi) hns'
    rw [hframe hdc]
    exact ⟨(hkeep i).belongs hb, (hkeep i).ctx.trans hx, hat⟩
  · intro d curr' next' via' hd hfr hne'
    by_cases hdc : d = c
    · subst hdc
      obtain ⟨rfl, rfl, rfl⟩ := Frame.switch.inj (hown.symm.trans hfr)
      obtain ⟨hlt, ha, hco⟩ := hy.onCore_next ht hc hon
      refine ⟨⟨hlt, by rwa [hthreads], by rwa [hthreads]⟩, ⟨?_, fun hsys => ?_⟩, ?_,
        (hkeep _).ctx.trans hx, (hkeep _).saved ?_⟩
      · rw [hthreads, hy.curr_state hne]
        split_ifs <;> simp
      · exact Int.ofNat.inj ((ht.cores.system _ hsys).1.symm.trans hon.coreid)
      · rw [hcpus, update_self]
        exact ⟨hb.owner.trans (hkeep _).tid.symm, hb.stack.trans (hkeep _).stack.symm⟩
      · -- Nobody was leaving the thread when it was picked.
        rcases h.waits (hy.waits_next ht hc hon hne) with hsv | ⟨e, he, hfrom⟩
        · exact hsv
        · exact absurd hfrom (hnext e he)
    · rw [hframe hdc] at hfr ⊢
      have hfrom : SwitchesFrom s d curr' := ⟨next', via', hfr, hne'⟩
      obtain ⟨hn, hpark, hb, hx, hsv⟩ := h.switch hd hfr hne'
      have hstate : (s'.threads curr').state = (s.threads curr').state := by
        rw [hthreads]
        refine hy.state_of_ne ?_ ?_
        · rintro rfl
          exact hcurr hd hfrom
        · rintro rfl
          exact hnext d hd hfrom
      exact ⟨(hothers hd hdc).mpr hn, by rwa [Parked, hstate], (hkeep _).belongs hb, (hkeep _).ctx.trans hx,
        (hkeep _).saved hsv⟩
  · intro d e i hd he hsd hse
    have hback : ∀ {d}, d ≠ c → SwitchesFrom s' d i → SwitchesFrom s d i :=
      fun hdc hfrom => hfrom.congr (hframe hdc).symm
    have hnew : ∀ {d}, d < P.coresNum → SwitchesFrom s' c i → SwitchesFrom s' d i → d = c := by
      intro d hd hfrom hfrom'
      by_contra hdc
      obtain ⟨n, v, hfr, -⟩ := hfrom
      obtain ⟨rfl, -⟩ := Frame.switch.inj (hown.symm.trans hfr)
      exact hcurr hd (hback hdc hfrom')
    by_cases hdc : d = c
    · subst hdc
      exact (hnew he hsd hse).symm
    · by_cases hec : e = c
      · subst hec
        exact hnew hd hse hsd
      · exact h.single hd he (hback hdc hsd) (hback hec hse)
  · intro i hi
    by_cases hic : i = curr
    · subst hic
      exact .inr ⟨c, hc, next, via, hown, hne⟩
    · rcases waits_step ht hstep hi with hi | ⟨n, hx⟩ | ⟨t, hx⟩
      · exact (h.waits_update hcpus hi fun hfrom => hw hfrom.inSwitch).imp_left (hkeep i).saved
      · rw [hret] at hx
        exact absurd (Ret.picked.inj hx).1.symm hic
      · rw [hret] at hx
        cases hx

/-- A switch leaves those who wait as they are. -/
theorem waits_of_contextSwitch (h : Waits P (contextSwitch s c curr next via x) i) : Waits P s i := by
  have happ := contextSwitch_apply s c curr next via x
  rcases h with ⟨q, hq, hm⟩ | ⟨hsys, hst⟩
  · refine .inl ⟨q, hq.congr rfl rfl rfl fun j _ => ?_, hm⟩
    constructor <;> rw [happ]
  · rw [happ] at hst
    exact .inr ⟨hsys, hst⟩

theorem Sane.finish (h : Sane P s) (ht : Table P s) (hc : c < P.coresNum)
    (hf : (s.cpus c).frame = .switch curr next via) (hne : curr ≠ next)
    (hn : (s.threads next).ctx = some x) : Sane P (contextSwitch s c curr next via x) := by
  have hleaves : SwitchesFrom s c curr := ⟨next, via, hf, hne⟩
  obtain ⟨hnext, hpark, hb, -, y, hy, hby, hfy⟩ := h.switch hc hf hne
  obtain rfl : y = x := Option.some.inj (hy.symm.trans hn)
  generalize hs' : contextSwitch s c curr next via y = s'
  have happ : ∀ j, s'.threads j = { s.threads j with
      ctx := if j = next then none
        else if j = curr then some { s.cpus c with frame := .clean curr via }
        else (s.threads j).ctx } := by
    rw [← hs']
    exact contextSwitch_apply s c curr next via y
  have hstack : ∀ j, stackOf P s' j = stackOf P s j := by
    intro j
    rw [← hs']
    rfl
  have hbel : ∀ {z j}, Belongs P s z j → Belongs P s' z j := by
    intro z j hz
    refine ⟨?_, hz.stack.trans (hstack j).symm⟩
    rw [happ]
    exact hz.owner
  have hon : ∀ {d j}, OnCore P s' d j ↔ OnCore P s d j := by
    intro d j
    apply onCore_congr <;> simp [happ, Active]
  have hcpus : s'.cpus = update s.cpus c y := by rw [← hs']; rfl
  have hframe : ∀ {d}, d ≠ c → s'.cpus d = s.cpus d := cpus_update_of_ne hcpus
  have hnew : ∀ j k v, y.frame = .switch j k v → j = k := by
    intro j k v hfr
    rcases hfy with hs | ⟨w, hs⟩ <;> rw [hs] at hfr <;> cases hfr
  have hsw : ∀ {d}, InSwitch s' d ↔ d ≠ c ∧ InSwitch s d := inSwitch_update hcpus hnew
  have hctx : ∀ {j}, j ≠ next → j ≠ curr → (s'.threads j).ctx = (s.threads j).ctx := by
    intro j hjn hjc
    rw [happ]
    simp [hjn, hjc]
  -- Who is current elsewhere is neither of the two threads.
  have hother : ∀ {d j}, d ≠ c → OnCore P s d j → j ≠ next ∧ j ≠ curr := by
    intro d j hdc hj
    constructor
    · rintro rfl
      exact hdc (Int.ofNat.inj (hj.coreid.symm.trans hnext.coreid))
    · rintro rfl
      exact hpark.not_active hj.active
  refine ⟨?_, ?_, ?_, ?_⟩
  · intro d i hd hi hns
    have hi := hon.mp hi
    by_cases hdc : d = c
    · subst hdc
      obtain rfl := ht.cores.unique hi hnext
      rw [hcpus, update_self, happ]
      refine ⟨hbel hby, if_pos rfl, ?_⟩
      rcases hfy with hs | ⟨w, hs⟩ <;> rw [hs]
      · trivial
      · rfl
    · obtain ⟨hin, hic⟩ := hother hdc hi
      obtain ⟨hb, hx, hat⟩ := h.here hd hi fun hin => hns (hsw.mpr ⟨hdc, hin⟩)
      rw [hframe hdc]
      exact ⟨hbel hb, (hctx hin hic).trans hx, hat⟩
  · intro d curr' next' via' hd hfr hne'
    have hdc : d ≠ c := (hsw.mp ⟨curr', next', via', hfr, hne'⟩).1
    rw [hframe hdc] at hfr ⊢
    have hfrom : SwitchesFrom s d curr' := ⟨next', via', hfr, hne'⟩
    obtain ⟨hn', hpark', hb', hx', z, hz, hbz, hfz⟩ := h.switch hd hfr hne'
    have hcn : curr' ≠ next := by
      rintro rfl
      exact hpark'.not_active hnext.active
    have hcc : curr' ≠ curr := by
      rintro rfl
      exact hdc (h.single hd hc hfrom hleaves)
    obtain ⟨hnn, hnc⟩ := hother hdc hn'
    refine ⟨hon.mpr hn', ?_, hbel hb', (hctx hcn hcc).trans hx', z, (hctx hnn hnc).trans hz, hbel hbz, hfz⟩
    rw [Parked, happ]
    exact hpark'
  · exact h.single_update hcpus hnew
  · intro i hi
    have hwait : Waits P s i := by
      subst hs'
      exact waits_of_contextSwitch hi
    by_cases hic : i = curr
    · subst hic
      refine .inl ⟨{ s.cpus c with frame := .clean i via }, ?_, hbel ⟨hb.owner, hb.stack⟩, .inr ⟨via, rfl⟩⟩
      rw [happ]
      simp [hne]
    · have hin : i ≠ next := by
        rintro rfl
        exact hwait.not_free.2 hnext.active
      have hleft : ¬ SwitchesFrom s c i := by
        rintro ⟨n, v, hfr, -⟩
        exact hic (Frame.switch.inj (hfr.symm.trans hf)).1
      refine (h.waits_update hcpus hwait hleft).imp_left ?_
      rintro ⟨z, hz, hbz, hfz⟩
      exact ⟨z, (hctx hin hic).trans hz, hbel hbz, hfz⟩

end Nanvix.Pm
