import Nanvix.Lib.Count
import Nanvix.Pm.Order

/-! The semaphore of the run queue. An idle thread that has lowered it is granted the next
thread of the queue. The semaphore and the grants together cover the queue as long as the
counter does not wrap around. Threads that are not idle take from the queue and add to it
without lowering the semaphore, so nothing but its 32 bits bounds it from above, and
enough yields make it negative. -/

namespace Nanvix.Pm

open Nanvix.Lib Function

variable {P : Platform} {s s' : State} {a : Act} {o : Out} {c i j curr next : ℕ} {via : Caller}
  {q : List ℕ}

/-! ### The master -/

def Frame.IsMaster : Frame → Prop
  | .user | .halted | .asleep _ _ => True
  | _ => False

/-- Core 0 executes the master, and nobody else has its identifier. -/
structure Master (s : State) : Prop where
  state : (s.threads 0).state = .running
  tid : ∀ i, (s.threads i).tid = 0 ↔ i = 0
  nextTid_pos : 0 < s.nextTid
  frame : (s.cpus 0).frame.IsMaster

namespace Master

theorem congr (h : Master s) (hs : (s'.threads 0).state = (s.threads 0).state)
    (h0 : (s'.threads 0).tid = (s.threads 0).tid)
    (ht : ∀ j, (s'.threads j).tid = (s.threads j).tid ∨ (s'.threads j).tid = -1 ∨
      (s'.threads j).tid = s.nextTid) (hn : s.nextTid ≤ s'.nextTid)
    (hf : (s'.cpus 0).frame.IsMaster) : Master s' where
  state := hs.trans h.state
  tid i := by
    constructor
    · intro hi
      rcases ht i with hti | hti | hti
      · exact (h.tid i).mp (hti.symm.trans hi)
      · omega
      · have := h.nextTid_pos
        omega
    · rintro rfl
      exact h0.trans ((h.tid 0).mpr rfl)
  nextTid_pos := Int.lt_of_lt_of_le h.nextTid_pos hn
  frame := hf

theorem ne_zero (h : Master s) (hf : ¬ (s.cpus c).frame.IsMaster) : c ≠ 0 := by
  rintro rfl
  exact hf h.frame

theorem setFrame (h : Master s) {f : Frame} (hf : c = 0 → f.IsMaster) : Master (s.setFrame c f) := by
  refine h.congr rfl rfl (fun j => .inl rfl) (Int.le_refl _) ?_
  by_cases hc : 0 = c
  · subst hc
    simpa using hf rfl
  · simpa [hc] using h.frame

theorem condWait (h : Master s) {cv : CondVar} {w : Wait} : Master (condWait s c curr cv w) := by
  have htid := condWait_proj Thread.tid s c curr cv w fun _ _ => rfl
  refine h.congr ?_ (htid 0) (fun j => .inl (htid j)) (Int.le_refl _) ?_
  · exact condWait_proj Thread.state s c curr cv w (fun _ _ => rfl) 0
  · by_cases hc : 0 = c
    · subst hc
      simp [Pm.condWait, Frame.IsMaster]
    · simpa [Pm.condWait, hc] using h.frame

theorem onCore (h : Master s) (ht : Table P s) : OnCore P s 0 0 := by
  have hpos := P.cores_pos
  refine ⟨?_, .inl h.state, (ht.cores.system 0 hpos).1⟩
  unfold Platform.kthreadMax
  omega

/-- The master is the current thread of its own core only. -/
theorem zero_iff (h : Master s) (ht : Table P s) (hon : OnCore P s c i) : c = 0 ↔ i = 0 := by
  constructor
  · rintro rfl
    exact ht.cores.unique hon (h.onCore ht)
  · rintro rfl
    exact Int.ofNat.inj (hon.coreid.symm.trans (h.onCore ht).coreid)

end Master

/-- A yield picks the current thread, the idle thread of its core, or the head of the queue. -/
theorem Yields.next_cases {s₁ : State} (h : Yields P s c curr next s₁) (hon : OnCore P s c curr) :
    next = curr ∨ next = c ∨ s.queue.head = some next := by
  cases h with
  | stay => exact .inl rfl
  | toIdle _ _ hi =>
    refine .inr (.inl ?_)
    rw [hi, hon.coreid]
    rfl
  | fromIdle _ hh | swap _ hh | handOver _ hh => exact .inr (.inr hh)

theorem master_step (hm : Master s) (ht : Table P s) (hstep : steps P s a o s') : Master s' := by
  cases moves_of_step hstep with
  | idle | refused => exact hm
  | fault => exact hm.setFrame fun _ => trivial
  | unfenced hc hf | stayed hc hf | switchFailed hc hf =>
    exact hm.setFrame fun h0 => absurd h0 (hm.ne_zero (by simp [hf, Frame.IsMaster]))
  | tookFirst hc hf | opened hc hf | took hc hf =>
    refine Master.setFrame ?_ fun h0 => absurd h0 (hm.ne_zero (by simp [hf, Frame.IsMaster]))
    exact hm.congr rfl rfl (fun j => .inl rfl) (Int.le_refl _) hm.frame
  | @yields _ c curr next via s₁ hc ha hcurr htid hy =>
    have hon := threadGetCurr_some hcurr
    have hcurr0 : curr ≠ 0 := fun h0 => htid ((hm.tid curr).mpr h0)
    have hc0 : c ≠ 0 := fun h0 => hcurr0 ((hm.zero_iff ht hon).mp h0)
    have hnext0 : next ≠ 0 := by
      rintro rfl
      rcases hy.next_cases hon with h | h | h
      · exact hcurr0 h.symm
      · exact hc0 h.symm
      · obtain ⟨q, hq⟩ := ht.ready
        obtain ⟨r, rfl⟩ := hq.eq_cons h
        have := (hq.user 0 (List.mem_cons_self ..)).1
        have := P.cores_pos
        omega
    have hrest : s₁.nextTid = s.nextTid ∧ s₁.cpus = s.cpus := by rw [hy.rest]; exact ⟨rfl, rfl⟩
    refine Master.setFrame (hm.congr ?_ (hy.tid 0) (fun j => .inl (hy.tid j)) (Int.le_of_eq hrest.1.symm) ?_)
      fun h0 => absurd h0 hc0
    · exact hy.state_of_ne hcurr0.symm hnext0.symm
    · rw [hrest.2]
      exact hm.frame
  | @switched c curr next via i x hc hf hne hx hcurr htid hn =>
    have hc0 : c ≠ 0 := hm.ne_zero (by simp [hf, Frame.IsMaster])
    refine hm.congr ?_ ?_ (fun j => .inl ?_) (Int.le_refl _) ?_
    · rw [contextSwitch_apply]
    · rw [contextSwitch_apply]
    · rw [contextSwitch_apply]
    · simpa [contextSwitch, hc0.symm] using hm.frame
  | @cleaned c curr via freed s₁ hc hf hx hr | @started c curr freed s₁ hc hf _ hr =>
    have hc0 : c ≠ 0 := hm.ne_zero (by simp [hf, Frame.IsMaster])
    have hfreed : freed ≠ some 0 := fun h0 => by
      have hz := hr.zombie h0
      rw [hm.state] at hz
      cases hz
    refine Master.setFrame (hm.congr ?_ ?_ (fun j => (hr.tid j).imp_right .inl) (Int.le_of_eq hr.nextTid.symm) ?_)
      fun h0 => absurd h0 hc0
    · rw [hr.keeps hfreed]
    · rw [hr.keeps hfreed]
    · rw [hr.cpus]
      exact hm.frame
  | creates hc hf hcr =>
    have hkeep := hcr.keeps (j := 0) (by simp [hm.state])
    refine hm.congr (by rw [hkeep]) (by rw [hkeep]) hcr.tid ?_ ?_
    · rw [hcr.nextTid]
      split <;> omega
    · rw [hcr.cpus]
      exact hm.frame
  | @exits c retval curr s₁ hc hf hcurr hu he =>
    have hcurr0 : curr ≠ 0 := fun h0 => absurd hu.1 (by have := P.cores_pos; omega)
    have hc0 : c ≠ 0 := fun h0 => hcurr0 ((hm.zero_iff ht (threadGetCurr_some hcurr)).mp h0)
    have hproj : ∀ j, (s₁.threads j).tid = (s.threads j).tid := by
      rw [he.threads]
      exact State.mark_proj s Thread.tid .terminated fun _ => rfl
    refine Master.setFrame (hm.congr ?_ (hproj 0) (fun j => .inl (hproj j))
      (Int.le_of_eq he.nextTid.symm) ?_) fun h0 => absurd h0 hc0
    · rw [he.threads, update_of_ne hcurr0.symm]
    · rw [he.cpus]
      exact hm.frame
  | joinsNow => exact hm.setFrame fun _ => trivial
  | joinWakes | wakes =>
    refine Master.setFrame ?_ fun _ => trivial
    exact hm.congr rfl rfl (fun j => .inl rfl) (Int.le_refl _) hm.frame
  | joinSleeps | sleeps => exact hm.condWait
  | broadcasts hc hf hb =>
    obtain ⟨l, -, rfl⟩ := condBroadcast_cases hb
    exact hm.congr rfl rfl (fun j => .inl rfl) (Int.le_refl _) hm.frame

theorem master_boot (P : Platform) : Master (boot P) where
  state := by simp [boot, P.cores_pos]
  tid i := by
    have hpos := P.cores_pos
    by_cases hi : i < P.coresNum
    · simp [boot, hi]
    · simp only [boot, hi, ite_false]
      omega
  nextTid_pos := by
    have hpos := P.cores_pos
    simp [boot, hpos]
  frame := trivial

/-! ### Saved contexts -/

def Frame.IsSaved : Frame → Prop
  | .starting | .clean _ _ => True
  | _ => False

/-- Contexts are saved in `thread_create` and in the middle of `thread_yield`. -/
def Saves (s : State) : Prop := ∀ i x, (s.threads i).ctx = some x → x.frame.IsSaved

theorem saves_step (h : Saves s) (hstep : steps P s a o s') : Saves s' := by
  have keep : ∀ {t : State}, (∀ j, (t.threads j).ctx = (s.threads j).ctx) → Saves t := by
    intro t ht j x hx
    exact h j x (by rw [← ht j, hx])
  cases moves_of_step hstep with
  | idle | refused | fault | unfenced | tookFirst | opened | took | stayed | switchFailed
  | joinsNow | joinWakes | wakes => exact keep fun _ => rfl
  | yields hc ha hcurr htid hy => exact keep hy.ctx
  | switched hc hf hne hx hcurr htid hn =>
    intro j x hx
    rw [contextSwitch_apply] at hx
    dsimp only at hx
    split_ifs at hx
    · cases hx
      trivial
    · exact h j x hx
  | cleaned hc hf hx hr | started hc hf hcurr hr => exact keep hr.ctx
  | creates hc hf hcr =>
    intro j x hx
    rcases hcr.ctx j with hj | ⟨y, hy, hj⟩
    · exact h j x (by rw [← hj, hx])
    · rw [hj] at hx
      cases hx
      rw [hy]
      trivial
  | exits hc hf hcurr hu he =>
    refine keep fun j => ?_
    rw [State.setFrame_threads, he.threads]
    exact State.mark_proj s Thread.ctx .terminated (fun _ => rfl) j
  | joinSleeps | sleeps => exact keep (condWait_proj Thread.ctx s _ _ _ _ fun _ _ => rfl)
  | broadcasts hc hf hb =>
    obtain ⟨l, -, rfl⟩ := condBroadcast_cases hb
    exact keep fun _ => rfl

structure Base (P : Platform) (s : State) : Prop where
  table : Table P s
  master : Master s
  saves : Saves s

theorem base_step (h : Base P s) (hstep : steps P s a o s') : Base P s' :=
  ⟨table_step h.table hstep, master_step h.master h.table hstep, saves_step h.saves hstep⟩

theorem base_boot (P : Platform) : Base P (boot P) := by
  refine ⟨table_boot P, master_boot P, fun i x hx => ?_⟩
  simp only [boot] at hx
  split_ifs at hx

/-- `thread_yield` does not stop where anyone but the master calls it. -/
theorem Base.yield_ok (h : Base P s) (hc : c < P.coresNum) (hf : ¬ (s.cpus c).frame.IsMaster) {f : Fault} :
    threadYield P s c via ≠ .error f := by
  intro he
  obtain ⟨-, i, hon, hi⟩ := threadYield_fault h.table hc he
  exact h.master.ne_zero hf ((h.master.zero_iff h.table hon).mpr ((h.master.tid i).mp hi))

/-! ### Grants -/

/-- The idle thread of the core has lowered the semaphore and has not yet yielded. -/
def Context.granted (x : Context) : Bool := x.frame = .unfence ∨ x.frame = .granted

theorem Context.granted_iff (x : Context) : x.granted = true ↔ x.frame = .unfence ∨ x.frame = .granted := by
  simp [Context.granted]

/-- How many idle threads have a grant. -/
def grants (P : Platform) (s : State) : ℕ := tally Context.granted s.cpus P.coresNum

theorem grants_update {x : Context} (hc : c < P.coresNum) (h : s'.cpus = update s.cpus c x) :
    grants P s' + (if (s.cpus c).granted then 1 else 0) =
      grants P s + if x.granted then 1 else 0 := by
  unfold grants
  rw [h]
  exact tally_update Context.granted s.cpus x hc

theorem grants_congr (h : s'.cpus = s.cpus) : grants P s' = grants P s := by
  unfold grants
  rw [h]

/-- What a yield does to the size of the queue and to the semaphore, which it raises for a current
thread that goes to the queue. -/
theorem Yields.counts {s₁ : State} (h : Yields P s c curr next s₁) (hq : Ready P s q)
    (hon : OnCore P s c curr) :
    (s.queue.size = 0 ∧ s₁.queue.size = 0 ∧ s₁.queue.sem = s.queue.sem) ∨
    (s₁.queue.size + 1 = s.queue.size ∧ s₁.queue.sem = s.queue.sem) ∨
    (0 < s.queue.size ∧ s₁.queue.size = s.queue.size ∧ s₁.queue.sem = semaphoreUp s.queue.sem ∧
      P.IsUser curr ∧ (s.threads curr).state ≠ .terminated ∧ curr ≠ next) := by
  cases h with
  | stay hz | toIdle hz => exact .inl ⟨hz, hz, rfl⟩
  | fromIdle hz | handOver hz => exact .inr (.inl ⟨Nat.sub_add_cancel (Nat.pos_of_ne_zero hz), rfl⟩)
  | swap hz hh hs hi hsch =>
    have hpos := Nat.pos_of_ne_zero hz
    have hne : curr ≠ next := by
      rintro rfl
      obtain ⟨r, rfl⟩ := hq.eq_cons hh
      exact hq.not_mem hon (List.mem_cons_self ..)
    refine .inr (.inr ⟨hpos, ?_, ?_, threadSchedule_user hsch, hs, hne⟩)
    · rw [State.mark, State.setThread_queue, threadSchedule_queue hsch]
      exact Nat.sub_add_cancel hpos
    · rw [State.mark, State.setThread_queue, threadSchedule_queue hsch]
      rfl

/-- A creation leaves the queue and the semaphore as they are, or adds one to both. -/
theorem Creates.counts {s₁ : State} {start arg : ℕ} (h : Creates P s start arg o s₁) :
    s₁.queue = s.queue ∨
    (s₁.queue.size = s.queue.size + 1 ∧ s₁.queue.sem = semaphoreUp s.queue.sem ∧
      ∃ tid i, o.ret = .created tid i) := by
  cases h with
  | full => exact .inl rfl
  | noPages hlt ha => exact .inl ha.queue
  | created hlt ha hk hu hne hsch =>
    refine .inr ⟨?_, ?_, _, _, rfl⟩ <;> rw [threadSchedule_queue hsch] <;> simp [initThread, ha.queue]

/-- Code of a user thread yields: it calls `thread_yield`, or it is about to do so in
`thread_exit`. -/
def UserYields (s : State) (a : Act) : Prop :=
  (∃ c, a = .yield c ∧ c ≠ 0 ∧ (s.cpus c).frame = .user) ∨
    ∃ c, a = .run c ∧ (s.cpus c).frame = .exiting

/-- What a step does to the size of the queue, to the semaphore and to the grants. The
semaphore is raised in the steps that schedule a thread. -/
inductive Counts (P : Platform) (s : State) (a : Act) (o : Out) (s' : State) : Prop
  | same (hq : s'.queue = s.queue) (hg : grants P s' = grants P s)
  | adds (hin : scheduled P ⟨s, a, o, s'⟩ ≠ []) (hq : s'.queue.size = s.queue.size + 1)
      (hs : s'.queue.sem = semaphoreUp s.queue.sem) (hg : grants P s' = grants P s)
  | takes (hn : 0 < s.queue.sem) (hq : s'.queue.size = s.queue.size)
      (hs : s'.queue.sem = s.queue.sem - 1) (hg : grants P s' = grants P s + 1)
  | yields (g : ℕ) (hg : grants P s' + g = grants P s) (h1 : g ≤ 1) (h0 : g = 0 → UserYields s a)
      (hq : (s.queue.size = 0 ∧ s'.queue.size = 0 ∧ s'.queue.sem = s.queue.sem) ∨
        (s'.queue.size + 1 = s.queue.size ∧ s'.queue.sem = s.queue.sem) ∨
        (0 < s.queue.size ∧ s'.queue.size = s.queue.size ∧ s'.queue.sem = semaphoreUp s.queue.sem ∧
          scheduled P ⟨s, a, o, s'⟩ ≠ []))

/-- A core that neither gains nor loses a grant. -/
theorem Counts.of_update {x : Context} (hc : c < P.coresNum) (hq : s'.queue = s.queue)
    (h : s'.cpus = update s.cpus c x) (hx : x.granted = (s.cpus c).granted) :
    Counts P s a o s' := by
  refine .same hq ?_
  have hg := grants_update (P := P) hc h
  rw [hx] at hg
  omega

theorem Counts.of_take {f : Frame} (hc : c < P.coresNum) (hg : (s.cpus c).granted = false)
    (hn : 0 < s.queue.sem) (hf : f = .unfence ∨ f = .granted) : Counts P s a o
      ({ s with queue := { s.queue with sem := s.queue.sem - 1 } }.setFrame c f) := by
  refine .takes hn rfl rfl ?_
  have h := tally_update Context.granted s.cpus { s.cpus c with frame := f } hc
  have hnew : Context.granted { s.cpus c with frame := f } = true := (Context.granted_iff _).mpr hf
  rw [hg, hnew] at h
  exact h

theorem counts_step (hb : Base P s) (hstep : steps P s a o s') : Counts P s a o s' := by
  cases moves_of_step hstep with
  | idle | refused => exact .same rfl rfl
  | fault hc hfault =>
    refine .of_update hc rfl rfl ?_
    -- Where a core holds a grant, its next step does not stop it.
    have hno : ¬ (s.cpus a.core).granted = true := by
      rw [Context.granted_iff]
      intro hf
      rcases hfault with ⟨hu, -⟩ | ⟨-, he⟩
      · rw [hu] at hf
        simp at hf
      · rcases hf with hf | hf
        · simp [runStep, hf] at he
        · simp only [runStep, hf] at he
          exact hb.yield_ok hc (by simp [hf, Frame.IsMaster]) he
    rw [Bool.eq_false_iff.mpr hno]
    rfl
  | unfenced hc hf | stayed hc hf | switchFailed hc hf | joinsNow hc hf | joinWakes hc hf | wakes hc hf
  | joinSleeps hc hf | sleeps hc hf =>
    exact .of_update hc rfl rfl (by simp [Context.granted, hf])
  | tookFirst hc hf hn | took hc hf hn =>
    exact .of_take hc (by simp [Context.granted, hf]) hn (by simp)
  | opened hc hf => exact .of_update hc rfl rfl (by simp [Context.granted, hf])
  | @yields _ c curr next via s₁ hc ha hcurr htid hy =>
    have hcpus : s₁.cpus = s.cpus := by rw [hy.rest]
    have hupd : (s₁.setFrame c (.switch curr next via)).cpus =
        update s.cpus c { s.cpus c with frame := .switch curr next via } := by
      rw [State.setFrame_cpus, hcpus]
    have hg := grants_update hc hupd
    have hon := threadGetCurr_some hcurr
    have hc0 : c ≠ 0 := fun h0 =>
      htid ((hb.master.tid curr).mpr ((hb.master.zero_iff hb.table hon).mp h0))
    refine .yields (if (s.cpus c).granted then 1 else 0) ?_ ?_ ?_ ?_
    · simpa [Context.granted] using hg
    · split <;> omega
    · cases ha with
      | user hf => exact fun _ => .inl ⟨c, rfl, hc0, hf⟩
      | idle hf => simp [Context.granted, hf]
      | exit hf => exact fun _ => .inr ⟨c, rfl, hf⟩
    · obtain ⟨q, hq⟩ := hb.table.ready
      refine (hy.counts hq hon).imp_right (Or.imp_right ?_)
      rintro ⟨hpos, hsize, hsem, hin⟩
      exact ⟨hpos, hsize, hsem, by simp [scheduled, hin]⟩
  | @switched c curr next via i x hc hf hne hx hcurr htid hn =>
    refine .of_update hc rfl rfl ?_
    have hsaved := hb.saves next x hn
    cases hfx : x.frame <;> simp_all [Context.granted, Frame.IsSaved]
  | @cleaned c curr via freed s₁ hc hf hx hr =>
    refine .of_update hc hr.queue (by rw [State.setFrame_cpus, hr.cpus]) ?_
    cases via <;> simp [Context.granted, hf, Caller.back]
  | started hc hf hcurr hr =>
    exact .of_update hc hr.queue (by rw [State.setFrame_cpus, hr.cpus]) (by simp [Context.granted, hf])
  | creates hc hf hcr =>
    rcases hcr.counts with hq | ⟨hq, hs, tid, i, hret⟩
    · exact .same hq (grants_congr hcr.cpus)
    · exact .adds (by simp [scheduled, hret]) hq hs (grants_congr hcr.cpus)
  | exits hc hf hcurr hu he =>
    exact .of_update hc he.queue (by rw [State.setFrame_cpus, he.cpus]) (by simp [Context.granted, hf])
  | broadcasts hc hf hb =>
    obtain ⟨l, -, rfl⟩ := condBroadcast_cases hb
    exact .same rfl rfl

/-- The semaphore is not negative, and together with the grants it covers the queue. -/
def Covered (P : Platform) (s : State) : Prop :=
  0 ≤ s.queue.sem ∧ (s.queue.size : ℤ) ≤ s.queue.sem + grants P s

theorem covered_step (h : Covered P s) (hc : Counts P s a o s')
    (hup : scheduled P ⟨s, a, o, s'⟩ ≠ [] → s.queue.sem < intMax) : Covered P s' := by
  unfold Covered at h ⊢
  cases hc with
  | same hq hg =>
    rw [hq, hg]
    exact h
  | adds hin hq hs hg =>
    rw [semaphoreUp_of_lt (hup hin)] at hs
    omega
  | takes hn hq hs hg => omega
  | yields g hg h1 h0 hq =>
    rcases hq with hq | hq | ⟨hpos, hq, hs, hin⟩
    · omega
    · omega
    · rw [semaphoreUp_of_lt (hup hin)] at hs
      omega

/-- As long as `thread_schedule` finds room in the counter, the semaphore and the idle threads that
have lowered it but not yet yielded amount to at least the size of the queue. So when the
semaphore blocks an idle thread, every thread of the queue is granted to another one. -/
theorem no_thread_stranded {tr : List (Event State Act Out)} (h : Runs P tr s)
    (hup : ∀ e ∈ tr, scheduled P e ≠ [] → e.pre.queue.sem < intMax) :
    0 ≤ s.queue.sem ∧ (s.queue.size : ℤ) ≤ s.queue.sem + grants P s ∧
      (s.queue.sem ≤ 0 → s.queue.size ≤ grants P s) := by
  have hcov : Base P s ∧ Covered P s := by
    refine h.invariant (P := fun e => scheduled P e ≠ [] → e.pre.queue.sem < intMax)
      (I := fun s => Base P s ∧ Covered P s) ⟨base_boot P, ?_⟩ hup fun e hs he hi => ?_
    · exact ⟨le_refl 0, Int.zero_add (grants P (boot P) : ℤ) ▸ Int.natCast_nonneg _⟩
    · exact ⟨base_step hi.1 hs, covered_step hi.2 (counts_step hi.1 hs) he⟩
  obtain ⟨hpos, hle⟩ := hcov.2
  exact ⟨hpos, hle, fun h0 => by omega⟩

/-- An idle thread has lowered the semaphore that the creation of a thread raised. -/
theorem no_thread_stranded_granted : ∃ tr s, Runs smallPlatform tr s ∧
    (∀ e ∈ tr, scheduled smallPlatform e ≠ [] → e.pre.queue.sem < intMax) ∧ s.queue.sem = 0 ∧
    s.queue.size = 1 ∧ s.queue.size ≤ grants smallPlatform s := by
  obtain ⟨tr, s, hr, -, hup, hsem, hsize⟩ := exists_runs (P := smallPlatform)
    [.create 0 1 0 (some 0) (some 1), .run 1]
    (fun r => (∀ e ∈ r.1, scheduled smallPlatform e ≠ [] → e.pre.queue.sem < intMax) ∧
      r.2.queue.sem = 0 ∧ r.2.queue.size = 1) (by decide +kernel)
  exact ⟨tr, s, hr, hup, hsem, hsize, (no_thread_stranded hr hup).2.2 hsem.le⟩

/-! ### Threads that yield to each other -/

/-- On core 1, user thread `i` executes user code and thread `j` waits alone in the queue, where it
went by a yield. The counter is `n`; no idle thread has a grant, and that of core 2 is at the
semaphore. -/
structure Rally (P : Platform) (s : State) (i j : ℕ) (n : ℤ) : Prop where
  ne : i ≠ j
  users : i ≠ 1 ∧ j ≠ 1
  queue : s.queue = ⟨1, some j, some j, n⟩
  running : (s.threads i).state = .running
  onCore : OnCore P s 1 i
  tids : (s.threads i).tid ≠ 0 ∧ (s.threads j).tid ≠ 0
  current : (s.threads i).ctx = none
  saved : (s.threads j).ctx.map (·.frame) = some (.clean j .user)
  frame : (s.cpus 1).frame = .user
  blocked : (s.cpus 2).frame = .down
  ungranted : grants P s = 0

namespace Rally

variable {n : ℤ}

/-- `i` gives way to `j` and takes its place in the queue. -/
theorem yield (h : Rally P s i j n) (ht : Table P s) (hc : 1 < P.coresNum) :
    ∃ s₁, step P s (.yield 1) = (⟨.picked i j, none⟩, s₁.setFrame 1 (.switch i j .user)) ∧
      Yields P s 1 i j s₁ ∧ s₁.queue = ⟨1, some i, some i, semaphoreUp n⟩ ∧
      (s₁.threads j).coreid = 1 ∧ (s₁.threads j).next = none := by
  obtain ⟨⟨o, s'⟩, hsec⟩ := yieldSection_ok ht hc h.onCore .user
  have hstep : step P s (.yield 1) = (o, s') := by
    simp [step, Act.core, hc, h.frame, callStep, threadYield, ht.cores.threadGetCurr_eq h.onCore, h.tids.1,
      hsec, settle]
  obtain ⟨next, s₁, hy, rfl, rfl⟩ := yieldSection_cases hsec
  have hidle : (s.threads i).coreid.toNat = 1 := by rw [h.onCore.coreid]; rfl
  have hy' := hy
  cases hy with
  | stay hz | toIdle hz => simp [h.queue] at hz
  | fromIdle _ _ _ hi => exact absurd (hi.trans hidle) h.users.1
  | handOver _ _ hs => simp [h.running] at hs
  | swap hz hh hs hi hsch =>
    obtain rfl : j = next := by simpa [h.queue] using hh
    refine ⟨_, hstep, hy', ?_, ?_, ?_⟩
    · rw [State.mark, State.setThread_queue, threadSchedule_queue hsch]
      simp [h.queue]
    · simp [threadSchedule_coreid hsch, h.ne.symm]
    · unfold threadSchedule at hsch
      split_ifs at hsch with hu hempty
      · cases hsch
        simp [enqueue, h.ne.symm]
      · exact absurd (by simp [h.queue]) hempty

/-- One round: `i` yields, and `j` goes on where it had yielded before. -/
theorem round (h : Rally P s i j n) (ht : Table P s) (hc : 1 < P.coresNum) :
    ∃ tr s', Run (steps P) s tr s' ∧ Rally P s' j i (semaphoreUp n) := by
  obtain ⟨s₁, hyield, hy, hqueue, hcore, hnext⟩ := h.yield ht hc
  obtain ⟨x, hx, hxf⟩ := Option.map_eq_some_iff.mp h.saved
  have hcpus : s₁.cpus = s.cpus := by rw [hy.rest]
  have ht₁ : Table P (s₁.setFrame 1 (.switch i j .user)) := table_step ht hyield
  have hlt : j < P.kthreadMax := by
    obtain ⟨q, hq⟩ := ht.ready
    obtain ⟨r, rfl⟩ := hq.eq_cons (n := j) (by rw [h.queue])
    exact (hq.user j (List.mem_cons_self ..)).2
  have hon : OnCore P (s₁.setFrame 1 (.switch i j .user)) 1 j := ⟨hlt, .inl hy.next_state, hcore⟩
  have hswitch : step P (s₁.setFrame 1 (.switch i j .user)) (.run 1) = (⟨.switched i j, none⟩,
      contextSwitch (s₁.setFrame 1 (.switch i j .user)) 1 i j .user x) := by
    simp [step, Act.core, hc, runStep, switchStep, threadSwitchTo, settle, hy.ctx, hy.tid, hx, h.current,
      h.ne, h.tids.2, ht₁.cores.threadGetCurr_eq hon]
  generalize hs₂ : contextSwitch (s₁.setFrame 1 (.switch i j .user)) 1 i j .user x = s₂ at hswitch
  have hthread : ∀ k, s₂.threads k = { s₁.threads k with
      ctx := if k = j then none else if k = i then some { s.cpus 1 with frame := .clean i .user }
        else (s₁.threads k).ctx } := by
    intro k
    rw [← hs₂, contextSwitch_apply]
    simp [hcpus]
  have hcpus₂ : s₂.cpus = update s.cpus 1 x := by
    rw [← hs₂]
    simp [contextSwitch, hcpus]
  have hclean : step P s₂ (.run 1) = (⟨.yielded, none⟩, s₂.setFrame 1 .user) := by
    simp [step, Act.core, hc, runStep, hcpus₂, hxf, cleanStep, hthread, reap, hnext, settle, Caller.ret,
      Caller.back]
  refine ⟨_, _, ((Run.nil.snoc hyield).snoc hswitch).snoc hclean, h.ne.symm, h.users.symm, ?_, ?_, ?_, ?_,
    ?_, ?_, ?_, ?_, ?_⟩
  · rw [State.setFrame_queue, ← hs₂]
    exact hqueue
  · simp [hthread, hy.next_state]
  · exact ⟨hlt, .inl (by simp [hthread, hy.next_state]), by simp [hthread, hcore]⟩
  · simp [hthread, hy.tid, h.tids]
  · simp [hthread]
  · simp [hthread, h.ne]
  · simp
  · simp [hcpus₂, h.blocked]
  · have hback : (s₂.setFrame 1 .user).cpus = update s.cpus 1 { x with frame := .user } := by simp [hcpus₂]
    have hg := grants_update hc hback
    simpa [Context.granted, h.frame, h.ungranted] using hg

theorem rounds {tr : List (Event State Act Out)} (hr : Runs P tr s) (h : Rally P s i j n)
    (hc : 1 < P.coresNum) (k : ℕ) :
    ∃ tr s i j, Runs P tr s ∧ Rally P s i j (semaphoreUp^[k] n) := by
  induction k with
  | zero => exact ⟨tr, s, i, j, hr, h⟩
  | succ k ih =>
    obtain ⟨tr, s, i, j, hr, h⟩ := ih
    obtain ⟨tr', s', hrun, h'⟩ := h.round (table_of_runs hr) hc
    refine ⟨tr ++ tr', s', j, i, hr.append hrun, ?_⟩
    rw [Function.iterate_succ_apply']
    exact h'

end Rally

theorem semaphoreUp_iterate {n : ℤ} (k : ℕ) (h : n + k ≤ intMax) : semaphoreUp^[k] n = n + k := by
  induction k with
  | zero => simp
  | succ k ih =>
    rw [Function.iterate_succ_apply', ih (by omega), semaphoreUp_of_lt (by omega)]
    omega

/-- Two user threads yield to each other until the counter has wrapped around. A thread is in the
queue then, no idle thread has a grant, and that of core 2 does not get past the semaphore. -/
theorem thread_stranded_after_yields : ∃ tr s, Runs smallPlatform tr s ∧ s.queue.size = 1 ∧
    s.queue.sem = -intMax - 1 ∧ grants smallPlatform s = 0 ∧
    ¬ (s.queue.size : ℤ) ≤ s.queue.sem + grants smallPlatform s ∧
    (s.cpus 2).frame = .down ∧ step smallPlatform s (.run 2) = (⟨.quiet, none⟩, s) := by
  obtain ⟨tr, s, hr, -, hq, hrun, hco, htids, hctx, hsaved, hf, hd, hg⟩ := exists_runs (P := smallPlatform)
    [.create 0 1 0 (some 0) (some 1), .create 0 1 0 (some 2) (some 3),
      .run 1, .run 1, .run 2, .run 1, .run 1, .run 1, .yield 1, .run 1, .run 1]
    (fun r => r.2.queue = ⟨1, some 3, some 3, 2⟩ ∧ (r.2.threads 4).state = .running ∧
      (r.2.threads 4).coreid = 1 ∧ ((r.2.threads 4).tid ≠ 0 ∧ (r.2.threads 3).tid ≠ 0) ∧
      (r.2.threads 4).ctx = none ∧ (r.2.threads 3).ctx.map (·.frame) = some (.clean 3 .user) ∧
      (r.2.cpus 1).frame = .user ∧ (r.2.cpus 2).frame = .down ∧ grants smallPlatform r.2 = 0)
    (by decide +kernel)
  have hrally : Rally smallPlatform s 4 3 2 :=
    ⟨by decide, by decide, hq, hrun, ⟨by decide, .inl hrun, hco⟩, htids, hctx, hsaved, hf, hd, hg⟩
  have hc : 1 < smallPlatform.coresNum := by decide
  obtain ⟨tr, s, i, j, hr, h⟩ := hrally.rounds hr hc (intMax - 2).toNat
  rw [semaphoreUp_iterate _ (by decide)] at h
  obtain ⟨tr', s', hrun, h'⟩ := h.round (table_of_runs hr) hc
  have hwrap : semaphoreUp (2 + (intMax - 2).toNat) = -intMax - 1 := by decide
  have hsem : s'.queue.sem = -intMax - 1 := by
    rw [h'.queue]
    exact hwrap
  have hsize : s'.queue.size = 1 := by rw [h'.queue]
  refine ⟨tr ++ tr', s', hr.append hrun, hsize, hsem, h'.ungranted, ?_, h'.blocked, ?_⟩
  · rw [hsize, hsem, h'.ungranted]
    decide
  · have hneg : ¬ 0 < s'.queue.sem := by rw [hsem]; decide
    simp [step, Act.core, smallPlatform, runStep, settle, h'.blocked, hneg]

/-! ### The bound -/

/-- As long as only idle threads take from the queue, the semaphore and the grants amount to its
size. -/
def Balanced (P : Platform) (s : State) : Prop :=
  0 ≤ s.queue.sem ∧ s.queue.sem + grants P s = s.queue.size

theorem balanced_step (h : Balanced P s) (hc : Counts P s a o s')
    (hmax : (s'.queue.size : ℤ) ≤ intMax) (hy : UserYields s a → s.queue.size = 0) : Balanced P s' := by
  unfold Balanced at h ⊢
  cases hc with
  | same hq hg =>
    rw [hq, hg]
    exact h
  | adds hin hq hs hg =>
    rw [semaphoreUp_of_lt (by omega)] at hs
    omega
  | takes hn hq hs hg => omega
  | yields g hg h1 h0 hq =>
    by_cases hz : g = 0
    · have := hy (h0 hz)
      omega
    · rcases hq with hq | hq | ⟨hpos, hq, hs, -⟩
      · omega
      · omega
      · rw [semaphoreUp_of_lt (by omega)] at hs
        omega

theorem Table.size_le (h : Table P s) : s.queue.size ≤ P.threadMax := by
  obtain ⟨q, hq⟩ := h.ready
  rw [hq.size]
  exact hq.length_le

/-- If user threads yield and exit with an empty queue only, the semaphore never exceeds
the number of user threads. -/
theorem sem_le_threadMax {tr : List (Event State Act Out)} (h : Runs P tr s)
    (hy : ∀ e ∈ tr, UserYields e.pre e.act → e.pre.queue.size = 0) :
    0 ≤ s.queue.sem ∧ s.queue.sem ≤ P.threadMax := by
  have hbal : Base P s ∧ Balanced P s := by
    refine h.invariant (P := fun e => UserYields e.pre e.act → e.pre.queue.size = 0)
      (I := fun s => Base P s ∧ Balanced P s) ⟨base_boot P, ?_⟩ hy fun e hs he hi => ?_
    · have hnone : grants P (boot P) = 0 := by
        refine Nat.eq_zero_of_not_pos fun hpos => ?_
        obtain ⟨c, -, hc⟩ := tally_pos.mp hpos
        rw [Context.granted_iff] at hc
        dsimp only [boot] at hc
        split_ifs at hc <;> simp at hc
      refine ⟨le_refl 0, ?_⟩
      rw [hnone]
      rfl
    · have hbase := base_step hi.1 hs
      have hmax := hbase.table.size_le
      have := P.threads_le
      exact ⟨hbase, balanced_step hi.2 (counts_step hi.1 hs) (by omega) he⟩
  obtain ⟨hpos, heq⟩ := hbal.2
  have hle := hbal.1.table.size_le
  exact ⟨hpos, by omega⟩

/-- Two threads are created, and an idle thread takes the first. -/
theorem sem_le_threadMax_two : ∃ tr s, Runs smallPlatform tr s ∧ s.queue.sem = 1 ∧
    s.queue.sem ≤ smallPlatform.threadMax := by
  obtain ⟨tr, s, hr, hacts, hsem⟩ := exists_runs (P := smallPlatform)
    [.create 0 1 0 (some 0) (some 1), .run 1, .create 0 1 0 (some 2) (some 3)]
    (fun r => r.2.queue.sem = 1 ∧ ∀ e ∈ r.1, e.act = .run 1 → (e.pre.cpus 1).frame ≠ .exiting)
    (by decide +kernel)
  refine ⟨tr, s, hr, hsem.1, (sem_le_threadMax hr fun e he hy => ?_).2⟩
  have hact : e.act ∈ tr.map (·.act) := List.mem_map_of_mem he
  rw [hacts] at hact
  rcases hy with ⟨c, hc, -⟩ | ⟨c, hc, hf⟩
  · simp [hc] at hact
  · obtain rfl : c = 1 := by simpa [hc] using hact
    exact absurd hf (hsem.2 e he hc)

/-- Two user threads that yield to each other raise the semaphore each time, and no idle
thread lowers it. -/
theorem not_sem_le_threadMax :
    ¬ ∀ (P : Platform) (tr : List (Event State Act Out)) (s : State), Runs P tr s →
      s.queue.sem ≤ P.threadMax := by
  intro hle
  obtain ⟨tr, s, hr, -, hsem⟩ := exists_runs (P := smallPlatform)
    [.create 0 1 0 (some 0) (some 1), .run 1, .run 1, .run 1, .run 1, .run 1,
      .create 0 1 0 (some 2) (some 3), .yield 1, .run 1, .run 1, .yield 1, .run 1, .run 1,
      .yield 1, .run 1, .run 1, .yield 1]
    (fun r => r.2.queue.sem = 5) (by decide +kernel)
  have := hle smallPlatform tr s hr
  rw [hsem] at this
  exact absurd this (by decide)

end Nanvix.Pm
