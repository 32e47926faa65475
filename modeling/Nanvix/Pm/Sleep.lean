import Nanvix.Pm.Stacks

/-! The threads that sleep. A condition variable lists the threads that wait for it through
the links of the table. A listed thread is the current one of a core that sleeps, so nobody
else touches its link, and a broadcast wakes up the cores of all listed threads. -/

namespace Nanvix.Pm

open Nanvix.Lib Function

variable {P : Platform} {s s' : State} {a : Act} {o : Out} {c d i j curr next : ℕ} {cv : CondVar} {w : Wait}
  {q : List ℕ} {freed : Option ℕ} {L : CondVar → List ℕ}

/-- `L` tells who waits for what: the current threads of the cores that sleep and were not
woken up. -/
structure Sleepers (P : Platform) (s : State) (L : CondVar → List ℕ) : Prop where
  linked : ∀ cv, Linked s.links (s.conds cv) (L cv)
  nodup : ∀ cv, (L cv).Nodup
  mem : ∀ {cv i}, i ∈ L cv ↔ ∃ c < P.coresNum, OnCore P s c i ∧
    (∃ w, (s.cpus c).frame = .asleep cv w) ∧ s.tokens c = false
  token : ∀ {c}, s.tokens c = true → c < P.coresNum ∧ ∃ cv w, (s.cpus c).frame = .asleep cv w

namespace Sleepers

theorem keep (h : Sleepers P s L) (hconds : s'.conds = s.conds) (htok : s'.tokens = s.tokens)
    (hframe : ∀ c < P.coresNum, ∀ cv w, (s'.cpus c).frame = .asleep cv w ↔ (s.cpus c).frame = .asleep cv w)
    (hon : ∀ c < P.coresNum, ∀ cv w, (s.cpus c).frame = .asleep cv w →
      ∀ i, OnCore P s' c i ↔ OnCore P s c i)
    (hnext : ∀ cv, ∀ i ∈ L cv, (s'.threads i).next = (s.threads i).next) : Sleepers P s' L where
  linked cv := by
    rw [hconds]
    exact (h.linked cv).congr (hnext cv)
  nodup := h.nodup
  mem {cv i} := by
    rw [h.mem, htok]
    constructor
    · rintro ⟨c, hc, hi, ⟨w, hw⟩, ht⟩
      exact ⟨c, hc, (hon c hc cv w hw i).mpr hi, ⟨w, (hframe c hc cv w).mpr hw⟩, ht⟩
    · rintro ⟨c, hc, hi, ⟨w, hw⟩, ht⟩
      have hw := (hframe c hc cv w).mp hw
      exact ⟨c, hc, (hon c hc cv w hw i).mp hi, ⟨w, hw⟩, ht⟩
  token {c} ht := by
    rw [htok] at ht
    obtain ⟨hc, cv, w, hw⟩ := h.token ht
    exact ⟨hc, cv, w, (hframe c hc cv w).mpr hw⟩

theorem active (h : Sleepers P s L) (hi : i ∈ L cv) : Active (s.threads i) := by
  obtain ⟨c, -, hon, -⟩ := h.mem.mp hi
  exact hon.active

theorem length_le (h : Sleepers P s L) (cv : CondVar) : (L cv).length ≤ P.kthreadMax := by
  refine length_le_of_nodup (h.nodup cv) fun i hi => ?_
  obtain ⟨c, -, hon, -⟩ := h.mem.mp hi
  exact hon.lt

theorem walk_eq (h : Sleepers P s L) (cv : CondVar) :
    walk s.links P.kthreadMax (s.conds cv) = some (L cv) :=
  (h.linked cv).walk (h.length_le cv)

theorem ne_of_asleep (hf : (s.cpus c).frame = .user) (hw : (s.cpus d).frame = .asleep cv w) : d ≠ c := by
  rintro rfl
  rw [hf] at hw
  cases hw

theorem not_listed (h : Sleepers P s L) (hon : OnCore P s c curr) (hf : (s.cpus c).frame = .user)
    (cv : CondVar) : curr ∉ L cv := by
  intro hm
  obtain ⟨d, -, hi, ⟨w, hw⟩, -⟩ := h.mem.mp hm
  exact ne_of_asleep hf hw (Int.ofNat.inj (hi.coreid.symm.trans hon.coreid))

theorem links_condWait (s : State) (c curr : ℕ) (cv : CondVar) (w : Wait) :
    (condWait s c curr cv w).links = update s.links curr (s.conds cv) := by
  funext j
  by_cases hj : j = curr
  · subst hj
    simp [condWait, State.links]
  · simp [condWait, State.links, hj]

theorem onCore_condWait (s : State) (c curr : ℕ) (cv : CondVar) (w : Wait) :
    OnCore P (condWait s c curr cv w) d j ↔ OnCore P s d j := by
  apply onCore_congr
  · rw [Active, condWait_proj Thread.state s c curr cv w (fun _ _ => rfl) j, Active]
  · exact fun _ => condWait_proj Thread.coreid s c curr cv w (fun _ _ => rfl) j

theorem sleep (h : Sleepers P s L) (ht : Table P s) (hc : c < P.coresNum) (hon : OnCore P s c curr)
    (hf : (s.cpus c).frame = .user) :
    Sleepers P (condWait s c curr cv w) (update L cv (curr :: L cv)) := by
  have htok : s.tokens c = false := by
    rw [Bool.eq_false_iff]
    intro htok
    obtain ⟨-, cv', w', hw⟩ := h.token htok
    exact ne_of_asleep hf hw rfl
  have hnot := h.not_listed hon hf
  have hcpu : ∀ {d}, d ≠ c → (condWait s c curr cv w).cpus d = s.cpus d := fun hd =>
    update_of_ne hd _ _
  have hown : ((condWait s c curr cv w).cpus c).frame = .asleep cv w := by simp [condWait]
  -- The new list has the thread and those that were listed.
  have hmem : ∀ {cv' i}, i ∈ update L cv (curr :: L cv) cv' ↔
      (cv' = cv ∧ i = curr) ∨ i ∈ L cv' := by
    intro cv' i
    by_cases hcv : cv' = cv
    · subst hcv
      simp
    · simp [hcv]
  refine ⟨fun cv' => ?_, fun cv' => ?_, fun {cv' i} => ?_, fun {d} htd => ?_⟩
  · rw [links_condWait]
    by_cases hcv : cv' = cv
    · subst hcv
      simp only [condWait, State.setFrame_conds, update_self]
      exact (h.linked cv').push_front (hnot cv')
    · simp only [condWait, State.setFrame_conds, update_of_ne hcv]
      exact (h.linked cv').update (hnot cv') _
  · by_cases hcv : cv' = cv
    · subst hcv
      rw [update_self]
      exact List.nodup_cons.mpr ⟨hnot cv', h.nodup cv'⟩
    · rw [update_of_ne hcv]
      exact h.nodup cv'
  · rw [hmem]
    constructor
    · rintro (⟨rfl, rfl⟩ | hi)
      · exact ⟨c, hc, (onCore_condWait ..).mpr hon, ⟨w, hown⟩, htok⟩
      · obtain ⟨d, hd, hi, ⟨w', hw⟩, htd⟩ := h.mem.mp hi
        rw [← hcpu (ne_of_asleep hf hw)] at hw
        exact ⟨d, hd, (onCore_condWait ..).mpr hi, ⟨w', hw⟩, htd⟩
    · rintro ⟨d, hd, hi', ⟨w', hw⟩, htd⟩
      have hi := (onCore_condWait ..).mp hi'
      by_cases hdc : d = c
      · subst hdc
        rw [hown] at hw
        exact .inl ⟨(Frame.asleep.inj hw).1.symm, ht.cores.unique hi hon⟩
      · rw [hcpu hdc] at hw
        exact .inr (h.mem.mpr ⟨d, hd, hi, ⟨w', hw⟩, htd⟩)
  · obtain ⟨hd, cv', w', hw⟩ := h.token htd
    rw [← hcpu (ne_of_asleep hf hw)] at hw
    exact ⟨hd, cv', w', hw⟩

/-- The cores of the listed threads are those that sleep on the variable. -/
theorem any_iff (h : Sleepers P s L) (ht : Table P s) (hc : c < P.coresNum) :
    ((L cv).any fun i => decide ((s.threads i).coreid = c)) = true ↔
      (∃ w, (s.cpus c).frame = .asleep cv w) ∧ s.tokens c = false := by
  rw [List.any_eq_true]
  constructor
  · rintro ⟨i, hi, hic⟩
    obtain ⟨d, hd, hon, hw, htok⟩ := h.mem.mp hi
    obtain rfl : d = c := Int.ofNat.inj (hon.coreid.symm.trans (of_decide_eq_true hic))
    exact ⟨hw, htok⟩
  · rintro ⟨hw, htok⟩
    obtain ⟨i, hon⟩ := ht.cores.exists_on c hc
    exact ⟨i, h.mem.mpr ⟨c, hc, hon, hw, htok⟩, decide_eq_true hon.coreid⟩

theorem broadcast (h : Sleepers P s L) (cv : CondVar) : Sleepers P { s with
      conds := update s.conds cv none
      tokens := fun c => s.tokens c || (L cv).any fun i => decide ((s.threads i).coreid = c) }
    (update L cv []) := by
  -- The cores of the listed threads are those that sleep on the variable.
  have hany : ∀ {c}, ((L cv).any fun i => decide ((s.threads i).coreid = c)) = true ↔
      ∃ i, i ∈ L cv ∧ (s.threads i).coreid = c := by
    intro c
    simp
  refine ⟨fun cv' => ?_, fun cv' => ?_, fun {cv' i} => ?_, fun {c} htc => ?_⟩
  · by_cases hcv : cv' = cv
    · subst hcv
      simp only [update_self]
      rfl
    · simp only [update_of_ne hcv]
      exact h.linked cv'
  · by_cases hcv : cv' = cv
    · subst hcv
      rw [update_self]
      exact .nil
    · rw [update_of_ne hcv]
      exact h.nodup cv'
  · by_cases hcv : cv' = cv
    · subst hcv
      rw [update_self]
      refine iff_of_false (by simp) ?_
      rintro ⟨c, hc, hi, hw, htc⟩
      have hi : OnCore P s c i := ⟨hi.lt, hi.active, hi.coreid⟩
      obtain ⟨ht, hno⟩ := Bool.or_eq_false_iff.mp htc
      have hm := h.mem.mpr ⟨c, hc, hi, hw, ht⟩
      rw [Bool.eq_false_iff] at hno
      exact hno (hany.mpr ⟨i, hm, hi.coreid⟩)
    · rw [update_of_ne hcv, h.mem]
      constructor
      · rintro ⟨c, hc, hi, ⟨w, hw⟩, htc⟩
        refine ⟨c, hc, ⟨hi.lt, hi.active, hi.coreid⟩, ⟨w, hw⟩, Bool.or_eq_false_iff.mpr ⟨htc, ?_⟩⟩
        rw [Bool.eq_false_iff]
        intro hyes
        obtain ⟨j, hj, hjc⟩ := hany.mp hyes
        obtain ⟨d, hd, hon, ⟨w', hw'⟩, -⟩ := h.mem.mp hj
        obtain rfl : c = d := Int.ofNat.inj (hjc.symm.trans hon.coreid)
        exact hcv (Frame.asleep.inj (hw.symm.trans hw')).1
      · rintro ⟨c, hc, hi, hw, htc⟩
        exact ⟨c, hc, ⟨hi.lt, hi.active, hi.coreid⟩, hw, (Bool.or_eq_false_iff.mp htc).1⟩
  · rcases Bool.or_eq_true_iff.mp htc with ht | hyes
    · exact h.token ht
    · obtain ⟨i, hi, hic⟩ := hany.mp hyes
      obtain ⟨d, hd, hon, ⟨w, hw⟩, -⟩ := h.mem.mp hi
      obtain rfl : c = d := Int.ofNat.inj (hic.symm.trans hon.coreid)
      exact ⟨hd, cv, w, hw⟩

theorem wake (h : Sleepers P s L) (ht : s.tokens c = true) (f : Frame) (hf : ∀ cv w, f ≠ .asleep cv w) :
    Sleepers P ({ s with tokens := update s.tokens c false }.setFrame c f) L := by
  have hcpu : ∀ {d}, d ≠ c →
      (({ s with tokens := update s.tokens c false } : State).setFrame c f).cpus d = s.cpus d :=
    fun hd => update_of_ne hd _ _
  refine ⟨h.linked, h.nodup, fun {cv i} => ?_, fun {d} htd => ?_⟩
  · rw [h.mem]
    constructor
    · rintro ⟨d, hd, hi, ⟨w, hw⟩, htd⟩
      have hdc : d ≠ c := by
        rintro rfl
        rw [ht] at htd
        cases htd
      refine ⟨d, hd, ⟨hi.lt, hi.active, hi.coreid⟩, ⟨w, by rw [hcpu hdc]; exact hw⟩, ?_⟩
      simpa [hdc] using htd
    · rintro ⟨d, hd, hi, ⟨w, hw⟩, htd⟩
      have hdc : d ≠ c := by
        rintro rfl
        simp at hw
        exact hf cv w hw
      rw [hcpu hdc] at hw
      refine ⟨d, hd, ⟨hi.lt, hi.active, hi.coreid⟩, ⟨w, hw⟩, ?_⟩
      simpa [hdc] using htd
  · have hdc : d ≠ c := by
      rintro rfl
      simp at htd
    rw [hcpu hdc]
    apply h.token
    simpa [hdc] using htd

end Sleepers

/-! ### The links of current threads -/

/-- `thread_schedule` sets the links of the thread and of the tail. -/
theorem threadSchedule_next_of_ne (h : threadSchedule P s i = .ok s') (hq : Ready P s q) (hj : j ∉ q)
    (hji : j ≠ i) : (s'.threads j).next = (s.threads j).next := by
  have hlinks : s'.links j = s.links j := by
    rw [threadSchedule_links h hq]
    split_ifs with hne
    · exact update_of_ne hji _ _
    · have hlast : j ≠ q.getLast hne := fun he => hj (he ▸ List.getLast_mem hne)
      rw [update_of_ne hji, update_of_ne hlast]
  exact hlinks

theorem Yields.next_of_ne {s₁ : State} (h : Yields P s c curr next s₁) (hq : Ready P s q)
    (hon : OnCore P s c curr) (hjc : j ≠ curr) (hjn : j ≠ next) (hj : j ∉ q) :
    (s₁.threads j).next = (s.threads j).next := by
  cases h with
  | swap hsize hh hs hi hsch =>
    obtain ⟨r, rfl⟩ := hq.eq_cons hh
    have hcurr : curr ∉ r := fun hm => hq.not_mem hon (List.mem_cons_of_mem _ hm)
    have hjr : j ∉ r := fun hm => hj (List.mem_cons_of_mem _ hm)
    rw [State.mark_proj _ Thread.next _ fun _ => rfl,
      threadSchedule_next_of_ne hsch ((hq.pop c).setThread hcurr _) hjr hjc]
    simp [hjc, hjn]
  | _ => simp [State.retired, hjc, hjn]

theorem Creates.next_of_busy {s₁ : State} {start arg : ℕ} (h : Creates P s start arg o s₁)
    (hq : Ready P s q) (hj : j ∉ q)
    (hs : ¬ ((s.threads j).state = .notStarted ∨ (s.threads j).state = .zombie)) :
    (s₁.threads j).next = (s.threads j).next := by
  cases h with
  | full => rfl
  | @noPages i freed s₁ hlt ha =>
    obtain ⟨t, -, ht⟩ := ha.threads
    have hji : j ≠ i := fun hji => hs (hji ▸ ha.free)
    rw [ht, update_of_ne hji]
  | @created i freed s₁ kstack ustack s₂ hlt ha hk hu hne hsch =>
    obtain ⟨t, -, ht⟩ := ha.threads
    have hji : j ≠ i := fun hji => hs (hji ▸ ha.free)
    have hinit := ha.ready_initThread hq
      (update (update s₁.kpages kstack 1) ustack 1) start arg kstack ustack
    rw [threadSchedule_next_of_ne hsch hinit hj hji]
    simp [initThread, hji, ht]

/-- Releasing a zombie clears the link that leads to it. -/
theorem next_of_reaps {s₁ : State} (h : Reaps P s curr freed s₁) (i : ℕ) :
    (s₁.threads i).next = (s.threads i).next ∨
      ∃ z, (s.threads i).next = some z ∧ (s.threads z).state = .zombie := by
  cases h with
  | none => exact .inl rfl
  | @some z hn hz =>
    by_cases hic : i = curr
    · exact .inr ⟨z, hic ▸ hn, hz⟩
    · refine .inl ?_
      rw [State.setThread_threads, update_of_ne hic, threadFree_threads]
      exact State.setThread_proj s Thread.next
        (t := { s.threads z with coreid := -1, state := .notStarted, tid := -1 }) rfl i

/-- The link of the current thread of another core stays, unless it leads to a zombie. -/
theorem next_step (ht : Table P s) (hstep : steps P s a o s') (hi : OnCore P s d i) (hd : d ≠ a.core) :
    (s'.threads i).next = (s.threads i).next ∨
      ∃ z, (s.threads i).next = some z ∧ (s.threads z).state = .zombie := by
  obtain ⟨q, hq⟩ := ht.ready
  have hiq : i ∉ q := hq.not_mem hi
  have hother : ∀ {c j}, OnCore P s c j → c = a.core → i ≠ j := by
    rintro c j hj rfl rfl
    exact hd (Int.ofNat.inj (hi.coreid.symm.trans hj.coreid))
  cases moves_of_step hstep with
  | idle | refused | fault | unfenced | tookFirst | opened | took | stayed | switchFailed | wakes
  | joinsNow | joinWakes => exact .inl rfl
  | @yields _ c curr next via s₁ hc ha hcurr htid hy =>
    have hcore : c = a.core := by cases ha <;> rfl
    have hon := threadGetCurr_some hcurr
    have hic := hother hon hcore
    refine .inl (hy.next_of_ne hq hon hic ?_ hiq)
    rintro rfl
    rcases hy.next_cases hon with h | h | h
    · exact hic h
    · subst h
      exact hd (hcore ▸ Int.ofNat.inj (hi.coreid.symm.trans (ht.cores.system i hc).1))
    · obtain ⟨r, rfl⟩ := hq.eq_cons h
      exact hiq (List.mem_cons_self ..)
  | switched => exact .inl (by rw [contextSwitch_apply])
  | cleaned hc hf hx hr | started hc hf hcurr hr => exact next_of_reaps hr i
  | creates hc hf hcr =>
    refine .inl (hcr.next_of_busy hq hiq ?_)
    have ha := hi.active
    rintro (hs | hs) <;> simp [Active, hs] at ha
  | exits hc hf hcurr hu he =>
    refine .inl ?_
    rw [State.setFrame_threads, he.threads]
    exact State.mark_proj s Thread.next .terminated (fun _ => rfl) i
  | joinSleeps hc hf hcurr | sleeps hc hf hcurr =>
    exact .inl (by simp [condWait, hother (threadGetCurr_some hcurr) rfl])
  | broadcasts hc hf hb =>
    obtain ⟨l, -, rfl⟩ := condBroadcast_cases hb
    exact .inl rfl

/-! ### Every step -/

/-- A step that neither sends anybody to sleep nor wakes anybody up. -/
theorem Sleepers.quiet (h : Sleepers P s L) (ht : Table P s) (hstep : steps P s a o s')
    (hconds : s'.conds = s.conds) (htok : s'.tokens = s.tokens)
    (hf : ∀ cv w, (s.cpus a.core).frame ≠ .asleep cv w)
    (hf' : ∀ cv w, (s'.cpus a.core).frame ≠ .asleep cv w) : Sleepers P s' L := by
  have hne : ∀ {c cv w}, (s.cpus c).frame = .asleep cv w → c ≠ a.core := by
    rintro c cv w hw rfl
    exact hf cv w hw
  refine h.keep hconds htok ?_ ?_ ?_
  · intro c hc cv w
    by_cases hca : c = a.core
    · subst hca
      exact iff_of_false (hf' cv w) (hf cv w)
    · rw [cpus_of_ne hstep hca]
  · intro c hc cv w hw i
    exact onCore_of_ne ht hstep hc (hne hw)
  · intro cv i hi
    obtain ⟨d, hd, hon, ⟨w, hw⟩, -⟩ := h.mem.mp hi
    rcases next_step ht hstep hon (hne hw) with hn | ⟨z, hn, hz⟩
    · exact hn
    · -- The link of a listed thread leads to a listed thread.
      have ha := h.active ((h.linked cv).next_mem hi hn)
      simp [Active, hz] at ha

theorem sleepers_step (h : ∃ L, Sleepers P s L) (hb : Base P s) (hstep : steps P s a o s') :
    ∃ L, Sleepers P s' L := by
  obtain ⟨L, h⟩ := h
  have ht := hb.table
  cases moves_of_step hstep with
  | idle | refused => exact ⟨L, h⟩
  | fault hc hfault =>
    refine ⟨L, h.quiet ht hstep rfl rfl ?_ (by simp)⟩
    intro cv w hw
    rcases hfault with ⟨hu, -⟩ | ⟨-, he⟩
    · rw [hw] at hu
      cases hu
    · simp only [runStep, hw] at he
      split_ifs at he
      cases w <;> cases he
  | unfenced hc hf | tookFirst hc hf | opened hc hf | took hc hf | stayed hc hf | switchFailed hc hf
  | joinsNow hc hf =>
    exact ⟨L, h.quiet ht hstep rfl rfl (by simp [Act.core, hf]) (by simp [Act.core])⟩
  | @yields _ c curr next via s₁ hc ha hcurr htid hy =>
    have hcore : a.core = c := by cases ha <;> rfl
    refine ⟨L, h.quiet ht hstep ?_ ?_ ?_ ?_⟩
    · rw [State.setFrame_conds, hy.rest]
    · rw [State.setFrame_tokens, hy.rest]
    · rw [hcore]
      cases ha with
      | user hf | idle hf | exit hf => simp [hf]
    · simp [hcore]
  | @switched c curr next via i x hc hf hne hx hcurr htid hn =>
    refine ⟨L, h.quiet ht hstep rfl rfl (by simp [Act.core, hf]) ?_⟩
    have hsaved := hb.saves next x hn
    intro cv w hw
    have hw : x.frame = .asleep cv w := by simpa [contextSwitch, Act.core] using hw
    simp [hw, Frame.IsSaved] at hsaved
  | @cleaned c curr via freed s₁ hc hf hx hr =>
    refine ⟨L, h.quiet ht hstep ?_ ?_ (by simp [Act.core, hf]) ?_⟩
    · rw [State.setFrame_conds, hr.rest]
    · rw [State.setFrame_tokens, hr.rest]
    · cases via <;> simp [Act.core, Caller.back]
  | started hc hf hcurr hr =>
    refine ⟨L, h.quiet ht hstep ?_ ?_ (by simp [Act.core, hf]) (by simp [Act.core])⟩
    · rw [State.setFrame_conds, hr.rest]
    · rw [State.setFrame_tokens, hr.rest]
  | creates hc hf hcr =>
    refine ⟨L, h.quiet ht hstep ?_ ?_ (by simp [Act.core, hf]) (by simp [Act.core, hcr.cpus, hf])⟩
    · rw [hcr.rest]
    · rw [hcr.rest]
  | @exits c retval curr s₁ hc hf hcurr hu he =>
    obtain ⟨l, hl, hconds, htok⟩ := he.woken
    obtain rfl := Option.some.inj (hl.symm.trans (h.walk_eq _))
    refine ⟨_, (h.broadcast (.join curr)).keep hconds htok ?_ ?_ ?_⟩
    · intro d hd cv w
      by_cases hdc : d = c
      · subst hdc
        exact iff_of_false (by simp) (by simp [hf])
      · show ((s₁.setFrame c _).cpus d).frame = _ ↔ _
        rw [State.setFrame_cpus, update_of_ne hdc, he.cpus]
    · intro d hd cv w hw i
      have hdc : d ≠ c := by
        rintro rfl
        simp [hf] at hw
      exact (onCore_of_ne ht hstep hd hdc).trans (onCore_congr .rfl fun _ => rfl)
    · intro cv i hi
      rw [State.setFrame_threads, he.threads]
      exact State.mark_proj s Thread.next .terminated (fun _ => rfl) i
  | joinSleeps hc hf hcurr | sleeps hc hf hcurr =>
    exact ⟨_, h.sleep ht hc (threadGetCurr_some hcurr) hf⟩
  | @broadcasts c j s₁ hc hf hb =>
    obtain ⟨l, hl, rfl⟩ := condBroadcast_cases hb
    obtain rfl := Option.some.inj (hl.symm.trans (h.walk_eq _))
    exact ⟨_, h.broadcast (.other j)⟩
  | joinWakes hc hf htk | wakes hc hf htk => exact ⟨L, h.wake htk .user (by simp)⟩

theorem sleepers_boot (P : Platform) : ∃ L, Sleepers P (boot P) L := by
  refine ⟨fun _ => [], fun _ => rfl, fun _ => .nil, ?_, ?_⟩
  · intro cv i
    refine iff_of_false (by simp) ?_
    rintro ⟨c, -, -, ⟨w, hw⟩, -⟩
    simp only [boot] at hw
    split_ifs at hw
  · intro c ht
    cases ht

end Nanvix.Pm
