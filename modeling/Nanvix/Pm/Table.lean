import Nanvix.Pm.Moves

/-! The run queue and the table of threads. The queue is threaded through the table, and
its links are also those of the condition variables and of the zombies that are handed
over, so what keeps it intact is which threads can be in it: none that a core
takes for its current one, and none that was released. -/

namespace Nanvix.Pm

open Nanvix.Lib Function

variable {P : Platform} {s s' : State} {a : Act} {o : Out} {c d i j n curr next : ℕ} {via : Caller}
  {q : List ℕ} {freed : Option ℕ}

/-- The thread is one that `thread_get_curr` looks for. -/
def Active (t : Thread) : Prop := t.state = .running ∨ t.state = .terminated

instance (t : Thread) : Decidable (Active t) := by unfold Active; infer_instance

/-- The queue holds the threads of `q`. -/
structure Ready (P : Platform) (s : State) (q : List ℕ) : Prop where
  linked : Linked s.links s.queue.head q
  size : s.queue.size = q.length
  tail : ∀ hq : q ≠ [], s.queue.tail = some (q.getLast hq)
  nodup : q.Nodup
  user : ∀ i ∈ q, P.IsUser i
  state : ∀ i ∈ q, (s.threads i).state = .started ∨ (s.threads i).state = .stopped
  coreid : ∀ i ∈ q, (s.threads i).coreid = -1

structure OnCore (P : Platform) (s : State) (c i : ℕ) : Prop where
  lt : i < P.kthreadMax
  active : Active (s.threads i)
  coreid : (s.threads i).coreid = c

structure Cores (P : Platform) (s : State) : Prop where
  exists_on : ∀ c < P.coresNum, ∃ i, OnCore P s c i
  unique : ∀ {c i j : ℕ}, OnCore P s c i → OnCore P s c j → i = j
  home : ∀ {i : ℕ}, i < P.kthreadMax → Active (s.threads i) → ∃ c < P.coresNum, (s.threads i).coreid = c
  system : ∀ i < P.coresNum, (s.threads i).coreid = i ∧
    ((s.threads i).state = .running ∨ (s.threads i).state = .stopped)

/-! ### The queue -/

/-- What the queue is made of is left as it is. -/
structure Alike (s s' : State) (i : ℕ) : Prop where
  next : (s'.threads i).next = (s.threads i).next
  state : (s'.threads i).state = (s.threads i).state
  coreid : (s'.threads i).coreid = (s.threads i).coreid

theorem Alike.of_eq (h : s'.threads i = s.threads i) : Alike s s' i := by
  constructor <;> rw [h]

theorem Alike.setThread {t : Thread} (h : i ≠ j) : Alike s (s.setThread j t) i :=
  .of_eq (update_of_ne h _ _)

namespace Ready

theorem congr (h : Ready P s q) (hh : s'.queue.head = s.queue.head)
    (hsize : s'.queue.size = s.queue.size) (htail : s'.queue.tail = s.queue.tail)
    (ht : ∀ i ∈ q, Alike s s' i) : Ready P s' q where
  linked := by
    rw [hh]
    exact h.linked.congr fun i hi => (ht i hi).next
  size := hsize.trans h.size
  tail hq := htail.trans (h.tail hq)
  nodup := h.nodup
  user := h.user
  state i hi := by
    rw [(ht i hi).state]
    exact h.state i hi
  coreid i hi := by
    rw [(ht i hi).coreid]
    exact h.coreid i hi

theorem setThread (h : Ready P s q) (hi : i ∉ q) (t : Thread) : Ready P (s.setThread i t) q :=
  h.congr rfl rfl rfl fun _ hj => .setThread (ne_of_mem_of_not_mem hj hi)

theorem not_active (h : Ready P s q) (hi : i ∈ q) : ¬ Active (s.threads i) := by
  unfold Active
  rcases h.state i hi with hs | hs <;> simp [hs]

theorem not_mem (h : Ready P s q) (hi : OnCore P s c i) : i ∉ q :=
  fun hm => h.not_active hm hi.active

theorem unique {r : List ℕ} (h : Ready P s q) (h' : Ready P s r) : q = r := h.linked.unique h'.linked

theorem length_le (h : Ready P s q) : q.length ≤ P.threadMax := by
  have hle : (q.map P.utid).length ≤ P.threadMax := by
    apply length_le_of_nodup
    · refine h.nodup.map_on fun i hi j hj hij => ?_
      have := (h.user i hi).1
      have := (h.user j hj).1
      unfold Platform.utid at hij
      omega
    · intro u hu
      obtain ⟨i, hi, rfl⟩ := List.mem_map.mp hu
      have := h.user i hi
      unfold Platform.IsUser Platform.kthreadMax at this
      unfold Platform.utid
      omega
  rwa [List.length_map] at hle

theorem eq_cons (h : Ready P s q) (hh : s.queue.head = some n) : ∃ r, q = n :: r := by
  cases q with
  | nil => exact absurd (h.linked.symm.trans hh) (by simp)
  | cons j r =>
    have hj : some n = some j := hh.symm.trans h.linked.head_eq
    exact ⟨r, by rw [Option.some.inj hj]⟩

theorem exists_head (h : Ready P s q) (hq : s.queue.size ≠ 0) : ∃ n, s.queue.head = some n := by
  cases q with
  | nil => exact absurd h.size hq
  | cons n r => exact ⟨n, h.linked.head_eq⟩

theorem pop (h : Ready P s (n :: q)) (c : ℕ) : Ready P (s.popped c n) q := by
  have hn : n ∉ q := (List.nodup_cons.mp h.nodup).1
  have hsame : ∀ i ∈ q, Alike s (s.popped c n) i := fun i hi =>
    .of_eq (update_of_ne (ne_of_mem_of_not_mem hi hn) _ _)
  refine ⟨?_, ?_, ?_, (List.nodup_cons.mp h.nodup).2, ?_, ?_, ?_⟩
  · exact h.linked.tail.congr fun i hi => (hsame i hi).next
  · show s.queue.size - 1 = q.length
    rw [h.size, List.length_cons, Nat.add_sub_cancel]
  · intro hq
    show s.queue.tail = _
    rw [h.tail (by simp), List.getLast_cons hq]
  · exact fun i hi => h.user i (List.mem_cons_of_mem _ hi)
  · intro i hi
    rw [(hsame i hi).state]
    exact h.state i (List.mem_cons_of_mem _ hi)
  · intro i hi
    rw [(hsame i hi).coreid]
    exact h.coreid i (List.mem_cons_of_mem _ hi)

end Ready

theorem threadSchedule_links (h : threadSchedule P s i = .ok s') (hq : Ready P s q) :
    s'.links = if hne : q = [] then update s.links i none
      else update (update s.links (q.getLast hne) (some i)) i none := by
  unfold threadSchedule at h
  split_ifs at h with hu hs
  · have hnil : q = [] := List.length_eq_zero_iff.mp (hq.size.symm.trans hs)
    cases h
    rw [dif_pos hnil]
    funext j
    simp only [State.links, enqueue, State.setThread_threads, update_apply]
    split_ifs <;> rfl
  · have hne : q ≠ [] := fun hnil => hs (by rw [hq.size, hnil]; rfl)
    rw [hq.tail hne] at h
    cases h
    rw [dif_neg hne]
    funext j
    simp only [State.links, enqueue, State.setThread_threads, update_apply]
    split_ifs <;> rfl

theorem threadSchedule_queue (h : threadSchedule P s i = .ok s') :
    s'.queue = ⟨s.queue.size + 1, if s.queue.size = 0 then some i else s.queue.head, some i,
      semaphoreUp s.queue.sem⟩ := by
  unfold threadSchedule at h
  split_ifs at h with hu hs
  · cases h
    simp [enqueue, hs]
  · split at h
    · cases h
    · cases h
      simp [enqueue, hs]

namespace Ready

theorem push (hq : Ready P s q) (hi : i ∉ q)
    (hs : (s.threads i).state = .started ∨ (s.threads i).state = .stopped)
    (h : threadSchedule P s i = .ok s') : Ready P s' (q ++ [i]) := by
  have hqueue := threadSchedule_queue h
  refine ⟨?_, ?_, ?_, ?_, ?_, ?_, ?_⟩
  · rw [threadSchedule_links h hq, hqueue]
    by_cases hne : q = []
    · subst hne
      have hsize : s.queue.size = 0 := hq.size
      rw [dif_pos rfl, if_pos hsize]
      exact ⟨rfl, update_self ..⟩
    · have hsize : s.queue.size ≠ 0 := by
        rw [hq.size]
        exact fun h0 => hne (List.length_eq_zero_iff.mp h0)
      rw [dif_neg hne, if_neg hsize]
      exact hq.linked.push_back hi hne hq.nodup
  · rw [hqueue, List.length_append, hq.size]
    rfl
  · intro hne
    rw [hqueue, List.getLast_append_singleton]
  · exact hq.nodup.append (List.nodup_singleton i) (List.disjoint_singleton.mpr hi)
  · intro j hj
    rcases List.mem_append.mp hj with hj | hj
    · exact hq.user j hj
    · rw [List.mem_singleton.mp hj]
      exact threadSchedule_user h
  · intro j hj
    rw [threadSchedule_state h]
    rcases List.mem_append.mp hj with hj | hj
    · exact hq.state j hj
    · rwa [List.mem_singleton.mp hj]
  · intro j hj
    rw [threadSchedule_coreid h]
    rcases List.mem_append.mp hj with hj | hj
    · rw [if_neg (ne_of_mem_of_not_mem hj hi)]
      exact hq.coreid j hj
    · rw [if_pos (List.mem_singleton.mp hj)]

/-- A user thread can always be scheduled. -/
theorem schedule_ok (hq : Ready P s q) (hu : P.IsUser i) : ∃ t, threadSchedule P s i = .ok t := by
  unfold threadSchedule
  rw [if_neg (not_not_intro hu)]
  by_cases hs : s.queue.size = 0
  · rw [if_pos hs]
    exact ⟨_, rfl⟩
  · have hne : q ≠ [] := fun hnil => hs (by rw [hq.size, hnil]; rfl)
    rw [if_neg hs, hq.tail hne]
    exact ⟨_, rfl⟩

end Ready

/-! ### The current threads -/

/-- A thread stays on its core if it stays active and there. -/
theorem onCore_congr (ha : Active (s'.threads i) ↔ Active (s.threads i))
    (hco : Active (s.threads i) → (s'.threads i).coreid = (s.threads i).coreid) :
    OnCore P s' c i ↔ OnCore P s c i := by
  constructor
  · rintro ⟨hlt, hact, hc⟩
    have hact := ha.mp hact
    exact ⟨hlt, hact, (hco hact).symm.trans hc⟩
  · rintro ⟨hlt, hact, hc⟩
    exact ⟨hlt, ha.mpr hact, (hco hact).trans hc⟩

theorem threadGetCurr_some (h : threadGetCurr P s c = some i) : OnCore P s c i := by
  unfold threadGetCurr at h
  split at h
  · rename_i j hj
    cases h
    have hmem := List.mem_of_find?_eq_some hj
    have hp := List.find?_some hj
    simp only [decide_eq_true_eq] at hp
    exact ⟨List.mem_range.mp hmem, .inl hp.2, hp.1⟩
  · have hmem := List.mem_of_find?_eq_some h
    have hp := List.find?_some h
    simp only [decide_eq_true_eq] at hp
    exact ⟨List.mem_range.mp (List.mem_reverse.mp hmem), .inr hp.2, hp.1⟩

theorem threadGetCurr_none (h : threadGetCurr P s c = none) : ¬ OnCore P s c i := by
  unfold threadGetCurr at h
  rintro ⟨hlt, ha, hco⟩
  split at h
  · cases h
  · rename_i hr
    have hmem := List.mem_range.mpr hlt
    rcases ha with ha | ha
    · exact absurd (List.find?_eq_none.mp hr i hmem) (by simp [ha, hco])
    · exact absurd (List.find?_eq_none.mp h i (List.mem_reverse.mpr hmem)) (by simp [ha, hco])

namespace Cores

theorem threadGetCurr_eq (h : Cores P s) (hi : OnCore P s c i) : threadGetCurr P s c = some i := by
  cases hg : threadGetCurr P s c with
  | none => exact absurd hi (threadGetCurr_none hg)
  | some j => rw [h.unique hi (threadGetCurr_some hg)]

/-- No thread changes sides. -/
theorem same (h : Cores P s) (ha : ∀ j, Active (s'.threads j) ↔ Active (s.threads j))
    (hco : ∀ j, Active (s.threads j) ∨ j < P.coresNum → (s'.threads j).coreid = (s.threads j).coreid)
    (hs : ∀ j < P.coresNum, (s'.threads j).state = (s.threads j).state) : Cores P s' := by
  have hon : ∀ {c j}, OnCore P s' c j ↔ OnCore P s c j := fun {c j} =>
    onCore_congr (ha j) fun hact => hco j (.inl hact)
  refine ⟨?_, ?_, ?_, ?_⟩
  · intro c hc
    obtain ⟨i, hi⟩ := h.exists_on c hc
    exact ⟨i, hon.mpr hi⟩
  · intro c i j hi hj
    exact h.unique (hon.mp hi) (hon.mp hj)
  · intro i hi hact
    have hact := (ha i).mp hact
    rw [hco i (.inl hact)]
    exact h.home hi hact
  · intro i hi
    rw [hco i (.inr hi), hs i hi]
    exact h.system i hi

/-- Core `c` changes from thread `i` to thread `n`. -/
theorem move (h : Cores P s) (hc : c < P.coresNum) (hi : OnCore P s c i) (hn : n < P.kthreadMax)
    (hna : ¬ Active (s.threads n)) (hnsys : n < P.coresNum → n = c)
    (hi' : ¬ Active (s'.threads i))
    (hisys : i < P.coresNum → (s'.threads i).coreid = i ∧ (s'.threads i).state = .stopped)
    (hn' : (s'.threads n).state = .running ∧ (s'.threads n).coreid = c)
    (hrest : ∀ j, j ≠ i → j ≠ n → (s'.threads j).state = (s.threads j).state ∧
      (s'.threads j).coreid = (s.threads j).coreid) : Cores P s' := by
  have hact : ∀ j, j ≠ i → j ≠ n → (Active (s'.threads j) ↔ Active (s.threads j)) := by
    intro j hji hjn
    unfold Active
    rw [(hrest j hji hjn).1]
  have hon : ∀ {d j}, OnCore P s' d j ↔ (d = c ∧ j = n) ∨ (d ≠ c ∧ OnCore P s d j) := by
    intro d j
    constructor
    · rintro ⟨hlt, ha, hd⟩
      by_cases hjn : j = n
      · subst hjn
        exact .inl ⟨Int.ofNat.inj (hd.symm.trans hn'.2), rfl⟩
      · have hji : j ≠ i := fun hji => hi' (hji ▸ ha)
        have hj : OnCore P s d j :=
          ⟨hlt, (hact j hji hjn).mp ha, (hrest j hji hjn).2.symm.trans hd⟩
        exact .inr ⟨fun hdc => hji (h.unique (hdc ▸ hj) hi), hj⟩
    · rintro (⟨rfl, rfl⟩ | ⟨hdc, hj⟩)
      · exact ⟨hn, .inl hn'.1, hn'.2⟩
      · have hji : j ≠ i := by
          rintro rfl
          exact hdc (Int.ofNat.inj (hj.coreid.symm.trans hi.coreid))
        have hjn : j ≠ n := fun hjn => hna (hjn ▸ hj.active)
        exact ⟨hj.lt, (hact j hji hjn).mpr hj.active, (hrest j hji hjn).2.trans hj.coreid⟩
  refine ⟨?_, ?_, ?_, ?_⟩
  · intro d hd
    by_cases hdc : d = c
    · exact ⟨n, hon.mpr (.inl ⟨hdc, rfl⟩)⟩
    · obtain ⟨j, hj⟩ := h.exists_on d hd
      exact ⟨j, hon.mpr (.inr ⟨hdc, hj⟩)⟩
  · intro d j k hj hk
    rcases hon.mp hj with ⟨hd, rfl⟩ | ⟨hd, hj⟩ <;> rcases hon.mp hk with ⟨hd', rfl⟩ | ⟨hd', hk⟩
    · rfl
    · exact absurd hd hd'
    · exact absurd hd' hd
    · exact h.unique hj hk
  · intro j hj ha
    by_cases hjn : j = n
    · subst hjn
      exact ⟨c, hc, hn'.2⟩
    · have hji : j ≠ i := fun hji => hi' (hji ▸ ha)
      rw [(hrest j hji hjn).2]
      exact h.home hj ((hact j hji hjn).mp ha)
  · intro j hj
    by_cases hjn : j = n
    · subst hjn
      rw [hn'.1, hn'.2, hnsys hj]
      exact ⟨rfl, .inl rfl⟩
    · by_cases hji : j = i
      · subst hji
        exact ⟨(hisys hj).1, .inr (hisys hj).2⟩
      · rw [(hrest j hji hjn).1, (hrest j hji hjn).2]
        exact h.system j hj

/-- The current thread of a core is its idle thread or a user thread. -/
theorem user_of_ne (h : Cores P s) (hi : OnCore P s c i) (hne : i ≠ c) : P.IsUser i := by
  refine ⟨?_, hi.lt⟩
  by_contra hlt
  have hco := (h.system i (by omega)).1
  exact hne (Int.ofNat.inj (hco.symm.trans hi.coreid))

end Cores

/-! ### The steps -/

variable (P) in
/-- The threads that a step puts at the end of the queue: the one that it creates, or the user thread
that gives up its core to another one. -/
def scheduled (e : Event State Act Out) : List ℕ :=
  match e.out.ret with
  | .created _ i => [i]
  | .picked curr next =>
    if P.IsUser curr ∧ (e.pre.threads curr).state ≠ .terminated ∧ curr ≠ next then [curr] else []
  | _ => []

variable (P) in
/-- The threads that a step gives a core to. -/
def dispatched (e : Event State Act Out) : List ℕ :=
  match e.out.ret with
  | .picked curr next => if P.IsUser next ∧ curr ≠ next then [next] else []
  | _ => []

variable (P) in
/-- What a step puts into the queue goes to its end, and what it takes out of it comes from its head. -/
def Shifts (e : Event State Act Out) (q : List ℕ) : Prop :=
  ∃ r, Ready P e.post r ∧ q ++ scheduled P e = dispatched P e ++ r

namespace Yields

variable {s₁ : State}

/-- The section of `thread_yield` takes the next thread from the head of the queue and puts the current
one at its end. -/
theorem order (h : Yields P s c curr next s₁) (hq : Ready P s q)
    (hc : c < P.coresNum) (hon : OnCore P s c curr) :
    ∃ r, Ready P s₁ r ∧
      q ++ (if P.IsUser curr ∧ (s.threads curr).state ≠ .terminated ∧ curr ≠ next then [curr] else []) =
        (if P.IsUser next ∧ curr ≠ next then [next] else []) ++ r := by
  have hcurr : curr ∉ q := hq.not_mem hon
  have hco : (s.threads curr).coreid.toNat = c := by rw [hon.coreid]; rfl
  have hsys : ¬ P.IsUser c := fun hu => absurd hu.1 (by omega)
  cases h with
  | stay =>
    refine ⟨q, hq.setThread hcurr _, ?_⟩
    simp
  | toIdle hsize hs hi hne =>
    rw [hco] at hi
    subst hi
    have hidle : next ∉ q := fun hm => hsys (hq.user _ hm)
    refine ⟨q, ((hq.setThread hcurr _).setThread hidle _).setThread hidle _, ?_⟩
    simp [hs, hsys]
  | fromIdle hsize hh hs hi =>
    rw [hco] at hi
    subst hi
    obtain ⟨r, rfl⟩ := hq.eq_cons hh
    have hn : next ∉ r := (List.nodup_cons.mp hq.nodup).1
    obtain ⟨hne, hr⟩ := not_or.mp (List.mem_cons.not.mp hcurr)
    refine ⟨r, ((hq.pop curr).setThread hr _).setThread hn _, ?_⟩
    simp [hsys, hq.user next List.mem_cons_self, hne]
  | swap hsize hh hs hi hsch =>
    obtain ⟨r, rfl⟩ := hq.eq_cons hh
    have hn : next ∉ r := (List.nodup_cons.mp hq.nodup).1
    obtain ⟨hne, hr⟩ := not_or.mp (List.mem_cons.not.mp hcurr)
    have hpush := ((hq.pop c).setThread hr _).push hr (.inr (by simp)) hsch
    refine ⟨r ++ [curr], hpush.setThread (by simp [hn, Ne.symm hne]) _, ?_⟩
    simp [threadSchedule_user hsch, hs, hne, hq.user next List.mem_cons_self]
  | handOver hsize hh hs hi hne =>
    obtain ⟨r, rfl⟩ := hq.eq_cons hh
    have hn : next ∉ r := (List.nodup_cons.mp hq.nodup).1
    have hr : curr ∉ r := fun hm => hcurr (List.mem_cons_of_mem _ hm)
    refine ⟨r, (((hq.pop c).setThread hr _).setThread hn _).setThread hn _, ?_⟩
    simp [hs, hne, hq.user next List.mem_cons_self]

theorem cores (h : Yields P s c curr next s₁) (hq : Ready P s q) (hcores : Cores P s)
    (hc : c < P.coresNum) (hon : OnCore P s c curr) : Cores P s₁ := by
  have hco : (s.threads curr).coreid.toNat = c := by rw [hon.coreid]; rfl
  -- The head of the queue is a user thread that no core has.
  have hhead : s.queue.head = some next → next ∈ q ∧ next ≠ curr := by
    intro hh
    obtain ⟨r, rfl⟩ := hq.eq_cons hh
    exact ⟨List.mem_cons_self .., fun he => hq.not_mem hon (he ▸ List.mem_cons_self ..)⟩
  cases h with
  | stay hsize hs =>
    rw [State.mark_eq_self _ (hon.active.resolve_right hs)]
    exact hcores
  | toIdle hsize hs hi hne =>
    rw [hco] at hi
    subst hi
    have hsys := hcores.system next hc
    have huser := (hcores.user_of_ne hon hne).1
    have hlt : next < P.kthreadMax := by unfold Platform.kthreadMax; omega
    refine hcores.move hc hon hlt ?_ (fun _ => rfl) ?_ (by omega) ?_ ?_
    · exact fun ha => hne (hcores.unique hon ⟨hlt, ha, hsys.1⟩)
    · simp [State.retired, hne, Active]
    · simp [State.retired, hne.symm, hsys.1]
    · intro j hji hjn
      simp [State.retired, hji, hjn]
  | fromIdle hsize hh hs hi =>
    obtain ⟨hm, hne⟩ := hhead hh
    have hlt := (hq.user _ hm).2
    refine hcores.move hc hon hlt (hq.not_active hm) ?_ ?_ ?_ ?_ ?_
    · exact fun hsys => absurd (hq.user _ hm).1 (by omega)
    · simp [hne.symm, Active]
    · intro hsys
      simp [hne.symm, (hcores.system curr hsys).1]
    · simp [hne]
    · intro j hji hjn
      simp [hji, hjn]
  | swap hsize hh hs hi hsch =>
    obtain ⟨hm, hne⟩ := hhead hh
    have hlt := (hq.user _ hm).2
    have huser := (threadSchedule_user hsch).1
    refine hcores.move hc hon hlt (hq.not_active hm) ?_ ?_ (by omega) ?_ ?_
    · exact fun hsys => absurd (hq.user _ hm).1 (by omega)
    · simp [hne.symm, Active, threadSchedule_state hsch]
    · simp [hne, threadSchedule_coreid hsch]
    · intro j hji hjn
      simp [hji, hjn, threadSchedule_state hsch, threadSchedule_coreid hsch]
  | handOver hsize hh hs hi hne' =>
    obtain ⟨hm, hne⟩ := hhead hh
    have hlt := (hq.user _ hm).2
    rw [hco] at hi
    have huser := (hcores.user_of_ne hon hi).1
    refine hcores.move hc hon hlt (hq.not_active hm) ?_ ?_ (by omega) ?_ ?_
    · exact fun hsys => absurd (hq.user _ hm).1 (by omega)
    · simp [State.retired, hne', Active]
    · simp [State.retired, hne]
    · intro j hji hjn
      simp [State.retired, hji, hjn]

end Yields

/-- A slot that is free or holds a zombie is none of the system. -/
theorem Cores.le_of_free (h : Cores P s)
    (hs : (s.threads i).state = .notStarted ∨ (s.threads i).state = .zombie) : P.coresNum ≤ i := by
  by_contra hsys
  rcases (h.system i (by omega)).2 with hr | hr <;> rcases hs with hs | hs <;> rw [hs] at hr <;> cases hr

namespace Cores

theorem congr (h : Cores P s) (ht : ∀ j, (s'.threads j).state = (s.threads j).state ∧
    (s'.threads j).coreid = (s.threads j).coreid) : Cores P s' := by
  refine h.same ?_ (fun j _ => (ht j).2) fun j _ => (ht j).1
  intro j
  unfold Active
  rw [(ht j).1]

/-- A thread may change if its core and its activity do not. -/
theorem setThread (h : Cores P s) {t : Thread} (ha : Active t ↔ Active (s.threads i))
    (hco : Active t ∨ i < P.coresNum → t.coreid = (s.threads i).coreid)
    (hs : i < P.coresNum → t.state = (s.threads i).state) : Cores P (s.setThread i t) := by
  refine h.same ?_ ?_ ?_
  · intro j
    by_cases hj : j = i
    · subst hj
      simpa using ha
    · simp [hj]
  · intro j hj
    by_cases hji : j = i
    · subst hji
      simpa using hco (hj.imp_left ha.mpr)
    · simp [hji]
  · intro j hj
    by_cases hji : j = i
    · subst hji
      simpa using hs hj
    · simp [hji]

/-- A slot outside the system that no core has may be put to use or cleared. -/
theorem setSlot (h : Cores P s) {t : Thread} (hi : P.coresNum ≤ i) (ha : ¬ Active (s.threads i))
    (ht : ¬ Active t) : Cores P (s.setThread i t) :=
  h.setThread (iff_of_false ht ha) (fun h => h.elim (fun h => absurd h ht) fun h => by omega) fun h => by
    omega

end Cores

theorem Ready.ne_of_state (hq : Ready P s q) (hi : i ∈ q) :
    (s.threads i).state ≠ .notStarted ∧ (s.threads i).state ≠ .zombie := by
  rcases hq.state i hi with hs | hs <;> simp [hs]

namespace Reaps

variable {s₁ : State}

/-- The thread that was handed a zombie is outside the queue, whose threads are linked to
each other. -/
theorem ready (h : Reaps P s curr freed s₁) (hq : Ready P s q) : Ready P s₁ q := by
  cases h with
  | none => exact hq
  | @some z hn hz =>
    have hzq : z ∉ q := fun hm => (hq.ne_of_state hm).2 hz
    have hcurr : curr ∉ q := fun hm => hzq (hq.linked.next_mem hm hn)
    have hfree : Ready P (threadFree P s z) q :=
      hq.congr (by simp) (by simp) (by simp) fun i hi =>
        .of_eq (by simp [ne_of_mem_of_not_mem hi hzq])
    exact hfree.setThread hcurr _

theorem cores (h : Reaps P s curr freed s₁) (hcores : Cores P s) : Cores P s₁ := by
  cases h with
  | none => exact hcores
  | @some z hn hz =>
    have hle := hcores.le_of_free (.inr hz)
    have hfree : Cores P (threadFree P s z) :=
      (hcores.setSlot hle (t := { s.threads z with coreid := -1, state := .notStarted, tid := -1 })
        (by simp [Active, hz]) (by simp [Active])).congr (by simp)
    exact hfree.setThread Iff.rfl (fun _ => rfl) fun _ => rfl

end Reaps

namespace Allocs

variable {s₁ : State}

theorem not_mem (h : Allocs P s i freed s₁) (hq : Ready P s q) : i ∉ q :=
  fun hm => h.free.elim (hq.ne_of_state hm).1 (hq.ne_of_state hm).2

theorem ready (h : Allocs P s i freed s₁) (hq : Ready P s q) : Ready P s₁ q := by
  obtain ⟨t, -, ht⟩ := h.threads
  exact (hq.setThread (h.not_mem hq) t).congr (by rw [h.queue]; rfl) (by rw [h.queue]; rfl)
    (by rw [h.queue]; rfl) fun j _ => .of_eq (by rw [ht]; rfl)

/-- The new thread is not in the queue yet when it has its stacks. -/
theorem ready_initThread (h : Allocs P s i freed s₁) (hq : Ready P s q) (ks : ℕ → ℕ)
    (start arg kstack ustack : ℕ) :
    Ready P (initThread P { s₁ with kpages := ks } i start arg kstack ustack) q :=
  ((h.ready hq).setThread (h.not_mem hq) _).congr rfl rfl rfl fun _ _ => .of_eq rfl

theorem cores (h : Allocs P s i freed s₁) (hcores : Cores P s) : Cores P s₁ := by
  obtain ⟨t, hs, ht⟩ := h.threads
  have hset : Cores P (s.setThread i t) := by
    apply hcores.setSlot (hcores.le_of_free h.free)
    · rcases h.free with hf | hf <;> simp [Active, hf]
    · simp [Active, hs]
  exact hset.congr fun j => by rw [ht]; exact ⟨rfl, rfl⟩

end Allocs

namespace Creates

variable {s₁ : State} {start arg : ℕ}

theorem order (h : Creates P s start arg o s₁) (hq : Ready P s q) :
    Shifts P ⟨s, a, o, s₁⟩ q := by
  cases h with
  | full => exact ⟨q, hq, by simp [scheduled, dispatched]⟩
  | noPages hlt ha => exact ⟨q, ha.ready hq, by simp [scheduled, dispatched]⟩
  | @created i freed s₁ kstack ustack _ hlt ha hk hu hne hsch =>
    obtain ⟨t, hst, ht⟩ := ha.threads
    have hinit := ha.ready_initThread hq
      (update (update s₁.kpages kstack 1) ustack 1) start arg kstack ustack
    have hpush := hinit.push (ha.not_mem hq) (.inl (by simp [initThread, ht, hst])) hsch
    exact ⟨q ++ [i], hpush, by simp [scheduled, dispatched]⟩

theorem cores (h : Creates P s start arg o s₁) (hcores : Cores P s) : Cores P s₁ := by
  cases h with
  | full => exact hcores
  | noPages hlt ha => exact ha.cores hcores
  | @created i freed s₁ kstack ustack _ hlt ha hk hu hne hsch =>
    obtain ⟨t, hst, ht⟩ := ha.threads
    have hle := hcores.le_of_free ha.free
    have hset : Cores P (s₁.setThread i { s₁.threads i with coreid := -1 }) := by
      apply (ha.cores hcores).setSlot hle <;> simp [ht, Active, hst]
    refine hset.congr fun j => ?_
    rw [threadSchedule_state hsch, threadSchedule_coreid hsch]
    by_cases hj : j = i
    · subst hj
      simp [initThread]
    · simp [initThread, hj]

end Creates

theorem shifts_step (hq : Ready P s q) (hstep : steps P s a o s') : Shifts P ⟨s, a, o, s'⟩ q := by
  -- every step but a yield and a creation leaves the queue as it is
  have same : Ready P s' q → scheduled P ⟨s, a, o, s'⟩ = [] → dispatched P ⟨s, a, o, s'⟩ = [] →
      Shifts P ⟨s, a, o, s'⟩ q := by
    intro h hin hout
    exact ⟨q, h, by rw [hin, hout, List.append_nil, List.nil_append]⟩
  cases moves_of_step hstep with
  | idle | refused => exact same hq rfl rfl
  | fault | unfenced | tookFirst | opened | took | stayed | switchFailed | joinsNow | joinWakes | wakes =>
    exact same (hq.congr rfl rfl rfl fun i _ => .of_eq rfl) rfl rfl
  | yields hc ha hcurr htid hy =>
    obtain ⟨r, hr, heq⟩ := hy.order hq hc (threadGetCurr_some hcurr)
    exact ⟨r, hr.congr rfl rfl rfl fun i _ => .of_eq rfl, heq⟩
  | switched =>
    refine same (hq.congr rfl rfl rfl fun i _ => ?_) rfl rfl
    constructor <;> rw [contextSwitch_apply]
  | @cleaned _ _ via _ _ hc hf hx hr =>
    refine same ((hr.ready hq).congr rfl rfl rfl fun i _ => .of_eq rfl) ?_ ?_ <;> cases via <;> rfl
  | started hc hf hcurr hr =>
    exact same ((hr.ready hq).congr rfl rfl rfl fun i _ => .of_eq rfl) rfl rfl
  | creates hc hf hcr => exact hcr.order hq
  | exits hc hf hcurr hu he =>
    refine same ((hq.setThread (hq.not_mem (threadGetCurr_some hcurr)) _).congr ?_ ?_ ?_ fun i _ =>
      .of_eq (congrFun he.threads i)) rfl rfl <;> rw [State.setFrame_queue, he.queue] <;> rfl
  | joinSleeps hc hf hcurr | sleeps hc hf hcurr =>
    exact same ((hq.setThread (hq.not_mem (threadGetCurr_some hcurr)) _).congr rfl rfl rfl fun i _ =>
      .of_eq rfl) rfl rfl
  | broadcasts hc hf hb =>
    obtain ⟨l, -, rfl⟩ := condBroadcast_cases hb
    exact same (hq.congr rfl rfl rfl fun i _ => .of_eq rfl) rfl rfl

theorem mem_scheduled (hstep : steps P s a o s') (hi : i ∈ scheduled P ⟨s, a, o, s'⟩) :
    (∃ c, OnCore P s c i) ∨ ∃ tid, o.ret = .created tid i := by
  cases moves_of_step hstep with
  | yields hc ha hcurr =>
    simp only [scheduled] at hi
    split_ifs at hi
    · obtain rfl := List.mem_singleton.mp hi
      exact .inl ⟨_, threadGetCurr_some hcurr⟩
    · cases hi
  | creates hc hf hcr =>
    cases hcr with
    | full | noPages => cases hi
    | created =>
      obtain rfl := List.mem_singleton.mp hi
      exact .inr ⟨_, rfl⟩
  | @cleaned c curr via => cases via <;> cases hi
  | _ => cases hi

/-- The queue after a step holds nothing but what it held, a thread that was current, and a
thread that was created. -/
theorem ready_step (hq : Ready P s q) (hstep : steps P s a o s') :
    ∃ r, Ready P s' r ∧
      ∀ i ∈ r, i ∈ q ∨ (∃ c, OnCore P s c i) ∨ ∃ tid, o.ret = .created tid i := by
  obtain ⟨r, hr, heq⟩ := shifts_step hq hstep
  refine ⟨r, hr, fun i hi => ?_⟩
  have hmem : i ∈ q ++ scheduled P ⟨s, a, o, s'⟩ := heq ▸ List.mem_append_right _ hi
  exact (List.mem_append.mp hmem).imp_right (mem_scheduled hstep)

theorem cores_step (h : Cores P s) (hq : Ready P s q) (hstep : steps P s a o s') : Cores P s' := by
  cases moves_of_step hstep with
  | idle | refused => exact h
  | fault | unfenced | tookFirst | opened | took | stayed | switchFailed | joinsNow | joinWakes | wakes =>
    exact h.congr fun _ => ⟨rfl, rfl⟩
  | yields hc ha hcurr htid hy =>
    exact (hy.cores hq h hc (threadGetCurr_some hcurr)).congr fun _ => ⟨rfl, rfl⟩
  | switched =>
    refine h.congr fun j => ?_
    constructor <;> rw [contextSwitch_apply]
  | cleaned hc hf hx hr | started hc hf hcurr hr =>
    exact (hr.cores h).congr fun _ => ⟨rfl, rfl⟩
  | creates hc hf hcr => exact hcr.cores h
  | exits hc hf hcurr hu he =>
    have hon := threadGetCurr_some hcurr
    refine (h.setThread (t := { s.threads _ with state := .terminated }) ?_ (fun _ => rfl) ?_).congr
      fun j => by rw [State.setFrame_threads, he.threads]; exact ⟨rfl, rfl⟩
    · exact iff_of_true (.inr rfl) hon.active
    · exact fun hsys => absurd hu.1 (by omega)
  | joinSleeps | sleeps =>
    exact h.congr fun j => ⟨condWait_proj Thread.state s _ _ _ _ (fun _ _ => rfl) j,
      condWait_proj Thread.coreid s _ _ _ _ (fun _ _ => rfl) j⟩
  | broadcasts hc hf hb =>
    obtain ⟨l, -, rfl⟩ := condBroadcast_cases hb
    exact h.congr fun _ => ⟨rfl, rfl⟩

structure Table (P : Platform) (s : State) : Prop where
  ready : ∃ q, Ready P s q
  cores : Cores P s

theorem table_step (h : Table P s) (hstep : steps P s a o s') : Table P s' := by
  obtain ⟨q, hq⟩ := h.ready
  obtain ⟨r, hr, -⟩ := ready_step hq hstep
  exact ⟨⟨r, hr⟩, cores_step h.cores hq hstep⟩

end Nanvix.Pm
