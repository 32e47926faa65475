import Mathlib.Logic.Relation
import Nanvix.Lib.Count
import Nanvix.Pm.Sections

/-! Thread creations that fail. `thread_create` claims a slot first and asks for the two stacks then.
Without a slot nothing has happened. Without a page for a stack the slot stays claimed: it is
started, has no thread, and nobody ever releases it. -/

namespace Nanvix.Pm

open Nanvix.Lib Function

variable {P : Platform} {s r t : State} {i : ℕ} {o : Out}

def Thread.available (x : Thread) : Bool :=
  decide (x.state = .notStarted) || decide (x.state = .zombie)

/-- How many threads can be created before a slot has to be given up. -/
def creatable (P : Platform) (s : State) : ℕ :=
  tally Thread.available (fun i => s.threads (i + 1)) (P.kthreadMax - 1)

def NoSlot (P : Platform) (s : State) : Prop :=
  ∀ i, 1 ≤ i → i < P.kthreadMax → (s.threads i).available = false

instance (P : Platform) (s : State) : Decidable (NoSlot P s) :=
  decidable_of_iff (∀ i < P.kthreadMax, 1 ≤ i → (s.threads i).available = false)
    ⟨fun h i h1 hi => h i hi h1, fun h i hi h1 => h i h1 hi⟩

def Reclaims (P : Platform) (s t : State) : Prop :=
  ∃ i < P.kthreadMax, (s.threads i).state = .zombie ∧ t = threadFree P s i

/-- What a failed creation is to leave as it is. -/
structure Untouched (s t : State) : Prop where
  state : ∀ i, (t.threads i).state = (s.threads i).state
  tid : ∀ i, (t.threads i).tid = (s.threads i).tid
  nthreads : t.nthreads = s.nthreads
  queue : t.queue = s.queue
  nextTid : t.nextTid = s.nextTid
  kpages : t.kpages = s.kpages

/-- Nothing has happened but that zombies were released. -/
def Undone (P : Platform) (s t : State) : Prop :=
  ∃ r, Relation.ReflTransGen (Reclaims P) s r ∧ Untouched r t

/-- A creation that returns `-EAGAIN`. -/
def FailedCreate (e : Event State Act Out) : Prop :=
  (∃ c start arg kpage upage, e.act = .create c start arg kpage upage) ∧ e.out.ret = .failed .EAGAIN

theorem allocSlot_eq_none_iff : allocSlot P s = none ↔ NoSlot P s := by
  unfold allocSlot NoSlot Thread.available
  rw [List.find?_eq_none, List.range_eq_range', List.tail_range']
  simp only [List.mem_range'_1, decide_eq_true_eq, Bool.or_eq_false_iff, decide_eq_false_iff_not, not_or]
  constructor
  · intro h i h1 hi
    exact h i (by omega)
  · intro h i hi
    exact h i (by omega) (by omega)

/-- A creation that fails has found no slot, or it leaves the one it found claimed. -/
theorem threadCreate_failed {start arg : ℕ} {kpage upage : Option ℕ}
    (h : threadCreate P s start arg kpage upage = .ok (o, t)) (hf : o.ret = .failed .EAGAIN) :
    (NoSlot P s ∧ t = s) ∨
      ¬ NoSlot P s ∧ ∃ i freed, (1 ≤ i ∧ i < P.kthreadMax) ∧ Allocs P s i freed t := by
  by_cases hno : NoSlot P s
  · have halloc : threadAlloc P s = none := by rw [threadAlloc, allocSlot_eq_none_iff.mpr hno]
    rw [threadCreate, halloc] at h
    cases h
    exact .inl ⟨hno, rfl⟩
  · refine .inr ⟨hno, ?_⟩
    cases halloc : threadAlloc P s with
    | none =>
      unfold threadAlloc at halloc
      split at halloc
      · rename_i hnone
        exact absurd (allocSlot_eq_none_iff.mp hnone) hno
      · split at halloc <;> cases halloc
    | some x =>
      obtain ⟨i, freed, s₁⟩ := x
      obtain ⟨hlt, ha⟩ := threadAlloc_cases halloc
      refine ⟨i, freed, hlt, ?_⟩
      rw [threadCreate, halloc] at h
      dsimp only at h
      split at h
      · cases h
        exact ha
      · rename_i kstack s₂ hkget
        obtain ⟨hk, rfl⟩ := kpageGet_some hkget
        split at h
        · cases h
          -- the page that was taken is put back
          rwa [show kpagePut { s₁ with kpages := update s₁.kpages kstack 1 } (some kstack) = s₁ by
            simp [kpagePut, ← hk]]
        · split at h
          · cases h
          · cases h
            cases hf

theorem FailedCreate.cases {e : Event State Act Out} (hs : steps P e.pre e.act e.out e.post)
    (hf : FailedCreate e) : (NoSlot P e.pre ∧ e.post = e.pre) ∨
      ¬ NoSlot P e.pre ∧ ∃ i freed, (1 ≤ i ∧ i < P.kthreadMax) ∧ Allocs P e.pre i freed e.post := by
  obtain ⟨s, a, o, t⟩ := e
  obtain ⟨⟨c, start, arg, kpage, upage, rfl⟩, hret⟩ := hf
  change step P s (.create c start arg kpage upage) = (o, t) at hs
  change o.ret = .failed .EAGAIN at hret
  unfold step at hs
  dsimp only [callStep] at hs
  split at hs
  · split at hs
    · split at hs
      · cases hs
        cases hret
      · cases hc : threadCreate P s start arg kpage upage with
        | error f =>
          rw [hc] at hs
          cases hs
          cases hret
        | ok x =>
          rw [hc] at hs
          change x = (o, t) at hs
          subst hs
          exact threadCreate_failed hc hret
    · cases hs
      cases hret
  · cases hs
    cases hret

/-- Releasing zombies does not start a thread in a slot that is available. -/
theorem available_of_reclaims (h : Relation.ReflTransGen (Reclaims P) s r)
    (ha : (s.threads i).available = true) : (r.threads i).available = true := by
  induction h with
  | refl => exact ha
  | tail _ hstep ih =>
    obtain ⟨j, -, -, rfl⟩ := hstep
    rw [threadFree_threads]
    by_cases hj : i = j
    · subst hj
      simp [Thread.available]
    · rwa [update_of_ne hj]

theorem Untouched.refl (s : State) : Untouched s s := ⟨fun _ => rfl, fun _ => rfl, rfl, rfl, rfl, rfl⟩

/-- The slot that a creation leaves claimed was available and is not any more. -/
theorem Allocs.claims {freed : Option ℕ} (h : Allocs P s i freed t) :
    (s.threads i).available = true ∧ ∃ x : Thread, x.available = false ∧
      t.threads = update s.threads i x := by
  obtain ⟨x, hx, hthreads⟩ := h.threads
  refine ⟨?_, x, by simp [Thread.available, hx], hthreads⟩
  rcases h.free with hs | hs <;> simp [Thread.available, hs]

theorem Allocs.creatable {freed : Option ℕ} (h : Allocs P s i freed t)
    (hlt : 1 ≤ i ∧ i < P.kthreadMax) : creatable P t + 1 = creatable P s := by
  obtain ⟨ha, x, hx, hthreads⟩ := h.claims
  obtain ⟨k, rfl⟩ : ∃ k, i = k + 1 := ⟨i - 1, by omega⟩
  have hshift : (fun j => update s.threads (k + 1) x (j + 1)) =
      update (fun j => s.threads (j + 1)) k x := by
    funext j
    by_cases hj : j = k
    · subst hj
      simp
    · rw [update_of_ne hj, update_of_ne (by omega)]
  have hmove := tally_update Thread.available (fun j => s.threads (j + 1)) x
    (show k < P.kthreadMax - 1 by omega)
  rw [if_pos ha, hx] at hmove
  unfold Pm.creatable
  rw [hthreads, hshift]
  simpa using hmove

/-- A failed creation is undone exactly if there was no slot. -/
theorem FailedCreate.undone_iff {e : Event State Act Out} (hs : steps P e.pre e.act e.out e.post)
    (hf : FailedCreate e) : Undone P e.pre e.post ↔ NoSlot P e.pre := by
  rcases hf.cases hs with ⟨hno, heq⟩ | ⟨hslot, i, freed, -, ha⟩
  · refine iff_of_true ?_ hno
    rw [heq]
    exact ⟨e.pre, .refl, .refl e.pre⟩
  · refine iff_of_false ?_ hslot
    rintro ⟨r, hr, hsame⟩
    obtain ⟨hav, x, hx, hthreads⟩ := ha.claims
    have hstate := hsame.state i
    have havr := available_of_reclaims hr hav
    rw [hthreads, update_self] at hstate
    unfold Thread.available at hx havr
    rw [hstate, havr] at hx
    cases hx

/-- Each failed creation that had found a slot costs one thread. -/
theorem FailedCreate.creatable {e : Event State Act Out} (hs : steps P e.pre e.act e.out e.post)
    (hf : FailedCreate e) :
    creatable P e.post + (if NoSlot P e.pre then 0 else 1) = creatable P e.pre := by
  rcases hf.cases hs with ⟨hno, heq⟩ | ⟨hslot, i, freed, hlt, ha⟩
  · rw [if_pos hno, heq, Nat.add_zero]
  · rw [if_neg hslot]
    exact ha.creatable hlt

/-- What a sequence of failed creations costs. -/
theorem creatable_of_failed {l : List (Event State Act Out)} (h : Run (steps P) s l t)
    (hf : ∀ e ∈ l, FailedCreate e) :
    creatable P t + l.countP (fun e => decide (¬ NoSlot P e.pre)) = creatable P s := by
  induction h with
  | nil => rfl
  | @snoc l u a o t _ hs ih =>
    have hlast := FailedCreate.creatable (e := ⟨u, a, o, t⟩) hs (hf _ (by simp))
    have hrest := ih fun e he => hf e (by simp [he])
    rw [List.countP_append, List.countP_singleton]
    by_cases hno : NoSlot P u
    · simp only [hno, if_true] at hlast
      simp only [hno, not_true_eq_false, decide_false, Bool.false_eq_true, if_false]
      omega
    · simp only [hno, if_false] at hlast
      simp only [hno, not_false_eq_true, decide_true, if_true]
      omega

/-- In every run, a creation that fails leaves everything as it was, and as many threads to be created,
exactly if it finds no slot; and a sequence of failed creations takes away one thread for every one of
them that had found a slot. -/
theorem failed_create_undone_iff {tr : List (Event State Act Out)} (h : Runs P tr s) :
    (∀ e ∈ tr, FailedCreate e → ((Undone P e.pre e.post ↔ NoSlot P e.pre) ∧
      (creatable P e.pre ≤ creatable P e.post ↔ NoSlot P e.pre))) ∧
    ∀ l t, Run (steps P) s l t → (∀ e ∈ l, FailedCreate e) →
      creatable P t + l.countP (fun e => decide (¬ NoSlot P e.pre)) = creatable P s := by
  refine ⟨fun e he hf => ?_, fun l t hl hf => creatable_of_failed hl hf⟩
  have hs : steps P e.pre e.act e.out e.post := Run.step_of_mem h he
  refine ⟨hf.undone_iff hs, ?_⟩
  have hcount := hf.creatable hs
  by_cases hno : NoSlot P e.pre
  · simp only [hno, if_true] at hcount
    simp only [hno, iff_true]
    omega
  · simp only [hno, if_false] at hcount
    simp only [hno, iff_false]
    omega

/-- The master creates two threads, and a third creation finds no slot. -/
theorem failed_create_without_slot : ∃ tr s, Runs pairPlatform tr s ∧
    tr.map (·.act) = [.create 0 1 0 (some 0) (some 1), .create 0 1 0 (some 2) (some 3),
      .create 0 1 0 (some 4) (some 5)] ∧
    ∃ e ∈ tr, FailedCreate e ∧ NoSlot pairPlatform e.pre ∧ Undone pairPlatform e.pre e.post := by
  obtain ⟨tr, s, hrun, hacts, hfail⟩ := exists_runs (P := pairPlatform)
    [.create 0 1 0 (some 0) (some 1), .create 0 1 0 (some 2) (some 3), .create 0 1 0 (some 4) (some 5)]
    (fun r => ∃ e ∈ r.1, e.act = .create 0 1 0 (some 4) (some 5) ∧ e.out.ret = .failed .EAGAIN ∧
      NoSlot pairPlatform e.pre) (by decide +kernel)
  obtain ⟨e, he, hact, hret, hno⟩ := hfail
  have hf : FailedCreate e := ⟨⟨0, 1, 0, some 4, some 5, hact⟩, hret⟩
  exact ⟨tr, s, hrun, hacts, e, he, hf, hno, ((failed_create_undone_iff hrun).1 e he hf).1.mpr hno⟩

/-- There is no page for a kernel stack, and then none for a user stack: both slots stay claimed, the
threads are two more, and no thread can be created any more. -/
theorem not_failed_create_undone : ∃ tr s, Runs pairPlatform tr s ∧
    tr.map (·.act) = [.create 0 1 0 none none, .create 0 1 0 (some 0) none,
      .create 0 1 0 (some 0) (some 1)] ∧
    (∀ e ∈ tr, e.out.ret = .failed .EAGAIN) ∧ creatable pairPlatform (boot pairPlatform) = 2 ∧
    creatable pairPlatform s = 0 ∧ (s.threads 2).state = .started ∧ (s.threads 3).state = .started ∧
    s.nthreads = 4 ∧ ∃ e ∈ tr, FailedCreate e ∧ ¬ Undone pairPlatform e.pre e.post := by
  obtain ⟨tr, s, hrun, hacts, hret, h2, h0, hst, hst', hn, e, he, hact, hslot⟩ := exists_runs (P := pairPlatform)
    [.create 0 1 0 none none, .create 0 1 0 (some 0) none, .create 0 1 0 (some 0) (some 1)]
    (fun r => (∀ e ∈ r.1, e.out.ret = .failed .EAGAIN) ∧ creatable pairPlatform (boot pairPlatform) = 2 ∧
      creatable pairPlatform r.2 = 0 ∧ (r.2.threads 2).state = .started ∧ (r.2.threads 3).state = .started ∧
      r.2.nthreads = 4 ∧ ∃ e ∈ r.1, e.act = .create 0 1 0 none none ∧ ¬ NoSlot pairPlatform e.pre)
    (by decide +kernel)
  have hf : FailedCreate e := ⟨⟨0, 1, 0, none, none, hact⟩, hret e he⟩
  refine ⟨tr, s, hrun, hacts, hret, h2, h0, hst, hst', hn, e, he, hf, ?_⟩
  exact mt (hf.undone_iff (Run.step_of_mem hrun he)).mp hslot

end Nanvix.Pm
