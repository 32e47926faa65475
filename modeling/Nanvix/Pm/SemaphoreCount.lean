import Nanvix.Pm.SemaphoreList

/-! The counter of a semaphore is the initial value with every operation once. While it is
positive and nobody is in a section of the semaphore, nobody waits; a broadcast ends after a number
of its own steps that its list tells, whatever other threads do. -/

namespace Nanvix.Pm.Semaphore

open Nanvix.Lib Function

variable {s s' : State} {a : Act} {r : Ret} {t u : ℕ} {p : Place} {l : List ℕ}

/-! ### The counter -/

def Place.waits : Place → Bool
  | .waitLock | .waitLink | .waitPush | .waitUnlock | .asleepUnlock => true
  | _ => false

def Place.casts : Place → Bool
  | .castLock | .castTest | .castWake | .castNext => true
  | _ => false

theorem Place.holds_of_waits (h : p.waits = true) : p.holds = true := by
  cases p <;> first | rfl | cases h

theorem Place.holds_of_casts (h : p.casts = true) : p.holds = true := by
  cases p <;> first | rfl | cases h

/-- The counter, and what its holder knows of it. -/
structure Counted (s : State) : Prop where
  nonneg : 0 ≤ s.count
  zero : ∀ t, (s.place t).waits = true → s.count = 0
  positive : ∀ t, s.place t = .downDec → 0 < s.count
  empty : 0 < s.count → s.queue ≠ none → ∃ t, (s.place t).casts = true

theorem Moves.place (hm : Moves s t r s') : ∃ p, s'.place = update s.place t p := by
  cases hm with
  | stays | null => exact ⟨s.place t, (update_eq_self ..).symm⟩
  | _ => exact ⟨_, rfl⟩

/-- A move after which the thread knows as much of the counter as before, or has tested it. -/
structure Steady (s : State) (p p' : Place) : Prop where
  waits : p'.waits = true → p.waits = true ∨ ¬ 0 < s.count
  dec : p' = .downDec → 0 < s.count
  casts : p.casts = true → p'.casts = true ∨ s.queue = none

theorem Goes.steady {p' : Place} (h : Goes s p p') : Steady s p p' := by
  cases h <;> constructor <;> simp_all [Place.waits, Place.casts]

theorem Locks.steady {p' : Place} (h : Locks p p') : Steady s p p' := by
  cases h <;> constructor <;> simp [Place.waits, Place.casts]

theorem Unlocks.steady {p' : Place} (h : Unlocks p r p') : Steady s p p' := by
  cases h <;> constructor <;> simp [Place.waits, Place.casts]

theorem LocksCond.steady {p' : Place} (h : LocksCond p p') : Steady s p p' := by
  cases h <;> constructor <;> simp [Place.waits, Place.casts]

theorem UnlocksCond.steady {p' : Place} (h : UnlocksCond p p') : Steady s p p' := by
  cases h <;> constructor <;> simp [Place.waits, Place.casts]

namespace Counted

/-- What there is to show for the thread that moves. -/
theorem of_mover (h : Counted s) (hk : Locked s) (hm : Moves s t r s') (hnonneg : 0 ≤ s'.count)
    (hzero : (s'.place t).waits = true → s'.count = 0) (hpos : s'.place t = .downDec → 0 < s'.count)
    (hempty : 0 < s'.count → s'.queue ≠ none → ∃ u, (s'.place u).casts = true) : Counted s' := by
  obtain ⟨p, hs⟩ := hm.place
  refine ⟨hnonneg, fun u hu => ?_, fun u hu => ?_, hempty⟩
  · by_cases hut : u = t
    · exact hzero (hut ▸ hu)
    · rw [place_of_ne hs hut] at hu
      rw [(hk.frame (Place.holds_of_waits hu) hut hm).1]
      exact h.zero u hu
  · by_cases hut : u = t
    · exact hpos (hut ▸ hu)
    · rw [place_of_ne hs hut] at hu
      have hholds : (s.place u).holds = true := by rw [hu]; rfl
      rw [(hk.frame hholds hut hm).1]
      exact h.positive u hu

/-- A move that leaves the counter and the list alone. -/
theorem same (h : Counted s) (hk : Locked s) (hm : Moves s t r s') (hc : s'.count = s.count)
    (hq : s'.queue = s.queue) (hp : Steady s (s.place t) (s'.place t)) : Counted s' := by
  refine h.of_mover hk hm (hc ▸ h.nonneg) ?_ (fun hd => hc ▸ hp.dec hd) ?_
  · intro hw
    rw [hc]
    rcases hp.waits hw with hw | hlt
    · exact h.zero t hw
    · have := h.nonneg
      omega
  · intro hlt hne
    rw [hc] at hlt
    rw [hq] at hne
    obtain ⟨u, hu⟩ := h.empty hlt hne
    obtain ⟨p, hs⟩ := hm.place
    by_cases hut : u = t
    · subst hut
      exact ⟨u, (hp.casts hu).resolve_right hne⟩
    · exact ⟨u, by rwa [place_of_ne hs hut]⟩

end Counted

theorem goto_place_self (s : State) (t : ℕ) (p : Place) : (s.goto t p).place t = p :=
  update_self ..

theorem counted_step (h : Counted s) (hk : Locked s) (hm : Moves s t r s') : Counted s' := by
  cases hm with
  | stays | null => exact h
  | goes hp => exact h.same hk (.goes hp) rfl rfl (by rw [goto_place_self]; exact hp.steady)
  | locks hp hl => exact h.same hk (.locks hp hl) rfl rfl (by rw [goto_place_self]; exact hp.steady)
  | unlocks hp => exact h.same hk (.unlocks hp) rfl rfl (by rw [goto_place_self]; exact hp.steady)
  | locksCond hp hl => exact h.same hk (.locksCond hp hl) rfl rfl (by rw [goto_place_self]; exact hp.steady)
  | unlocksCond hp => exact h.same hk (.unlocksCond hp) rfl rfl (by rw [goto_place_self]; exact hp.steady)
  | links hp =>
    refine h.same hk (.links hp) rfl rfl ?_
    rw [goto_place_self, hp]
    constructor <;> simp [Place.waits, Place.casts]
  | awakes hp ht =>
    refine h.same hk (.awakes hp ht) rfl rfl ?_
    rw [goto_place_self, hp]
    constructor <;> simp [Place.waits, Place.casts]
  | wakes hp hq =>
    refine h.same hk (.wakes hp hq) rfl rfl ?_
    rw [goto_place_self, hp]
    constructor <;> simp [Place.waits, Place.casts]
  | takes hp =>
    have hpos := h.positive t hp
    refine h.of_mover hk (.takes hp) ?_ ?_ ?_ ?_
    · show 0 ≤ s.count - 1
      omega
    · rw [goto_place_self]
      exact fun hw => by cases hw
    · rw [goto_place_self]
      exact fun hd => by cases hd
    · -- A waiting thread would mean that somebody else is in the middle of a broadcast.
      intro _ hne
      obtain ⟨u, hu⟩ := h.empty hpos hne
      obtain rfl := hk.unique (Place.holds_of_casts hu) (t := u) (u := t) (by rw [hp]; rfl)
      rw [hp] at hu
      cases hu
  | adds hp =>
    have := h.nonneg
    refine h.of_mover hk (.adds hp) ?_ ?_ ?_ fun _ _ => ⟨t, ?_⟩
    · show 0 ≤ s.count + 1
      omega
    all_goals rw [goto_place_self]
    · exact fun hw => by cases hw
    · exact fun hd => by cases hd
    · rfl
  | pushes hp =>
    have hz := h.zero t (by rw [hp]; rfl)
    refine h.of_mover hk (.pushes hp) h.nonneg (fun _ => hz) ?_ fun hlt => ?_
    · rw [goto_place_self]
      exact fun hd => by cases hd
    · have hlt : 0 < s.count := hlt
      omega
  | pops hp hq =>
    refine h.of_mover hk (.pops hp hq) h.nonneg ?_ ?_ fun _ _ => ⟨t, ?_⟩
    all_goals rw [goto_place_self]
    · exact fun hw => by cases hw
    · exact fun hd => by cases hd
    · rfl

theorem counted_init (x : ℕ) (next : ℕ → Option ℕ) : Counted (init x next) where
  nonneg := Int.natCast_nonneg x
  zero t ht := by cases ht
  positive t ht := by cases ht
  empty _ hq := absurd rfl hq

structure Sound (s : State) : Prop where
  locked : Locked s
  listed : ∃ l, Listed s l
  counted : Counted s

theorem sound_step (h : Sound s) (hstep : steps s a r s') : Sound s' :=
  have hm := moves_of_step hstep
  ⟨h.locked.step hm, listed_step h.listed h.locked hm, counted_step h.counted h.locked hm⟩

theorem sound_of_runs {x : ℕ} {next : ℕ → Option ℕ} {tr : List (Event State Act Ret)} (h : Runs x next tr s) :
    Sound s :=
  h.invariant (P := fun _ => True) ⟨locked_init x next, ⟨[], listed_init x next⟩, counted_init x next⟩
    (fun _ _ => trivial) fun _ hs _ hi => sound_step hi hs

/-! ### Completed operations -/

/-- How often a trace shows `r`. -/
def shown (r : Ret) (tr : List (Event State Act Ret)) : ℕ := tr.countP fun e => e.out = r

/-- The counter was incremented by an operation that has not returned. -/
def Place.added : Place → Bool
  | .castLock | .castTest | .castWake | .castNext | .castUnlock | .upUnlock => true
  | _ => false

/-- The counter was decremented by an operation that has not returned. -/
def Place.taken : Place → Bool
  | .downUnlock => true
  | _ => false

theorem count_step (hm : Moves s t r s') :
    s'.count = s.count + (if r = .added then 1 else 0) - if r = .taken then 1 else 0 := by
  cases hm with
  | unlocks hp =>
    generalize s.place t = p₀ at hp
    cases hp <;> simp [State.goto]
  | takes | adds => simp [State.goto]
  | _ => simp [State.goto]

theorem count_eq {x : ℕ} {next : ℕ → Option ℕ} {tr : List (Event State Act Ret)} (h : Runs x next tr s) :
    s.count = x + shown .added tr - shown .taken tr := by
  induction h with
  | nil => simp [shown, init]
  | snoc hr hs ih =>
    rw [count_step (moves_of_step hs), ih]
    simp only [shown, List.countP_append, List.countP_singleton, decide_eq_true_eq]
    split_ifs <;> omega

/-- An operation shows `r₁` where its threads enter the places of `f`, and `r₂` where they
leave them; they have the lock all the while. -/
structure Brackets (f : Place → Bool) (r₁ r₂ : Ret) : Prop where
  ne : r₁ ≠ r₂
  holds : ∀ p, f p = true → p.holds = true
  step : ∀ {s t r s'}, Moves s t r s' → ∃ p, s'.place = update s.place t p ∧
    ((r = r₁ ∧ (s.place t).holds = true ∧ f (s.place t) = false ∧ f p = true) ∨
      (r = r₂ ∧ f (s.place t) = true ∧ f p = false) ∨
      (r ≠ r₁ ∧ r ≠ r₂ ∧ f p = f (s.place t)))

theorem brackets_up : Brackets Place.added .added .upReturns where
  ne := by decide
  holds p hp := by cases p <;> first | rfl | cases hp
  step {s t r s'} hm := by
    cases hm with
    | stays | null => exact ⟨s.place t, (update_eq_self ..).symm, by simp⟩
    | goes hp | locks hp | unlocks hp | locksCond hp | unlocksCond hp =>
      refine ⟨_, rfl, ?_⟩
      generalize s.place t = p₀ at hp
      cases hp <;> simp [Place.added]
    | takes hp | adds hp | links hp | pushes hp | awakes hp | wakes hp | pops hp =>
      exact ⟨_, rfl, by simp [hp, Place.added, Place.holds]⟩

theorem brackets_down : Brackets Place.taken .taken .downReturns where
  ne := by decide
  holds p hp := by cases p <;> first | rfl | cases hp
  step {s t r s'} hm := by
    cases hm with
    | stays | null => exact ⟨s.place t, (update_eq_self ..).symm, by simp⟩
    | goes hp | locks hp | unlocks hp | locksCond hp | unlocksCond hp =>
      refine ⟨_, rfl, ?_⟩
      generalize s.place t = p₀ at hp
      cases hp <;> simp [Place.taken]
    | takes hp | adds hp | links hp | pushes hp | awakes hp | wakes hp | pops hp =>
      exact ⟨_, rfl, by simp [hp, Place.taken, Place.holds]⟩

/-- As many operations have returned as took effect, but for one that has the lock. -/
theorem shown_eq {f : Place → Bool} {r₁ r₂ : Ret} {x : ℕ} {next : ℕ → Option ℕ}
    {tr : List (Event State Act Ret)} (hb : Brackets f r₁ r₂) (h : Runs x next tr s) (hf : f .out = false) :
    ∃ b, Excludes b (f ∘ s.place) ∧ shown r₁ tr = shown r₂ tr + b.toNat := by
  induction h with
  | nil =>
    refine ⟨false, ?_, rfl⟩
    have hnone : f ∘ (init x next).place = fun _ => false := funext fun _ => hf
    rw [hnone]
    exact .free
  | @snoc tr s a r s' hr hs ih =>
    obtain ⟨b, hx, hcount⟩ := ih
    have hk := (sound_of_runs hr).locked
    have hnew : ∀ r', shown r' (tr ++ [⟨s, a, r, s'⟩]) = shown r' tr + if r = r' then 1 else 0 := by
      intro r'
      simp [shown, List.countP_append, List.countP_singleton]
    obtain ⟨p, hplace, hcases⟩ := hb.step (moves_of_step hs)
    rw [hplace, comp_update, hnew, hnew]
    rcases hcases with ⟨rfl, hholds, hout, hin⟩ | ⟨rfl, hin, hout⟩ | ⟨h₁, h₂, hsame⟩
    · -- Nobody else can be where the lock is needed.
      have hbf : b = false := by
        rw [Bool.eq_false_iff]
        intro hbt
        obtain ⟨u, hu⟩ := hx.held.mp hbt
        have hut := hk.unique (hb.holds _ hu) hholds
        rw [Function.comp_apply, hut, hout] at hu
        cases hu
      subst hbf
      refine ⟨true, hin ▸ hx.acquire a.thread, ?_⟩
      rw [if_pos rfl, if_neg hb.ne, hcount]
      rfl
    · have hbt : b = true := hx.held.mpr ⟨a.thread, hin⟩
      subst hbt
      refine ⟨false, hout ▸ hx.release hin, ?_⟩
      rw [if_neg hb.ne.symm, if_pos rfl, hcount]
      rfl
    · refine ⟨b, hx.keep hsame, ?_⟩
      rw [if_neg h₁, if_neg h₂]
      exact hcount

/-! ### A broadcast -/

/-- The steps of a thread, and whom it wakes up. -/
def turns (t : ℕ) (tr : List (Event State Act Ret)) : ℕ := tr.countP fun e => e.act = .run t

def Ret.woken : Ret → Option ℕ
  | .woke u => some u
  | _ => none

theorem Ret.woken_quiet : Ret.quiet.woken = none := rfl

def wokenBy (t : ℕ) (tr : List (Event State Act Ret)) : List ℕ :=
  tr.filterMap fun e => if e.act = .run t then e.out.woken else none

/-- Thread `t` has made `k` steps of a broadcast to the threads of `l`, and has woken up those
of `w`. -/
inductive Casts (s : State) (t : ℕ) (l : List ℕ) : ℕ → List ℕ → Prop
  | start (hp : s.place t = .castLock) (hq : Linked s.next s.queue l) : Casts s t l 0 []
  | test {w q : List ℕ} (hp : s.place t = .castTest) (hq : Linked s.next s.queue q) (hl : l = w ++ q) :
    Casts s t l (3 * w.length + 1) w
  | wake {w q : List ℕ} {u : ℕ} (hp : s.place t = .castWake) (hq : Linked s.next s.queue (u :: q))
      (hl : l = w ++ u :: q) : Casts s t l (3 * w.length + 2) w
  | next {w q : List ℕ} {u : ℕ} (hp : s.place t = .castNext) (hq : Linked s.next s.queue (u :: q))
      (hl : l = w ++ u :: q) : Casts s t l (3 * w.length + 3) (w ++ [u])
  | unlock (hp : s.place t = .castUnlock) : Casts s t l (3 * l.length + 2) l
  | done (hp : s.place t = .upUnlock) : Casts s t l (3 * l.length + 3) l

namespace Casts

variable {w : List ℕ} {k : ℕ}

theorem congr (h : Casts s t l k w) (hp : s'.place t = s.place t) (hq : s'.queue = s.queue)
    (hn : s'.next = s.next) : Casts s' t l k w := by
  cases h with
  | start hp₀ hl => exact .start (hp.trans hp₀) (by rwa [hn, hq])
  | test hp₀ hl hw => exact .test (hp.trans hp₀) (by rwa [hn, hq]) hw
  | wake hp₀ hl hw => exact .wake (hp.trans hp₀) (by rwa [hn, hq]) hw
  | next hp₀ hl hw => exact .next (hp.trans hp₀) (by rwa [hn, hq]) hw
  | unlock hp₀ => exact .unlock (hp.trans hp₀)
  | done hp₀ => exact .done (hp.trans hp₀)

theorem holds (h : Casts s t l k w) : (s.place t).holds = true := by
  cases h with
  | start hp | test hp | wake hp | next hp | unlock hp | done hp => rw [hp]; rfl

/-- The others do not interfere. -/
theorem other (h : Casts s t l k w) (hk : Locked s) (hstep : steps s a r s') (ha : a ≠ .run t) :
    Casts s' t l k w := by
  by_cases hat : t = a.thread
  · -- The thread does not call the semaphore in the middle of a broadcast.
    have hout : s.place t ≠ .out := by
      intro hp
      have := h.holds
      rw [hp] at this
      cases this
    have hsame : s' = s := by
      subst hat
      cases a with
      | down t =>
        simp only [steps, step, Act.thread] at hstep hout
        rw [if_neg hout] at hstep
        exact (Prod.mk.inj hstep).2.symm
      | up t =>
        simp only [steps, step, Act.thread] at hstep hout
        rw [if_neg hout] at hstep
        exact (Prod.mk.inj hstep).2.symm
      | run t => exact absurd rfl ha
    rwa [hsame]
  · obtain ⟨-, hq, hn, hp⟩ := hk.frame h.holds hat (moves_of_step hstep)
    exact h.congr hp hq hn

/-- The thread makes the next step. -/
theorem own (h : Casts s t l k w) (hk : Locked s) (hstep : steps s (.run t) r s')
    (hlt : k < 3 * l.length + 3) : Casts s' t l (k + 1) (w ++ r.woken.toList) := by
  have hrun : runStep s t = (r, s') := hstep
  cases h with
  | start hp hq =>
    have hfree : s.condLock = false := by
      rw [Bool.eq_false_iff]
      intro hcl
      -- The lock of the condition variable is taken by holders of the other lock only.
      obtain ⟨u, hu⟩ := hk.cond.held.mp hcl
      have hut := hk.unique (Place.holds_of_holdsCond hu) (u := t) (by rw [hp]; rfl)
      rw [Function.comp_apply, hut, hp] at hu
      cases hu
    simp only [runStep, hp, State.condSpinlockLock, hfree] at hrun
    cases hrun
    exact .test (w := []) (goto_place_self ..) hq rfl
  | @test w q hp hq hl =>
    simp only [runStep, hp] at hrun
    cases hrun
    rw [Ret.woken_quiet, Option.toList_none, List.append_nil]
    cases q with
    | nil =>
      have hnone : s.queue = none := hq
      rw [List.append_nil] at hl
      subst hl
      rw [if_pos hnone]
      exact .unlock (goto_place_self ..)
    | cons u q =>
      rw [if_neg (by simp [hq.head_eq])]
      exact .wake (goto_place_self ..) hq hl
  | @wake w q u hp hq hl =>
    simp only [runStep, hp, hq.head_eq] at hrun
    cases hrun
    exact .next (goto_place_self ..) ⟨rfl, hq.tail⟩ hl
  | @next w q u hp hq hl =>
    simp only [runStep, hp, hq.head_eq] at hrun
    cases hrun
    have hlen : 3 * w.length + 3 + 1 = 3 * (w ++ [u]).length + 1 := by
      rw [List.length_append, List.length_singleton]
      omega
    rw [Ret.woken_quiet, Option.toList_none, List.append_nil, hlen]
    exact .test (goto_place_self ..) hq.tail (by rw [hl, List.append_assoc, List.singleton_append])
  | unlock hp =>
    simp only [runStep, hp] at hrun
    cases hrun
    rw [Ret.woken_quiet, Option.toList_none, List.append_nil]
    exact .done (goto_place_self ..)
  | done hp => omega

/-- After all its steps, the broadcast has returned and has woken up everybody. -/
theorem finished (h : Casts s t l k w) (hfin : k = 3 * l.length + 3) : s.place t = .upUnlock ∧ w = l := by
  cases h with
  | start => omega
  | test _ _ hl | wake _ _ hl | next _ _ hl =>
    simp only [hl, List.length_append, List.length_cons] at hfin
    omega
  | unlock => omega
  | done hp => exact ⟨hp, rfl⟩

theorem of_run {tr : List (Event State Act Ret)} (h : Casts s t l 0 []) (hs : Sound s)
    (hrun : Run steps s tr s') (hk : turns t tr ≤ 3 * l.length + 3) :
    Casts s' t l (turns t tr) (wokenBy t tr) := by
  induction hrun with
  | nil => exact h
  | @snoc tr s₁ a r s' hr hstep ih =>
    have hs₁ : Sound s₁ := hr.invariant (P := fun _ => True) hs (fun _ _ => trivial)
      fun _ he _ hi => sound_step hi he
    by_cases ha : a = .run t
    · subst ha
      have hturns : turns t (tr ++ [⟨s₁, .run t, r, s'⟩]) = turns t tr + 1 := by
        simp [turns, List.countP_append]
      have hwoken : wokenBy t (tr ++ [⟨s₁, .run t, r, s'⟩]) = wokenBy t tr ++ r.woken.toList := by
        rw [wokenBy, List.filterMap_append]
        cases hw : r.woken <;> simp [wokenBy, hw]
      rw [hturns] at hk ⊢
      rw [hwoken]
      exact (ih (by omega)).own hs₁.locked hstep (by omega)
    · have hturns : turns t (tr ++ [⟨s₁, a, r, s'⟩]) = turns t tr := by
        simp [turns, List.countP_append, ha]
      have hwoken : wokenBy t (tr ++ [⟨s₁, a, r, s'⟩]) = wokenBy t tr := by
        simp [wokenBy, List.filterMap_append, ha]
      rw [hturns] at hk ⊢
      rw [hwoken]
      exact (ih hk).other hs₁.locked hstep ha

end Casts

/-! ### The semaphore -/

section Runs

variable {x : ℕ} {next : ℕ → Option ℕ} {tr : List (Event State Act Ret)}

/-- No broadcast follows a null pointer. -/
theorem not_nullThread (h : Runs x next tr s) (hstep : steps s a r s') : r ≠ .nullThread := by
  obtain ⟨l, hl⟩ := (sound_of_runs h).listed
  rintro rfl
  cases moves_of_step hstep with
  | null hq hp => exact hl.head _ hp hq
  | unlocks hp =>
    generalize s.place a.thread = p₀ at hp
    cases hp

/-- The counter is what the operations have made of it, the list has every thread once, a
broadcast wakes up whom it finds on the list, and nobody sleeps without a token while the
semaphore is available. -/
theorem semaphore_sound (h : Runs x next tr s) :
    0 ≤ s.count ∧ s.count = x + shown .added tr - shown .taken tr ∧
    (∃ l, Linked s.next s.queue l ∧ l.Nodup) ∧
    (∀ t, s.place t = .castLock → ∃ l, Linked s.next s.queue l ∧
      ∀ tr' s', Run steps s tr' s' → turns t tr' = 3 * l.length + 3 →
        s'.place t = .upUnlock ∧ wokenBy t tr' = l) ∧
    ((∀ t, (s.place t).holds = false) →
      shown .added tr = shown .upReturns tr ∧ shown .taken tr = shown .downReturns tr ∧
      (0 < s.count → s.queue = none ∧ ∀ t, s.place t = .asleep → s.tokens t = true)) := by
  have hs := sound_of_runs h
  obtain ⟨l, hl⟩ := hs.listed
  refine ⟨hs.counted.nonneg, count_eq h, ⟨l, hl.linked, hl.nodup⟩, ?_, ?_⟩
  · intro t ht
    refine ⟨l, hl.linked, fun tr' s' hrun hturns => ?_⟩
    have hc := Casts.of_run (.start ht hl.linked) hs hrun (Nat.le_of_eq hturns)
    exact hc.finished hturns
  · intro hfree
    have returned : ∀ {f r₁ r₂}, Brackets f r₁ r₂ → f .out = false → shown r₁ tr = shown r₂ tr := by
      intro f r₁ r₂ hb hf
      obtain ⟨b, hx, hcount⟩ := shown_eq hb h hf
      have hbf : b = false := by
        rw [Bool.eq_false_iff]
        intro hbt
        obtain ⟨u, hu⟩ := hx.held.mp hbt
        have := hb.holds _ hu
        rw [hfree] at this
        cases this
      rw [hcount, hbf]
      rfl
    refine ⟨returned brackets_up rfl, returned brackets_down rfl, fun hpos => ?_⟩
    have hnone : s.queue = none := by
      by_contra hne
      obtain ⟨u, hu⟩ := hs.counted.empty hpos hne
      have := Place.holds_of_casts hu
      rw [hfree] at this
      cases this
    refine ⟨hnone, fun t ht => ?_⟩
    by_contra htok
    have hm : t ∈ l := (hl.mem t).mpr (.inl ⟨by rw [ht]; rfl, Bool.eq_false_iff.mpr htok⟩)
    have hlinked := hl.linked
    rw [hnone] at hlinked
    cases l with
    | nil => cases hm
    | cons u l => cases hlinked.head_eq

/-- Thread 0 finds the semaphore unavailable and goes to sleep; thread 1 increments it. -/
theorem semaphore_sound_two : ∃ tr s, Runs 0 (fun _ => none) tr s ∧ s.count = 1 ∧ s.queue = some 0 ∧
    ∀ tr' s', Run steps s tr' s' → turns 1 tr' = 6 → s'.place 1 = .upUnlock ∧ wokenBy 1 tr' = [0] := by
  obtain ⟨tr, s, hr, -, hp, hc, hq, hn⟩ := exists_run_of_exec (f := fun s a => some (step s a))
    (s := init 0 fun _ => none)
    [.down 0, .run 0, .run 0, .run 0, .run 0, .run 0, .run 0, .run 0, .up 1, .run 1, .run 1]
    (fun r => r.2.place 1 = .castLock ∧ r.2.count = 1 ∧ r.2.queue = some 0 ∧ r.2.next 0 = none)
    (by decide +kernel)
  have hruns : Runs 0 (fun _ => none) tr s := hr.mono fun _ _ _ _ hs => Option.some.inj hs
  refine ⟨tr, s, hruns, hc, hq, ?_⟩
  obtain ⟨l, hl, hcast⟩ := (semaphore_sound hruns).2.2.2.1 1 hp
  have hl0 : l = [0] := hl.unique ⟨hq, hn⟩
  subst hl0
  exact hcast

end Runs

end Nanvix.Pm.Semaphore
