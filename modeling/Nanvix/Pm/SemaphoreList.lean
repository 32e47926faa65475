import Nanvix.Pm.Semaphore

/-! The locks of a semaphore exclude each other's sections, and the threads that wait for it are
listed once each. A thread that a broadcast has woken up stays on the list until the broadcast has
read its link, and its token keeps it from being lost. -/

namespace Nanvix.Pm.Semaphore

open Nanvix.Lib Function

variable {s s' : State} {r : Ret} {t u : ℕ} {p : Place} {l : List ℕ}

/-! ### The locks -/

theorem Goes.same {p' : Place} (h : Goes s p p') : p'.holds = p.holds ∧ p'.holdsCond = p.holdsCond := by
  cases h <;> exact ⟨rfl, rfl⟩

theorem Locks.holds {p' : Place} (h : Locks p p') :
    p.holds = false ∧ p'.holds = true ∧ p'.holdsCond = p.holdsCond := by
  cases h <;> exact ⟨rfl, rfl, rfl⟩

theorem Unlocks.holds {p' : Place} (h : Unlocks p r p') :
    p.holds = true ∧ p'.holds = false ∧ p'.holdsCond = p.holdsCond := by
  cases h <;> exact ⟨rfl, rfl, rfl⟩

theorem LocksCond.holds {p' : Place} (h : LocksCond p p') :
    p.holds = true ∧ p'.holds = true ∧ p'.holdsCond = true := by
  cases h <;> exact ⟨rfl, rfl, rfl⟩

theorem UnlocksCond.holds {p' : Place} (h : UnlocksCond p p') :
    p.holds = true ∧ p'.holds = true ∧ p.holdsCond = true ∧ p'.holdsCond = false := by
  cases h <;> exact ⟨rfl, rfl, rfl, rfl⟩

theorem Place.holds_of_holdsCond (h : p.holdsCond = true) : p.holds = true := by
  cases p <;> first | rfl | cases h

/-- Both locks are held by at most one thread. -/
structure Locked (s : State) : Prop where
  sem : Excludes s.lock (Place.holds ∘ s.place)
  cond : Excludes s.condLock (Place.holdsCond ∘ s.place)

namespace Locked

/-- A thread moves without taking or releasing a lock. -/
theorem move (h : Locked s) (hs : s'.place = update s.place t p) (hlock : s'.lock = s.lock)
    (hcond : s'.condLock = s.condLock) (hp : p.holds = (s.place t).holds)
    (hpc : p.holdsCond = (s.place t).holdsCond) : Locked s' := by
  constructor
  · rw [hs, hlock, comp_update]
    exact h.sem.keep hp
  · rw [hs, hcond, comp_update]
    exact h.cond.keep hpc

theorem step (h : Locked s) (hm : Moves s t r s') : Locked s' := by
  cases hm with
  | stays | null => exact h
  | goes hp => exact h.move rfl rfl rfl hp.same.1 hp.same.2
  | takes hp | adds hp | links hp | pushes hp | awakes hp | wakes hp | pops hp =>
    refine h.move rfl rfl rfl ?_ ?_ <;> rw [hp] <;> rfl
  | @locks p hp hl =>
    obtain ⟨-, hholds, hcond⟩ := hp.holds
    constructor
    · show Excludes true (Place.holds ∘ update s.place t p)
      rw [comp_update, hholds]
      exact (hl ▸ h.sem).acquire t
    · show Excludes s.condLock (Place.holdsCond ∘ update s.place t p)
      rw [comp_update]
      exact h.cond.keep hcond
  | @unlocks r p hp =>
    obtain ⟨hheld, hfree, hcond⟩ := hp.holds
    constructor
    · show Excludes false (Place.holds ∘ update s.place t p)
      rw [comp_update, hfree]
      exact h.sem.release hheld
    · show Excludes s.condLock (Place.holdsCond ∘ update s.place t p)
      rw [comp_update]
      exact h.cond.keep hcond
  | @locksCond p hp hl =>
    obtain ⟨hheld, hholds, hcond⟩ := hp.holds
    constructor
    · show Excludes s.lock (Place.holds ∘ update s.place t p)
      rw [comp_update]
      exact h.sem.keep (hholds.trans hheld.symm)
    · show Excludes true (Place.holdsCond ∘ update s.place t p)
      rw [comp_update, hcond]
      exact (hl ▸ h.cond).acquire t
  | @unlocksCond p hp =>
    obtain ⟨hheld, hholds, hheldc, hfree⟩ := hp.holds
    constructor
    · show Excludes s.lock (Place.holds ∘ update s.place t p)
      rw [comp_update]
      exact h.sem.keep (hholds.trans hheld.symm)
    · show Excludes false (Place.holdsCond ∘ update s.place t p)
      rw [comp_update, hfree]
      exact h.cond.release hheldc

theorem unique (h : Locked s) (ht : (s.place t).holds = true) (hu : (s.place u).holds = true) : t = u :=
  h.sem.unique ht hu

/-- Nobody but the holder of the lock touches the counter and the list. -/
theorem frame (h : Locked s) (ht : (s.place t).holds = true) (htu : t ≠ u) (hm : Moves s u r s') :
    s'.count = s.count ∧ s'.queue = s.queue ∧ s'.next = s.next ∧ s'.place t = s.place t := by
  have other : ∀ {p}, s.place u = p → p.holds ≠ true := by
    rintro p rfl hu
    exact htu (h.unique ht hu)
  have hplace : ∀ p, update s.place u p t = s.place t := fun p => update_of_ne htu _ _
  cases hm with
  | stays | null => exact ⟨rfl, rfl, rfl, rfl⟩
  | goes | awakes => exact ⟨rfl, rfl, rfl, hplace _⟩
  | locks hp hl =>
    have hheld := h.sem.held.mpr ⟨t, ht⟩
    rw [hl] at hheld
    cases hheld
  | unlocks hp => exact absurd hp.holds.1 (other rfl)
  | locksCond hp => exact absurd hp.holds.1 (other rfl)
  | unlocksCond hp => exact absurd hp.holds.1 (other rfl)
  | takes hp | adds hp | links hp | pushes hp | wakes hp | pops hp => exact absurd rfl (other hp)

end Locked

theorem locked_init (x : ℕ) (next : ℕ → Option ℕ) : Locked (init x next) := ⟨.free, .free⟩

/-! ### The list of the condition variable -/

/-- A thread in this place has put itself on the list. -/
def Place.queued : Place → Bool
  | .waitUnlock | .asleepUnlock | .asleep => true
  | _ => false

/-- A queued thread without the lock sleeps. -/
theorem Place.asleep_of_queued (hq : p.queued = true) (hh : p.holds = false) : p = .asleep := by
  cases p <;> first | rfl | exact absurd hq (by decide) | exact absurd hh (by decide)

/-- The thread waits for somebody to wake it up. -/
def Pending (s : State) (t : ℕ) : Prop := (s.place t).queued = true ∧ s.tokens t = false

/-- The head of the list was woken up and is still on the list. -/
def Popping (s : State) : Prop := ∃ u, s.place u = .castNext

/-- The list has the threads of `l`. -/
structure Listed (s : State) (l : List ℕ) : Prop where
  linked : Linked s.next s.queue l
  nodup : l.Nodup
  mem : ∀ t, t ∈ l ↔ Pending s t ∨ (Popping s ∧ s.queue = some t)
  woken : Popping s → ∀ t, s.queue = some t → ¬ Pending s t
  token : ∀ t, s.tokens t = true → s.place t = .asleep
  link : ∀ t, s.place t = .waitPush → s.next t = s.queue
  head : ∀ t, s.place t = .castWake ∨ s.place t = .castNext → s.queue ≠ none

/-- A move that has nothing to do with the list. -/
structure Plain (p p' : Place) : Prop where
  queued : p'.queued = p.queued
  source : p ≠ .castNext ∧ p ≠ .asleep
  target : p' ≠ .castNext ∧ p' ≠ .waitPush

theorem Goes.plain {p' : Place} (h : Goes s p p') : Plain p p' := by
  cases h <;> exact ⟨rfl, by decide, by decide⟩

theorem Locks.plain {p' : Place} (h : Locks p p') : Plain p p' ∧ p' ≠ .castWake := by
  cases h <;> exact ⟨⟨rfl, by decide, by decide⟩, by decide⟩

theorem Unlocks.plain {p' : Place} (h : Unlocks p r p') : Plain p p' ∧ p' ≠ .castWake := by
  cases h <;> exact ⟨⟨rfl, by decide, by decide⟩, by decide⟩

theorem LocksCond.plain {p' : Place} (h : LocksCond p p') : Plain p p' ∧ p' ≠ .castWake := by
  cases h <;> exact ⟨⟨rfl, by decide, by decide⟩, by decide⟩

theorem UnlocksCond.plain {p' : Place} (h : UnlocksCond p p') : Plain p p' ∧ p' ≠ .castWake := by
  cases h <;> exact ⟨⟨rfl, by decide, by decide⟩, by decide⟩

section Move

variable (hs : s'.place = update s.place t p)

include hs

theorem place_self : s'.place t = p := by rw [hs, update_self]

theorem place_of_ne (hu : u ≠ t) : s'.place u = s.place u := by rw [hs, update_of_ne hu]

theorem pending_of_ne (hu : u ≠ t) (htok : s'.tokens u = s.tokens u) : Pending s' u ↔ Pending s u := by
  rw [Pending, Pending, place_of_ne hs hu, htok]

theorem pending_iff (hp : p.queued = (s.place t).queued) (htok : s'.tokens u = s.tokens u) :
    Pending s' u ↔ Pending s u := by
  by_cases hu : u = t
  · subst hu
    rw [Pending, Pending, place_self hs, hp, htok]
  · exact pending_of_ne hs hu htok

theorem popping_iff (hp : p ≠ .castNext) (hp₀ : s.place t ≠ .castNext) : Popping s' ↔ Popping s := by
  have hne : ∀ {q : State}, q.place t ≠ .castNext → (Popping q ↔ ∃ u, u ≠ t ∧ q.place u = .castNext) := by
    intro q hq
    refine ⟨?_, fun ⟨u, _, hu⟩ => ⟨u, hu⟩⟩
    rintro ⟨u, hu⟩
    refine ⟨u, ?_, hu⟩
    rintro rfl
    exact hq hu
  rw [hne hp₀, hne (by rw [place_self hs]; exact hp)]
  refine exists_congr fun u => and_congr_right fun hu => ?_
  rw [place_of_ne hs hu]

end Move

namespace Listed

/-- Those with a token sleep on when somebody moves that does not sleep. -/
theorem token_moved (h : Listed s l) (hs : s'.place = update s.place t p) (hp : s.place t ≠ .asleep)
    (hu : s.tokens u = true) : s'.place u = .asleep := by
  have hsleep := h.token u hu
  rw [place_of_ne hs fun he => hp (he ▸ hsleep)]
  exact hsleep

/-- A move that leaves the list as it is, and those who are to be woken up. -/
theorem keep (h : Listed s l) (hs : s'.place = update s.place t p) (hq : s'.queue = s.queue)
    (hn : s'.next = s.next) (hpend : ∀ u, Pending s' u ↔ Pending s u) (hp₀ : s.place t ≠ .castNext)
    (hp : p ≠ .castNext ∧ p ≠ .waitPush) (htok : ∀ u, s'.tokens u = true → s'.place u = .asleep)
    (hh : p = .castWake → s.queue ≠ none) : Listed s' l := by
  have hpop := popping_iff hs hp.1 hp₀
  refine ⟨by rw [hn, hq]; exact h.linked, h.nodup, ?_, ?_, htok, ?_, ?_⟩
  · intro u
    rw [h.mem, hpend, hpop, hq]
  · intro hpo u hu
    rw [hpend]
    exact h.woken (hpop.mp hpo) u (hq ▸ hu)
  · intro u hu
    have hne : u ≠ t := fun he => hp.2 ((place_self hs).symm.trans (he ▸ hu))
    rw [place_of_ne hs hne] at hu
    rw [hn, hq]
    exact h.link u hu
  · intro u hu
    rw [hq]
    by_cases hut : u = t
    · rw [hut, place_self hs] at hu
      exact hh (hu.resolve_right hp.1)
    · rw [place_of_ne hs hut] at hu
      exact h.head u hu

theorem plain (h : Listed s l) (hs : s'.place = update s.place t p) (hq : s'.queue = s.queue)
    (hn : s'.next = s.next) (htok : s'.tokens = s.tokens) (hp : Plain (s.place t) p)
    (hh : p = .castWake → s.queue ≠ none) : Listed s' l :=
  h.keep hs hq hn (fun _ => pending_iff hs hp.queued (by rw [htok])) hp.source.1 hp.target
    (fun _ hu => h.token_moved hs hp.source.2 (htok ▸ hu)) hh

/-- The holder of the lock is the only one that can be in the middle of a broadcast. -/
theorem not_popping (hk : Locked s) (ht : (s.place t).holds = true) (hp : s.place t ≠ .castNext) :
    ¬ Popping s := by
  rintro ⟨u, hu⟩
  have hut := hk.unique (t := u) (by rw [hu]; rfl) ht
  exact hp (hut ▸ hu)

/-- Before the holder of the lock is queued, it is not on the list. -/
theorem not_mem (h : Listed s l) (hk : Locked s) (ht : (s.place t).holds = true)
    (hp : s.place t ≠ .castNext) (hq : (s.place t).queued = false) : t ∉ l := by
  rw [h.mem]
  rintro (⟨hq', -⟩ | ⟨hpop, -⟩)
  · rw [hq] at hq'
    cases hq'
  · exact not_popping hk ht hp hpop

/-- Another thread is not where the lock is needed. -/
theorem not_at (hk : Locked s) (ht : (s.place t).holds = true) (hu : u ≠ t) {p₀ : Place}
    (hp : p₀.holds = true) : s.place u ≠ p₀ := by
  rintro rfl
  exact hu (hk.unique hp ht)

/-- Nor is anybody after a move of the holder of the lock to somewhere else. -/
theorem not_at_moved (hk : Locked s) (ht : (s.place t).holds = true) (hs : s'.place = update s.place t p)
    {p₀ : Place} (hp₀ : p₀.holds = true) (hp : p ≠ p₀) (u : ℕ) : s'.place u ≠ p₀ := by
  by_cases hut : u = t
  · rw [hut, place_self hs]
    exact hp
  · rw [place_of_ne hs hut]
    exact not_at hk ht hut hp₀

theorem links (h : Listed s l) (hk : Locked s) (hp : s.place t = .waitLink)
    (hs : s'.place = update s.place t .waitPush) (hq : s'.queue = s.queue)
    (hn : s'.next = update s.next t s.queue) (htok : s'.tokens = s.tokens) : Listed s' l := by
  have ht : (s.place t).holds = true := by rw [hp]; rfl
  have hpend : ∀ u, Pending s' u ↔ Pending s u := fun u => pending_iff hs (by rw [hp]; rfl) (by rw [htok])
  have hpop := popping_iff hs (by simp) (by simp [hp])
  refine ⟨?_, h.nodup, ?_, ?_, ?_, ?_, ?_⟩
  · rw [hn, hq]
    exact h.linked.update (h.not_mem hk ht (by simp [hp]) (by rw [hp]; rfl)) _
  · intro u
    rw [h.mem, hpend, hpop, hq]
  · intro hpo
    exact absurd (hpop.mp hpo) (not_popping hk ht (by simp [hp]))
  · intro u hu
    exact h.token_moved hs (by simp [hp]) (htok ▸ hu)
  · intro u hu
    by_cases hut : u = t
    · rw [hut, hn, hq, update_self]
    · rw [place_of_ne hs hut] at hu
      exact absurd hu (not_at hk ht hut rfl)
  · intro u hu
    rcases hu with hu | hu <;> exact absurd hu (not_at_moved hk ht hs rfl (by simp) u)

theorem pushes (h : Listed s l) (hk : Locked s) (hp : s.place t = .waitPush)
    (hs : s'.place = update s.place t .waitUnlock) (hq : s'.queue = some t)
    (hn : s'.next = s.next) (htok : s'.tokens = s.tokens) : Listed s' (t :: l) := by
  have ht : (s.place t).holds = true := by rw [hp]; rfl
  have hnot := h.not_mem hk ht (by simp [hp]) (by rw [hp]; rfl)
  have hno := not_popping hk ht (by simp [hp])
  have hpop : ¬ Popping s' := fun hpo => hno ((popping_iff hs (by simp) (by simp [hp])).mp hpo)
  have hfree : s.tokens t = false := by
    rw [Bool.eq_false_iff]
    intro htk
    have := h.token t htk
    simp [hp] at this
  refine ⟨⟨hq, ?_⟩, List.nodup_cons.mpr ⟨hnot, h.nodup⟩, ?_, fun hpo => absurd hpo hpop, ?_, ?_, ?_⟩
  · rw [hn, h.link t hp]
    exact h.linked
  · intro u
    rw [List.mem_cons, h.mem, or_iff_left fun hx : Popping s' ∧ _ => hpop hx.1,
      or_iff_left fun hx : Popping s ∧ _ => hno hx.1]
    by_cases hut : u = t
    · subst hut
      refine iff_of_true (.inl rfl) ⟨?_, by rw [htok]; exact hfree⟩
      rw [place_self hs]
      rfl
    · rw [pending_of_ne hs hut (by rw [htok]), or_iff_right hut]
  · intro u hu
    exact h.token_moved hs (by simp [hp]) (htok ▸ hu)
  · intro u hu
    exact absurd hu (not_at_moved hk ht hs rfl (by simp) u)
  · intro u _
    simp [hq]

theorem awakes (h : Listed s l) (hp : s.place t = .asleep) (ht : s.tokens t = true)
    (hs : s'.place = update s.place t .asleepLock) (hq : s'.queue = s.queue)
    (hn : s'.next = s.next) (htok : s'.tokens = update s.tokens t false) : Listed s' l := by
  have hpend : ∀ u, Pending s' u ↔ Pending s u := by
    intro u
    by_cases hut : u = t
    · subst hut
      refine iff_of_false (fun hx => ?_) fun hx => ?_
      · have := hx.1
        rw [place_self hs] at this
        cases this
      · rw [hx.2] at ht
        cases ht
    · exact pending_of_ne hs hut (by rw [htok, update_of_ne hut])
  refine h.keep hs hq hn hpend (by simp [hp]) (by simp) (fun u hu => ?_) (by simp)
  have hne : u ≠ t := by
    rintro rfl
    rw [htok, update_self] at hu
    cases hu
  rw [htok, update_of_ne hne] at hu
  rw [place_of_ne hs hne]
  exact h.token u hu

/-- The head of the list sleeps, and gets its token. -/
theorem wakes {v : ℕ} (h : Listed s l) (hk : Locked s) (hp : s.place t = .castWake) (hv : s.queue = some v)
    (hs : s'.place = update s.place t .castNext) (hq : s'.queue = s.queue)
    (hn : s'.next = s.next) (htok : s'.tokens = update s.tokens v true) : Listed s' l := by
  have ht : (s.place t).holds = true := by rw [hp]; rfl
  have hno := not_popping hk ht (by simp [hp])
  have hvl : v ∈ l := by
    cases l with
    | nil =>
      have := h.linked
      rw [hv] at this
      cases this
    | cons w l =>
      obtain rfl := Option.some.inj (hv.symm.trans h.linked.head_eq)
      exact List.mem_cons_self ..
  have hpv : Pending s v := ((h.mem v).mp hvl).resolve_right fun hx => hno hx.1
  have hvt : v ≠ t := by
    rintro rfl
    have := hpv.1
    rw [hp] at this
    cases this
  have hsleep : s.place v = .asleep := by
    refine Place.asleep_of_queued hpv.1 (Bool.eq_false_iff.mpr ?_)
    exact fun hx => hvt (hk.unique hx ht)
  have hpop : Popping s' := ⟨t, place_self hs⟩
  refine ⟨by rw [hn, hq]; exact h.linked, h.nodup, ?_, ?_, ?_, ?_, ?_⟩
  · intro u
    by_cases huv : u = v
    · subst huv
      exact iff_of_true hvl (.inr ⟨hpop, hq.trans hv⟩)
    · have hpend := pending_iff (u := u) hs (by rw [hp]; rfl) (by rw [htok, update_of_ne huv])
      rw [h.mem, or_iff_left fun hx : Popping s ∧ _ => hno hx.1, hpend, or_iff_left]
      rintro ⟨-, hx⟩
      exact huv (Option.some.inj (hx.symm.trans (hq.trans hv)))
  · intro _ u hu hx
    obtain rfl := Option.some.inj (hu.symm.trans (hq.trans hv))
    have := hx.2
    rw [htok, update_self] at this
    cases this
  · intro u hu
    by_cases huv : u = v
    · rw [huv, place_of_ne hs hvt]
      exact hsleep
    · rw [htok, update_of_ne huv] at hu
      exact h.token_moved hs (by simp [hp]) hu
  · intro u hu
    exact absurd hu (not_at_moved hk ht hs rfl (by simp) u)
  · intro u _
    simp [hq, hv]

/-- The head of the list is taken off, which nobody has touched since it was woken up. -/
theorem pops {v : ℕ} (h : Listed s l) (hk : Locked s) (hp : s.place t = .castNext) (hv : s.queue = some v)
    (hs : s'.place = update s.place t .castTest) (hq : s'.queue = s.next v)
    (hn : s'.next = s.next) (htok : s'.tokens = s.tokens) : ∃ r, l = v :: r ∧ Listed s' r := by
  have ht : (s.place t).holds = true := by rw [hp]; rfl
  obtain ⟨r, rfl⟩ : ∃ r, l = v :: r := by
    cases l with
    | nil =>
      have := h.linked
      rw [hv] at this
      cases this
    | cons w r =>
      obtain rfl := Option.some.inj (hv.symm.trans h.linked.head_eq)
      exact ⟨r, rfl⟩
  have hpend : ∀ u, Pending s' u ↔ Pending s u := fun u => pending_iff hs (by rw [hp]; rfl) (by rw [htok])
  have hpop : ¬ Popping s' := fun ⟨u, hu⟩ => not_at_moved hk ht hs rfl (by simp) u hu
  obtain ⟨hnot, hnodup⟩ := List.nodup_cons.mp h.nodup
  refine ⟨r, rfl, by rw [hn, hq]; exact h.linked.tail, hnodup, ?_, fun hpo => absurd hpo hpop, ?_, ?_, ?_⟩
  · intro u
    rw [or_iff_left fun hx : Popping s' ∧ _ => hpop hx.1, hpend]
    have hmem := h.mem u
    rw [List.mem_cons] at hmem
    constructor
    · intro hu
      refine (hmem.mp (.inr hu)).resolve_right ?_
      rintro ⟨-, hx⟩
      exact hnot (Option.some.inj (hv.symm.trans hx) ▸ hu)
    · intro hu
      refine (hmem.mpr (.inl hu)).resolve_left ?_
      rintro rfl
      exact h.woken ⟨t, hp⟩ u hv hu
  · intro u hu
    exact h.token_moved hs (by simp [hp]) (htok ▸ hu)
  · intro u hu
    exact absurd hu (not_at_moved hk ht hs rfl (by simp) u)
  · intro u hu
    rcases hu with hu | hu <;> exact absurd hu (not_at_moved hk ht hs rfl (by simp) u)

end Listed

theorem listed_step (h : ∃ l, Listed s l) (hk : Locked s) (hm : Moves s t r s') : ∃ l, Listed s' l := by
  obtain ⟨l, h⟩ := h
  cases hm with
  | stays | null => exact ⟨l, h⟩
  | goes hp =>
    refine ⟨l, h.plain rfl rfl rfl rfl hp.plain ?_⟩
    rintro rfl
    generalize s.place t = p at hp
    cases hp with
    | listed hq => exact hq
  | locks hp => exact ⟨l, h.plain rfl rfl rfl rfl hp.plain.1 fun he => absurd he hp.plain.2⟩
  | unlocks hp => exact ⟨l, h.plain rfl rfl rfl rfl hp.plain.1 fun he => absurd he hp.plain.2⟩
  | locksCond hp => exact ⟨l, h.plain rfl rfl rfl rfl hp.plain.1 fun he => absurd he hp.plain.2⟩
  | unlocksCond hp => exact ⟨l, h.plain rfl rfl rfl rfl hp.plain.1 fun he => absurd he hp.plain.2⟩
  | takes hp | adds hp =>
    refine ⟨l, h.plain rfl rfl rfl rfl ?_ (by simp)⟩
    rw [hp]
    exact ⟨rfl, by decide, by decide⟩
  | links hp => exact ⟨l, h.links hk hp rfl rfl rfl rfl⟩
  | pushes hp => exact ⟨_, h.pushes hk hp rfl rfl rfl rfl⟩
  | awakes hp ht => exact ⟨l, h.awakes hp ht rfl rfl rfl rfl⟩
  | wakes hp hq => exact ⟨l, h.wakes hk hp hq rfl rfl rfl rfl⟩
  | pops hp hq => refine Exists.imp (fun _ hr => hr.2) (h.pops hk hp hq ?_ ?_ ?_ ?_) <;> rfl

theorem listed_init (x : ℕ) (next : ℕ → Option ℕ) : Listed (init x next) [] where
  linked := rfl
  nodup := .nil
  mem t := by simp [Pending, Popping, init, Place.queued]
  woken := by
    rintro ⟨u, hu⟩
    cases hu
  token t ht := by cases ht
  link t ht := by cases ht
  head t ht := by rcases ht with ht | ht <;> cases ht

end Nanvix.Pm.Semaphore
