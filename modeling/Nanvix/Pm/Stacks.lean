import Nanvix.Pm.Life

/-! The pages of the stacks. A user thread that is ready, current or a zombie holds two
pages, and no page is held twice. They come with `thread_create` and go with
`thread_free`, which finds them every time. -/

namespace Nanvix.Pm

open Nanvix.Lib Function

variable {P : Platform} {s s' : State} {a : Act} {o : Out} {c i j p u v curr next : ℕ} {via : Caller}
  {q : List ℕ} {freed : Option ℕ}

def Holds (s : State) (u p : ℕ) : Prop := s.ustacks u = some p ∨ s.kstacks u = some p

/-- Slot `u` has both stacks. -/
def Furnished (s : State) (u : ℕ) : Prop := (s.ustacks u).isSome ∧ (s.kstacks u).isSome

instance (s : State) (u : ℕ) : Decidable (Furnished s u) := by unfold Furnished; infer_instance

/-- The pages are counted once and held once. -/
structure Pages (s : State) : Prop where
  counted : ∀ {u p}, Holds s u p → s.kpages p = 1
  slot : ∀ {u v p}, Holds s u p → Holds s v p → u = v
  both : ∀ {u p}, s.ustacks u = some p → s.kstacks u ≠ some p

/-- A thread that cannot do without its stacks. -/
def Busy (P : Platform) (s : State) (i : ℕ) : Prop :=
  (∃ q, Ready P s q ∧ i ∈ q) ∨ (P.IsUser i ∧ Active (s.threads i)) ∨ (s.threads i).state = .zombie

structure Stacks (P : Platform) (s : State) : Prop where
  pages : Pages s
  busy : ∀ i, Busy P s i → P.IsUser i ∧ Furnished s (P.utid i)
  free : ∀ i, P.IsUser i → (s.threads i).state = .notStarted →
    s.ustacks (P.utid i) = none ∧ s.kstacks (P.utid i) = none

theorem Platform.utid_inj (hi : P.IsUser i) (hj : P.IsUser j) (h : P.utid i = P.utid j) : i = j := by
  unfold Platform.utid at h
  unfold Platform.IsUser at hi hj
  omega

theorem threadFree_ustacks (P : Platform) (s : State) (i : ℕ) :
    (threadFree P s i).ustacks = update s.ustacks (P.utid i) none := by
  simp [threadFree]

theorem threadFree_kstacks (P : Platform) (s : State) (i : ℕ) :
    (threadFree P s i).kstacks = update s.kstacks (P.utid i) none := by
  simp [threadFree]

theorem kpagePut_kpages_of_ne {x : Option ℕ} (h : x ≠ some p) : (kpagePut s x).kpages p = s.kpages p := by
  cases x with
  | none => rfl
  | some r =>
    have hp : p ≠ r := fun hp => h (congrArg some hp.symm)
    exact update_of_ne hp _ _

theorem threadFree_kpages (h : ¬ Holds s (P.utid i) p) : (threadFree P s i).kpages p = s.kpages p := by
  unfold Holds at h
  show (kpagePut (kpagePut s _) _).kpages p = _
  rw [kpagePut_kpages_of_ne, kpagePut_kpages_of_ne]
  · tauto
  · tauto

namespace Pages

theorem congr (h : Pages s) (hu : s'.ustacks = s.ustacks) (hk : s'.kstacks = s.kstacks)
    (hp : s'.kpages = s.kpages) : Pages s' := by
  have hh : ∀ {u p}, Holds s' u p ↔ Holds s u p := by
    intro u p
    unfold Holds
    rw [hu, hk]
  refine ⟨fun h' => ?_, fun h₁ h₂ => h.slot (hh.mp h₁) (hh.mp h₂), fun h' => ?_⟩
  · rw [hp]
    exact h.counted (hh.mp h')
  · rw [hk]
    exact h.both (by rw [← hu]; exact h')

theorem threadFree (h : Pages s) (P : Platform) (i : ℕ) : Pages (threadFree P s i) := by
  have hh : ∀ {u p}, Holds (Pm.threadFree P s i) u p → u ≠ P.utid i ∧ Holds s u p := by
    intro u p hp
    unfold Holds at hp ⊢
    rw [threadFree_ustacks, threadFree_kstacks] at hp
    by_cases hu : u = P.utid i
    · subst hu
      simp at hp
    · rw [update_of_ne hu, update_of_ne hu] at hp
      exact ⟨hu, hp⟩
  refine ⟨fun h' => ?_, fun h₁ h₂ => h.slot (hh h₁).2 (hh h₂).2, fun {u p} h' => ?_⟩
  · obtain ⟨hu, hp⟩ := hh h'
    rw [threadFree_kpages fun hi => hu (h.slot hp hi)]
    exact h.counted hp
  · have hu := (hh (.inl h')).1
    rw [threadFree_ustacks, update_of_ne hu] at h'
    rw [threadFree_kstacks, update_of_ne hu]
    exact h.both h'

end Pages

/-- A busy thread was busy before, or it was created. -/
theorem busy_step (ht : Table P s) (hstep : steps P s a o s') (h : Busy P s' i) :
    Busy P s i ∨ ∃ tid, o.ret = .created tid i := by
  obtain ⟨q, hq⟩ := ht.ready
  obtain ⟨r, hr, hmem⟩ := ready_step hq hstep
  rcases h with ⟨r', hr', hi⟩ | ⟨hu, ha⟩ | hz
  · rw [hr'.unique hr] at hi
    rcases hmem i hi with h | ⟨c, hon⟩ | h
    · exact .inl (.inl ⟨q, hq, h⟩)
    · exact .inl (.inr (.inl ⟨hr.user i hi, hon.active⟩))
    · exact .inr h
  · left
    cases turn_step ht hstep i with
    | same h =>
      unfold Active at ha
      rw [h] at ha
      exact .inr (.inl ⟨hu, ha⟩)
    | resumes hc hret hw hna h =>
      rcases hw with hh | rfl
      · obtain ⟨l, rfl⟩ := hq.eq_cons hh
        exact .inl ⟨_, hq, List.mem_cons_self ..⟩
      · exact absurd hu.1 (by omega)
    | exits hret hon => exact .inr (.inl ⟨hu, hon.active⟩)
    | stops _ _ _ h | dies _ _ _ h | released _ _ h | allocated _ h => simp [Active, h] at ha
  · left
    cases turn_step ht hstep i with
    | same h => exact .inr (.inr (h.symm.trans hz))
    | dies _ hon hs => exact .inr (.inl ⟨ht.cores.user_of_terminated hon hs, hon.active⟩)
    | resumes _ _ _ _ h | exits _ _ _ h | stops _ _ _ h | released _ _ h | allocated _ h =>
      rw [h] at hz
      cases hz

/-- What was released was a zombie and is one no more. -/
theorem freed_step (hstep : steps P s a o s') (hf : o.freed = some i) :
    (s.threads i).state = .zombie ∧
      ((s'.threads i).state = .notStarted ∨ (s'.threads i).state = .started) := by
  have alloc : ∀ {k freed t}, Allocs P s k freed t → freed = some i →
      (s.threads i).state = .zombie ∧ (t.threads i).state = .started := by
    intro k freed t ha hfreed
    cases ha with
    | fresh => cases hfreed
    | recycled hs =>
      cases hfreed
      exact ⟨hs, by simp⟩
  cases moves_of_step hstep with
  | cleaned hc hfr hx hr | started hc hfr hcurr hr =>
    exact ⟨hr.zombie hf, .inl (by rw [State.setFrame_threads, hr.released hf])⟩
  | creates hc hfr hcr =>
    cases hcr with
    | full => cases hf
    | noPages hlt ha => exact (alloc ha hf).imp_right .inr
    | @created k freed s₁ kstack ustack s₂ hlt ha hk hu hne hsch =>
      obtain ⟨hz, hst⟩ := alloc ha hf
      have hk : i = k := by
        cases ha with
        | fresh => cases hf
        | recycled => exact (Option.some.inj hf).symm
      subst hk
      refine ⟨hz, .inr ?_⟩
      rw [threadSchedule_state hsch]
      simp [initThread, hst]
  | _ => cases hf

def afterRelease (P : Platform) (s : State) : Option ℕ → State
  | none => s
  | some i => threadFree P s i

structure SameStacks (s s' : State) : Prop where
  ustacks : s'.ustacks = s.ustacks
  kstacks : s'.kstacks = s.kstacks
  kpages : s'.kpages = s.kpages

/-- What a step does to the stacks: a zombie gives its stacks back, and a new thread gets two
pages that nobody has. -/
inductive Furnishes (P : Platform) (s : State) (o : Out) (s' : State) : Prop
  | keeps (hret : ∀ t i, o.ret ≠ .created t i) (h : SameStacks (afterRelease P s o.freed) s')
  | adds {t : ℤ} {i kstack ustack : ℕ} (hret : o.ret = .created t i) (hlt : i < P.kthreadMax)
      (hst : (s'.threads i).state = .started)
      (hf : (o.freed = none ∧ (s.threads i).state = .notStarted) ∨
        (o.freed = some i ∧ (s.threads i).state = .zombie))
      (hk : (afterRelease P s o.freed).kpages kstack = 0) (hu : (afterRelease P s o.freed).kpages ustack = 0)
      (hne : ustack ≠ kstack)
      (h : SameStacks { afterRelease P s o.freed with
        ustacks := update (afterRelease P s o.freed).ustacks (P.utid i) (some ustack)
        kstacks := update (afterRelease P s o.freed).kstacks (P.utid i) (some kstack)
        kpages := update (update (afterRelease P s o.freed).kpages kstack 1) ustack 1 } s')

theorem Reaps.same {s₁ : State} (h : Reaps P s curr freed s₁) : SameStacks (afterRelease P s freed) s₁ := by
  cases h <;> exact ⟨rfl, rfl, rfl⟩

theorem Allocs.same {s₁ : State} (h : Allocs P s i freed s₁) : SameStacks (afterRelease P s freed) s₁ := by
  cases h <;> exact ⟨rfl, rfl, rfl⟩

theorem furnishes_step (hstep : steps P s a o s') : Furnishes P s o s' := by
  have yields : ∀ {c curr next s₁}, Yields P s c curr next s₁ → SameStacks s s₁ := by
    intro c curr next s₁ hy
    rw [hy.rest]
    exact ⟨rfl, rfl, rfl⟩
  cases moves_of_step hstep with
  | idle | refused | fault | unfenced | tookFirst | opened | took | stayed | switchFailed
  | wakes | switched | joinSleeps | sleeps | joinsNow | joinWakes => exact .keeps (by simp) ⟨rfl, rfl, rfl⟩
  | yields hc ha hcurr htid hy =>
    obtain ⟨hu, hk, hp⟩ := yields hy
    exact .keeps (by simp) ⟨hu, hk, hp⟩
  | @cleaned c curr via freed s₁ hc hf hx hr =>
    obtain ⟨hu, hk, hp⟩ := hr.same
    exact .keeps (by cases via <;> simp [Caller.ret]) ⟨hu, hk, hp⟩
  | started hc hf hcurr hr =>
    obtain ⟨hu, hk, hp⟩ := hr.same
    exact .keeps (by simp) ⟨hu, hk, hp⟩
  | creates hc hf hcr =>
    cases hcr with
    | full => exact .keeps (by simp) ⟨rfl, rfl, rfl⟩
    | noPages hlt ha => exact .keeps (by simp) ha.same
    | @created i freed s₁ kstack ustack s₂ hlt ha hk hu hne hsch =>
      obtain ⟨hus, hks, hps⟩ := ha.same
      rw [hps] at hk hu
      obtain ⟨t, hst, ht⟩ := ha.threads
      refine .adds rfl hlt.2 ?_ ?_ hk hu hne ?_
      · rw [threadSchedule_state hsch]
        simp [initThread, ht, hst]
      · cases ha with
        | fresh hs => exact .inl ⟨rfl, hs⟩
        | recycled hs => exact .inr ⟨rfl, hs⟩
      · rw [threadSchedule_rest hsch]
        exact ⟨by simp [initThread, hus], by simp [initThread, hks], by simp [initThread, hps]⟩
  | exits hc hf hcurr hu he => exact .keeps (by simp) ⟨he.ustacks, he.kstacks, he.kpages⟩
  | broadcasts hc hf hb =>
    obtain ⟨l, -, rfl⟩ := condBroadcast_cases hb
    exact .keeps (by simp) ⟨rfl, rfl, rfl⟩

namespace Pages

/-- A slot without stacks gets two free pages. -/
theorem add {kstack ustack : ℕ} (h : Pages s) (hk : s.kpages kstack = 0) (hu : s.kpages ustack = 0)
    (hne : ustack ≠ kstack) (v : ℕ) : Pages { s with
      ustacks := update s.ustacks v (some ustack)
      kstacks := update s.kstacks v (some kstack)
      kpages := update (update s.kpages kstack 1) ustack 1 } := by
  set t : State := { s with
    ustacks := update s.ustacks v (some ustack)
    kstacks := update s.kstacks v (some kstack)
    kpages := update (update s.kpages kstack 1) ustack 1 }
  -- Only the slot holds the new pages, and only the others hold old ones.
  have hh : ∀ {w p}, Holds t w p →
      (w = v ∧ (p = ustack ∨ p = kstack)) ∨ (w ≠ v ∧ Holds s w p ∧ p ≠ ustack ∧ p ≠ kstack) := by
    intro w p hp
    by_cases hw : w = v
    · subst hw
      simp only [Holds, t, update_self, Option.some.injEq] at hp
      exact .inl ⟨rfl, hp.imp Eq.symm Eq.symm⟩
    · simp only [Holds, t, update_of_ne hw] at hp
      have hone := h.counted (u := w) (p := p) hp
      refine .inr ⟨hw, hp, ?_, ?_⟩
      · rintro rfl
        omega
      · rintro rfl
        omega
  refine ⟨fun {w p} hp => ?_, fun {w x p} h₁ h₂ => ?_, fun {w p} hp => ?_⟩
  · rcases hh hp with ⟨-, rfl | rfl⟩ | ⟨-, hold, hpu, hpk⟩
    · simp [t]
    · simp [t, hne.symm]
    · simpa [t, hpu, hpk] using h.counted hold
  · rcases hh h₁ with ⟨rfl, hp⟩ | ⟨-, hold, hpu, hpk⟩
    · rcases hh h₂ with ⟨rfl, -⟩ | ⟨-, -, hpu, hpk⟩
      · rfl
      · exact absurd hp (by tauto)
    · rcases hh h₂ with ⟨-, hp⟩ | ⟨-, hold', -⟩
      · exact absurd hp (by tauto)
      · exact h.slot hold hold'
  · by_cases hw : w = v
    · subst hw
      simp only [t, update_self, Option.some.injEq, ne_eq] at hp ⊢
      omega
    · simp only [t, update_of_ne hw] at hp ⊢
      exact h.both hp

end Pages

theorem SameStacks.pages (h : SameStacks s s') (hp : Pages s) : Pages s' :=
  hp.congr h.ustacks h.kstacks h.kpages

theorem pages_step (h : Pages s) (hstep : steps P s a o s') : Pages s' := by
  have hrel : Pages (afterRelease P s o.freed) := by
    cases o.freed with
    | none => exact h
    | some i => exact h.threadFree P i
  cases furnishes_step hstep with
  | keeps hret hs => exact hs.pages hrel
  | adds hret hlt hst hf hk hu hne hs => exact hs.pages (hrel.add hk hu hne _)

theorem furnished_afterRelease (hne : freed.map P.utid ≠ some u) :
    (afterRelease P s freed).ustacks u = s.ustacks u ∧ (afterRelease P s freed).kstacks u = s.kstacks u := by
  cases freed with
  | none => exact ⟨rfl, rfl⟩
  | some i =>
    have hu : u ≠ P.utid i := fun h => hne (by simp [h])
    simp [afterRelease, threadFree_ustacks, threadFree_kstacks, hu]

/-- The stacks of a thread that is neither released nor created. -/
theorem stacks_of_ne (hstep : steps P s a o s') (hu : P.IsUser i) (hz : ∀ j, o.freed = some j → P.IsUser j)
    (hf : o.freed ≠ some i) (hret : ∀ t, o.ret ≠ .created t i) (hb : Cores P s) :
    s'.ustacks (P.utid i) = s.ustacks (P.utid i) ∧ s'.kstacks (P.utid i) = s.kstacks (P.utid i) := by
  have hne : o.freed.map P.utid ≠ some (P.utid i) := by
    intro hm
    obtain ⟨j, hj, hji⟩ := Option.map_eq_some_iff.mp hm
    exact hf (by rw [hj, Platform.utid_inj (hz j hj) hu hji])
  have hrel := furnished_afterRelease (s := s) hne
  cases furnishes_step hstep with
  | keeps _ hs => rw [hs.ustacks, hs.kstacks]; exact hrel
  | @adds t k kstack ustack hr hlt hst hf hk huk hnek hs =>
    have hfree : (s.threads k).state = .notStarted ∨ (s.threads k).state = .zombie :=
      hf.imp And.right And.right
    have hik : P.utid i ≠ P.utid k := by
      intro he
      have hki := Platform.utid_inj hu ⟨hb.le_of_free hfree, hlt⟩ he
      exact hret t (hki ▸ hr)
    rw [hs.ustacks, hs.kstacks]
    simpa [hik] using hrel

theorem stacks_step (ht : Table P s) (h : Stacks P s) (hstep : steps P s a o s') : Stacks P s' := by
  have hzu : ∀ j, o.freed = some j → P.IsUser j := fun j hj =>
    (h.busy j (.inr (.inr (freed_step hstep hj).1))).1
  -- A thread that was created has its pages.
  have hnew : ∀ {t i}, o.ret = .created t i → P.IsUser i ∧ Furnished s' (P.utid i) := by
    intro t i hret
    cases furnishes_step hstep with
    | keeps hno => exact absurd hret (hno t i)
    | @adds t' k kstack ustack hr hlt hst hf hk hu hne hs =>
      obtain ⟨-, rfl⟩ := Ret.created.inj (hret.symm.trans hr)
      refine ⟨⟨ht.cores.le_of_free (hf.imp And.right And.right), hlt⟩, ?_⟩
      rw [Furnished, hs.ustacks, hs.kstacks]
      simp
  refine ⟨pages_step h.pages hstep, fun i hi => ?_, fun i hu hs => ?_⟩
  · rcases busy_step ht hstep hi with hold | ⟨t, hret⟩
    · by_cases hc : ∃ t, o.ret = .created t i
      · exact hnew hc.choose_spec
      · by_cases hf : o.freed = some i
        · -- A thread that was released is not busy.
          exfalso
          obtain ⟨hz, hst⟩ := freed_step hstep hf
          obtain ⟨q, hq⟩ := ht.ready
          obtain ⟨r, hr, hmem⟩ := ready_step hq hstep
          rcases hi with ⟨r', hr', hir⟩ | ⟨-, ha⟩ | hz'
          · rw [hr'.unique hr] at hir
            rcases hmem i hir with hiq | ⟨c, hon⟩ | hret
            · exact (hq.ne_of_state hiq).2 hz
            · simpa [Active, hz] using hon.active
            · exact hc hret
          · rcases hst with hst | hst <;> simp [Active, hst] at ha
          · rcases hst with hst | hst <;> rw [hst] at hz' <;> cases hz'
        · have hold := h.busy i hold
          have hsame := stacks_of_ne hstep hold.1 hzu hf (fun t ht => hc ⟨t, ht⟩) ht.cores
          rw [Furnished, hsame.1, hsame.2]
          exact hold
    · exact hnew hret
  · have hno : ∀ t, o.ret ≠ .created t i := by
      intro t hret
      cases furnishes_step hstep with
      | keeps hno => exact hno t i hret
      | adds hr hlt hst =>
        obtain ⟨-, rfl⟩ := Ret.created.inj (hret.symm.trans hr)
        rw [hst] at hs
        cases hs
    by_cases hf : o.freed = some i
    · cases furnishes_step hstep with
      | keeps _ hsame =>
        rw [hsame.ustacks, hsame.kstacks, hf]
        simp [afterRelease, threadFree_ustacks, threadFree_kstacks]
      | adds hr hlt hst hf' =>
        -- Released in one slot and created in the same one.
        rcases hf' with ⟨hnone, -⟩ | ⟨hsome, -⟩
        · rw [hf] at hnone
          cases hnone
        · obtain rfl := Option.some.inj (hf.symm.trans hsome)
          exact absurd hr (hno _)
    · have hsame := stacks_of_ne hstep hu hzu hf hno ht.cores
      rw [hsame.1, hsame.2]
      refine h.free i hu ?_
      cases turn_step ht hstep i with
      | same h => exact h.symm.trans hs
      | released hfr => exact absurd hfr hf
      | resumes _ _ _ _ h | exits _ _ _ h | stops _ _ _ h | dies _ _ _ h | allocated _ h =>
        rw [h] at hs
        cases hs

theorem stacks_boot (P : Platform) : Stacks P (boot P) := by
  refine ⟨⟨?_, ?_, ?_⟩, ?_, ?_⟩
  · intro u p h
    simp [Holds, boot] at h
  · intro u v p h
    simp [Holds, boot] at h
  · intro u p h
    simp [boot] at h
  · rintro i (⟨q, hq, hi⟩ | ⟨hu, ha⟩ | hz)
    · obtain rfl := hq.linked.unique (q := q) (r := []) rfl
      cases hi
    · have hi : ¬ i < P.coresNum := Nat.not_lt.mpr hu.1
      simp [boot, hi, Active] at ha
    · simp only [boot] at hz
      split_ifs at hz
  · exact fun i _ _ => ⟨rfl, rfl⟩

/-- The slot of thread `i` gets its stacks, or gives them back, in this event. -/
def Out.allocates (i : ℕ) (o : Out) : Bool :=
  match o.ret with
  | .created _ j => j = i
  | _ => false

def Out.releases (i : ℕ) (o : Out) : Bool := o.freed = some i

theorem Out.allocates_iff : o.allocates i = true ↔ ∃ t, o.ret = .created t i := by
  unfold Out.allocates
  cases h : o.ret <;> simp

/-- How often the stacks of slot `i` are allocated in a trace, and how often they are released. -/
def allocs (i : ℕ) (tr : List (Event State Act Out)) : ℕ := tr.countP fun e => e.out.allocates i

def frees (i : ℕ) (tr : List (Event State Act Out)) : ℕ := tr.countP fun e => e.out.releases i

theorem furnished_step (ht : Table P s) (h : Stacks P s) (hstep : steps P s a o s') (hu : P.IsUser i) :
    (if Furnished s' (P.utid i) then 1 else 0) + (if o.releases i then 1 else 0) =
      (if Furnished s (P.utid i) then 1 else 0) + if o.allocates i then 1 else 0 := by
  have hzu : ∀ j, o.freed = some j → P.IsUser j := fun j hj =>
    (h.busy j (.inr (.inr (freed_step hstep hj).1))).1
  have hempty : ∀ {t : State}, t.ustacks (P.utid i) = none ∧ t.kstacks (P.utid i) = none →
      ¬ Furnished t (P.utid i) := by
    rintro t ⟨hus, -⟩ ⟨hsome, -⟩
    simp [hus] at hsome
  by_cases hf : o.freed = some i
  · have hrel : o.releases i = true := by simp [Out.releases, hf]
    have hold := (h.busy i (.inr (.inr (freed_step hstep hf).1))).2
    rw [if_pos hrel, if_pos hold]
    cases furnishes_step hstep with
    | keeps hno hs =>
      have hnew : ¬ o.allocates i = true := by simpa [Out.allocates_iff] using fun t => hno t i
      rw [if_neg hnew, if_neg]
      apply hempty
      rw [hs.ustacks, hs.kstacks, hf]
      simp [afterRelease, threadFree_ustacks, threadFree_kstacks]
    | @adds t k kstack ustack hr hlt hst hf' hk huk hne hs =>
      obtain rfl : i = k := by
        rcases hf' with ⟨hnone, -⟩ | ⟨hsome, -⟩
        · rw [hf] at hnone
          cases hnone
        · exact Option.some.inj (hf.symm.trans hsome)
      have hnew : o.allocates i = true := Out.allocates_iff.mpr ⟨t, hr⟩
      rw [if_pos hnew, if_pos]
      rw [Furnished, hs.ustacks, hs.kstacks]
      simp
  · have hrel : ¬ o.releases i = true := by simpa [Out.releases] using hf
    rw [if_neg hrel]
    by_cases hc : ∃ t, o.ret = .created t i
    · rw [if_pos (Out.allocates_iff.mpr hc)]
      obtain ⟨t, hret⟩ := hc
      cases furnishes_step hstep with
      | keeps hno => exact absurd hret (hno t i)
      | adds hr hlt hst hf' hk huk hne hs =>
        obtain ⟨-, rfl⟩ := Ret.created.inj (hret.symm.trans hr)
        have hns := (hf'.resolve_right fun hx => hf hx.1).2
        rw [if_neg (hempty (h.free i hu hns)), if_pos]
        rw [Furnished, hs.ustacks, hs.kstacks]
        simp
    · rw [if_neg fun hn => hc (Out.allocates_iff.mp hn)]
      have hsame := stacks_of_ne hstep hu hzu hf (fun t ht => hc ⟨t, ht⟩) ht.cores
      have hiff : Furnished s' (P.utid i) ↔ Furnished s (P.utid i) := by
        unfold Furnished
        rw [hsame.1, hsame.2]
      simp only [hiff]

/-- The invariants of the table and of the stacks. -/
structure Held (P : Platform) (s : State) : Prop where
  base : Base P s
  terminal : Terminal P s
  owned : Stacks P s

theorem held_step (h : Held P s) (hstep : steps P s a o s') : Held P s' :=
  ⟨base_step h.base hstep, terminal_step h.base.table h.terminal hstep,
    stacks_step h.base.table h.owned hstep⟩

theorem held_boot (P : Platform) : Held P (boot P) := ⟨base_boot P, terminal_boot P, stacks_boot P⟩

theorem held_of_runs {tr : List (Event State Act Out)} (h : Runs P tr s) : Held P s :=
  h.invariant (P := fun _ => True) (held_boot P) (fun _ _ => trivial) fun _ hs _ hb => held_step hb hs

/-- The stacks of a slot are released as often as they were allocated, but for those that it has. -/
theorem allocs_eq_frees {tr : List (Event State Act Out)} (h : Runs P tr s) (hu : P.IsUser i) :
    allocs i tr = frees i tr + if Furnished s (P.utid i) then 1 else 0 := by
  induction h with
  | nil => simp [allocs, frees, Furnished, boot]
  | snoc hr hs ih =>
    have hb := held_of_runs hr
    have hstep := furnished_step hb.base.table hb.owned hs hu
    simp only [allocs, frees, List.countP_append, List.countP_singleton] at ih ⊢
    omega

end Nanvix.Pm
