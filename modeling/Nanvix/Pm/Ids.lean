import Nanvix.Pm.Stacks

/-! The identifiers of threads. A thread keeps the identifier that `thread_create` gave it
until its slot is released, and no other slot ever gets it. A thread that was created either
is live in its slot or has exited, which it does once. -/

namespace Nanvix.Pm

open Nanvix.Lib

variable {P : Platform} {s s' : State} {a : Act} {o : Out} {c i j : ℕ} {t : ℤ} {xs : List ExitValue}

/-- `thread_join` waits for such a thread. -/
def Live (t : Thread) : Prop := t.state ≠ .notStarted ∧ t.state ≠ .terminated ∧ t.state ≠ .zombie

def Out.exitValue (o : Out) : Option ExitValue :=
  match o.ret with
  | .exited tid retval => some ⟨tid, retval⟩
  | _ => none

theorem Out.exitValue_eq_some {x : ExitValue} : o.exitValue = some x ↔ o.ret = .exited x.tid x.retval := by
  obtain ⟨tid, retval⟩ := x
  unfold Out.exitValue
  cases h : o.ret <;> simp

/-! ### What one step does -/

theorem created_step (hstep : steps P s a o s') (hret : o.ret = .created t i) :
    t = s.nextTid ∧ i < P.kthreadMax ∧
      ((s.threads i).state = .notStarted ∨ (s.threads i).state = .zombie) ∧
      (s'.threads i).state = .started ∧ s'.nextTid = s.nextTid + 1 := by
  cases moves_of_step hstep with
  | creates hc hf hcr =>
    have hnext := hcr.nextTid
    cases hcr with
    | full | noPages => cases hret
    | @created k freed s₁ kstack ustack s₂ hlt ha hk hu hne hsch =>
      obtain ⟨rfl, rfl⟩ := Ret.created.inj hret
      refine ⟨ha.nextTid, hlt.2, ha.free, ?_, hnext⟩
      obtain ⟨t, ht, hthreads⟩ := ha.threads
      rw [threadSchedule_state hsch]
      simp [initThread, hthreads, ht]
  | @cleaned c curr via freed s₁ hc hf hx hr => cases via <;> cases hret
  | _ => cases hret

theorem nextTid_step (hstep : steps P s a o s') (hret : ∀ t i, o.ret ≠ .created t i) :
    s'.nextTid = s.nextTid := by
  cases moves_of_step hstep with
  | yields hc ha hcurr htid hy => rw [State.setFrame_nextTid, hy.rest]
  | cleaned hc hf hx hr | started hc hf hcurr hr => rw [State.setFrame_nextTid, hr.nextTid]
  | creates hc hf hcr =>
    rw [hcr.nextTid]
    cases hcr with
    | full | noPages => rfl
    | created => exact absurd rfl (hret _ _)
  | exits hc hf hcurr hu he => rw [State.setFrame_nextTid, he.nextTid]
  | broadcasts hc hf hb =>
    obtain ⟨l, -, rfl⟩ := condBroadcast_cases hb
    rfl
  | _ => rfl

/-- A thread that exits is the current one of a core, in user code. -/
theorem exit_step (hstep : steps P s a o s') {x : ExitValue} (hx : o.exitValue = some x) :
    ∃ c i, c < P.coresNum ∧ OnCore P s c i ∧ P.IsUser i ∧ (s.cpus c).frame = .user ∧
      x.tid = (s.threads i).tid ∧ (s'.threads i).state = .terminated ∧ a = .exit c x.retval := by
  rw [Out.exitValue_eq_some] at hx
  cases moves_of_step hstep with
  | @exits c retval curr s₁ hc hf hcurr hu he =>
    obtain ⟨htid, hval⟩ := Ret.exited.inj hx
    refine ⟨c, curr, hc, threadGetCurr_some hcurr, hu, hf, htid.symm, ?_, by rw [hval]⟩
    rw [State.setFrame_threads, he.threads, Function.update_self]
  | @cleaned c curr via freed s₁ hc hf hcx hr => cases via <;> cases hx
  | creates hc hf hcr => cases hcr <;> cases hx
  | _ => cases hx

/-- A thread is live until it exits. -/
theorem live_step (ht : Table P s) (hstep : steps P s a o s') (h : Live (s.threads i)) :
    Live (s'.threads i) ∨ ∃ retval, o.ret = .exited (s.threads i).tid retval := by
  cases turn_step ht hstep i with
  | same hs =>
    left
    unfold Live
    rwa [hs]
  | resumes _ _ _ _ hs | stops _ _ _ hs => exact .inl (by simp [Live, hs])
  | dies _ _ hs => exact absurd hs h.2.1
  | exits hr => exact .inr ⟨_, hr⟩
  | released _ hs => exact absurd hs h.2.2
  | allocated hs =>
    rcases hs with hs | ⟨hs, -⟩
    · exact absurd hs h.1
    · exact absurd hs h.2.2

/-- A live thread was live before, or its slot was free. -/
theorem live_of_step (ht : Table P s) (hstep : steps P s a o s') (h : Live (s'.threads i)) :
    Live (s.threads i) ∨ (s.threads i).state = .notStarted ∨
      ((s.threads i).state = .zombie ∧ o.freed = some i) := by
  cases turn_step ht hstep i with
  | same hs =>
    left
    unfold Live at h ⊢
    rwa [hs] at h
  | @resumes c curr hc _ hw hna =>
    left
    have hst : (s.threads i).state = .started ∨ (s.threads i).state = .stopped ∨
        (s.threads i).state = .running := by
      rcases hw with hh | rfl
      · obtain ⟨q, hq⟩ := ht.ready
        obtain ⟨r, rfl⟩ := hq.eq_cons hh
        exact (hq.state i (List.mem_cons_self ..)).imp_right .inl
      · exact .inr (ht.cores.system i hc).2.symm
    rcases hst with hst | hst | hst <;> simp [Live, hst]
  | stops _ _ hs => exact .inl (by simp [Live, hs])
  | dies _ _ _ hs => exact absurd hs h.2.2
  | exits _ _ _ hs => exact absurd hs h.2.1
  | released _ _ hs => exact absurd hs h.1
  | allocated hs => exact .inr hs

theorem not_free_of_live (h : Live (s.threads i)) :
    ¬ ((s.threads i).state = .notStarted ∨ (s.threads i).state = .zombie) :=
  not_or.mpr ⟨h.1, h.2.2⟩

/-- A slot that is not free keeps its identifier. -/
theorem tid_of_not_free (hstep : steps P s a o s')
    (h : ¬ ((s.threads i).state = .notStarted ∨ (s.threads i).state = .zombie)) :
    (s'.threads i).tid = (s.threads i).tid := by
  rcases tid_step hstep i with ⟨hr, -⟩ | ⟨hf, -⟩ | ⟨-, -, htid⟩
  · exact absurd (created_step hstep hr).2.2.1 h
  · exact absurd (.inr (freed_step hstep hf).1) h
  · exact htid

/-! ### The identifiers in use -/

/-- The identifiers after the exits `xs`. -/
structure Ids (P : Platform) (xs : List ExitValue) (s : State) : Prop where
  base : P.coresNum ≤ s.nextTid
  system : ∀ i < P.coresNum, (s.threads i).tid = i
  user : ∀ i, P.IsUser i → (s.threads i).tid = -1 ∨
    (P.coresNum ≤ (s.threads i).tid ∧ (s.threads i).tid < s.nextTid)
  unused : ∀ i, (s.threads i).state = .notStarted → (s.threads i).tid = -1
  named : ∀ i, Busy P s i → (s.threads i).tid ≠ -1
  unique : ∀ {i j}, i < P.kthreadMax → j < P.kthreadMax → (s.threads i).tid = (s.threads j).tid →
    (s.threads i).tid ≠ -1 → i = j
  live : ∀ i < P.kthreadMax, Live (s.threads i) → ∀ x ∈ xs, x.tid ≠ (s.threads i).tid
  past : ∀ x ∈ xs, P.coresNum ≤ x.tid ∧ x.tid < s.nextTid
  fate : ∀ t : ℤ, P.coresNum ≤ t → t < s.nextTid →
    (∃ x ∈ xs, x.tid = t) ∨ ∃ i < P.kthreadMax, (s.threads i).tid = t ∧ Live (s.threads i)
  once : (xs.map ExitValue.tid).Nodup

namespace Ids

theorem lt_nextTid (h : Ids P xs s) (hi : i < P.kthreadMax) : (s.threads i).tid < s.nextTid := by
  have hbase := h.base
  by_cases hsys : i < P.coresNum
  · rw [h.system i hsys]
    omega
  · rcases h.user i ⟨Nat.not_lt.mp hsys, hi⟩ with hn | hn <;> omega

/-- What a slot is called after a step. -/
theorem tid_cases (hstep : steps P s a o s') (i : ℕ) :
    ((s'.threads i).tid = s.nextTid ∧ s'.nextTid = s.nextTid + 1 ∧ o.ret = .created s.nextTid i) ∨
      (s'.threads i).tid = -1 ∨
      ((s'.threads i).tid = (s.threads i).tid ∧ o.freed ≠ some i ∧ ∀ t, o.ret ≠ .created t i) := by
  rcases tid_step hstep i with ⟨hr, htid⟩ | ⟨-, -, htid⟩ | ⟨hf, hr, htid⟩
  · exact .inl ⟨htid, (created_step hstep hr).2.2.2.2, hr⟩
  · exact .inr (.inl htid)
  · exact .inr (.inr ⟨htid, hf, hr⟩)

theorem nextTid_le (hstep : steps P s a o s') : s.nextTid ≤ s'.nextTid := by
  by_cases hr : ∃ t i, o.ret = .created t i
  · obtain ⟨t, i, hr⟩ := hr
    have := (created_step hstep hr).2.2.2.2
    omega
  · have := nextTid_step hstep fun t i h => hr ⟨t, i, h⟩
    omega

theorem exits (h : Ids P xs s) (hh : Held P s) (hstep : steps P s a o s') {x : ExitValue}
    (hx : o.exitValue = some x) : ∃ i, P.IsUser i ∧ Live (s.threads i) ∧ x.tid = (s.threads i).tid ∧
      (s.threads i).tid ≠ -1 ∧ (s'.threads i).state = .terminated := by
  obtain ⟨c, i, hc, hon, hu, hf, htid, hst, -⟩ := exit_step hstep hx
  have hrun := hh.terminal.running hon (by simp [hf]) (by simp [hf])
  exact ⟨i, hu, by simp [Live, hrun], htid, h.named i (.inr (.inl ⟨hu, hon.active⟩)), hst⟩

theorem mem_append {x : ExitValue} (hx : x ∈ xs ++ o.exitValue.toList) : x ∈ xs ∨ o.exitValue = some x := by
  rcases List.mem_append.mp hx with hx | hx
  · exact .inl hx
  · exact .inr (Option.mem_toList.mp hx)

theorem unused_step (h : Ids P xs s) (ht : Table P s) (hstep : steps P s a o s')
    (hs : (s'.threads i).state = .notStarted) : (s'.threads i).tid = -1 := by
  rcases tid_cases hstep i with ⟨-, -, hr⟩ | htid | ⟨htid, hf, -⟩
  · rw [(created_step hstep hr).2.2.2.1] at hs
    cases hs
  · exact htid
  · rw [htid]
    cases turn_step ht hstep i with
    | same hsame => exact h.unused i (hsame.symm.trans hs)
    | released hfreed => exact absurd hfreed hf
    | resumes _ _ _ _ h' | stops _ _ _ h' | dies _ _ _ h' | exits _ _ _ h' | allocated _ h' =>
      rw [h'] at hs
      cases hs

/-- Who is released is not busy any more. -/
theorem not_busy_of_freed (ht : Table P s) (hstep : steps P s a o s') (hf : o.freed = some i)
    (hr : ∀ t, o.ret ≠ .created t i) : ¬ Busy P s' i := by
  obtain ⟨hz, hs⟩ := freed_step hstep hf
  rintro (⟨r', hr', hi⟩ | ⟨-, ha⟩ | hz')
  · obtain ⟨q, hq⟩ := ht.ready
    obtain ⟨r, hready, hmem⟩ := ready_step hq hstep
    rw [hr'.unique hready] at hi
    rcases hmem i hi with hi | ⟨c, hon⟩ | ⟨t, hc⟩
    · have := hq.state i hi
      simp [hz] at this
    · have := hon.active
      simp [Active, hz] at this
    · exact hr t hc
  · rcases hs with hs | hs <;> simp [Active, hs] at ha
  · rcases hs with hs | hs <;> simp [hs] at hz'

theorem named_step (h : Ids P xs s) (ht : Table P s) (hstep : steps P s a o s') (hb : Busy P s' i) :
    (s'.threads i).tid ≠ -1 := by
  have hbase := h.base
  rcases tid_step hstep i with ⟨hr, htid⟩ | ⟨hf, hr, -⟩ | ⟨-, hr, htid⟩
  · omega
  · exact absurd hb (not_busy_of_freed ht hstep hf hr)
  · rcases busy_step ht hstep hb with hb | ⟨t, hc⟩
    · rw [htid]
      exact h.named i hb
    · exact absurd hc (hr t)

theorem unique_step (h : Ids P xs s) (hstep : steps P s a o s') (hi : i < P.kthreadMax)
    (hj : j < P.kthreadMax) (heq : (s'.threads i).tid = (s'.threads j).tid)
    (hne : (s'.threads i).tid ≠ -1) : i = j := by
  have hli := h.lt_nextTid hi
  have hlj := h.lt_nextTid hj
  rcases tid_cases hstep i with ⟨hti, -, hri⟩ | hti | ⟨hti, -⟩
  · rcases tid_cases hstep j with ⟨-, -, hrj⟩ | htj | ⟨htj, -⟩
    · exact (Ret.created.inj (hri.symm.trans hrj)).2
    · omega
    · omega
  · exact absurd hti hne
  · rcases tid_cases hstep j with ⟨htj, -⟩ | htj | ⟨htj, -⟩
    · omega
    · omega
    · exact h.unique hi hj (by omega) (by omega)

/-- A live thread is not one of those that have exited. -/
theorem live_next (h : Ids P xs s) (hh : Held P s) (hstep : steps P s a o s') (hi : i < P.kthreadMax)
    (hl : Live (s'.threads i)) {x : ExitValue} (hx : x ∈ xs ++ o.exitValue.toList) :
    x.tid ≠ (s'.threads i).tid := by
  have hbase := h.base
  rcases mem_append hx with hx | hx
  · have hpast := h.past x hx
    rcases live_of_step hh.base.table hstep hl with hl | hfree
    · rw [tid_of_not_free hstep (not_free_of_live hl)]
      exact h.live i hi hl x hx
    · -- The slot is new, and so is its name, if it has one.
      rcases tid_cases hstep i with ⟨htid, -⟩ | htid | ⟨htid, hf, -⟩
      · omega
      · omega
      · rcases hfree with hs | ⟨-, hf'⟩
        · have := h.unused i hs
          omega
        · exact absurd hf' hf
  · obtain ⟨k, hu, hlk, htid, hne, hst⟩ := h.exits hh hstep hx
    intro heq
    obtain rfl : k = i := by
      rcases tid_cases hstep i with ⟨-, -, hr⟩ | hi' | ⟨hi', -⟩
      · rw [Out.exitValue_eq_some, hr] at hx
        cases hx
      · omega
      · exact h.unique hu.2 hi (by omega) hne
    exact hl.2.1 hst

/-- Every identifier that was given belongs to a live thread or to one that has exited. -/
theorem fate_step (h : Ids P xs s) (ht : Table P s) (hstep : steps P s a o s') {t : ℤ}
    (hN : P.coresNum ≤ t) (hlt : t < s'.nextTid) :
    (∃ x ∈ xs ++ o.exitValue.toList, x.tid = t) ∨
      ∃ i < P.kthreadMax, (s'.threads i).tid = t ∧ Live (s'.threads i) := by
  by_cases hnew : t < s.nextTid
  · rcases h.fate t hN hnew with ⟨x, hx, hxt⟩ | ⟨i, hi, htid, hl⟩
    · exact .inl ⟨x, List.mem_append_left _ hx, hxt⟩
    · rcases live_step ht hstep hl with hl' | ⟨retval, hr⟩
      · exact .inr ⟨i, hi, (tid_of_not_free hstep (not_free_of_live hl)).trans htid, hl'⟩
      · have hx : o.exitValue = some ⟨t, retval⟩ := Out.exitValue_eq_some.mpr (htid ▸ hr)
        exact .inl ⟨_, List.mem_append_right _ (Option.mem_toList.mpr hx), rfl⟩
  · by_cases hr : ∃ t i, o.ret = .created t i
    · obtain ⟨t', i, hr⟩ := hr
      obtain ⟨rfl, hi, -, hst, hnext⟩ := created_step hstep hr
      have htid : (s'.threads i).tid = s.nextTid := by
        rcases tid_step hstep i with ⟨-, htid⟩ | ⟨-, hno, -⟩ | ⟨-, hno, -⟩
        · exact htid
        · exact absurd hr (hno _)
        · exact absurd hr (hno _)
      exact .inr ⟨i, hi, by omega, by simp [Live, hst]⟩
    · have := nextTid_step hstep fun t i h => hr ⟨t, i, h⟩
      omega

theorem once_step (h : Ids P xs s) (hh : Held P s) (hstep : steps P s a o s') :
    ((xs ++ o.exitValue.toList).map ExitValue.tid).Nodup := by
  rw [List.map_append, List.nodup_append]
  refine ⟨h.once, ?_, ?_⟩
  · cases o.exitValue <;> simp
  · intro t ht t' ht' heq
    obtain ⟨x, hx, rfl⟩ := List.mem_map.mp ht
    obtain ⟨y, hy, rfl⟩ := List.mem_map.mp ht'
    obtain ⟨k, hu, hl, htid, -⟩ := h.exits hh hstep (Option.mem_toList.mp hy)
    exact h.live k hu.2 hl x hx (heq.trans htid)

theorem step (h : Ids P xs s) (hh : Held P s) (hstep : steps P s a o s') :
    Ids P (xs ++ o.exitValue.toList) s' := by
  have ht := hh.base.table
  have hbase := h.base
  have hle := nextTid_le hstep
  refine ⟨by omega, ?_, ?_, fun i => h.unused_step ht hstep, fun i => h.named_step ht hstep,
    h.unique_step hstep, fun i hi hl x hx => h.live_next hh hstep hi hl hx, ?_,
    fun t => h.fate_step ht hstep, h.once_step hh hstep⟩
  · intro i hi
    have hnotFree : ¬ ((s.threads i).state = .notStarted ∨ (s.threads i).state = .zombie) := by
      rcases (ht.cores.system i hi).2 with hs | hs <;> simp [hs]
    rw [tid_of_not_free hstep hnotFree, h.system i hi]
  · intro i hu
    rcases tid_cases hstep i with ⟨htid, hnext, -⟩ | htid | ⟨htid, -⟩
    · exact .inr (by omega)
    · exact .inl htid
    · rw [htid]
      rcases h.user i hu with hn | hn
      · exact .inl hn
      · exact .inr (by omega)
  · intro x hx
    rcases mem_append hx with hx | hx
    · have := h.past x hx
      omega
    · obtain ⟨k, hu, -, htid, hne, -⟩ := h.exits hh hstep hx
      have := (h.user k hu).resolve_left hne
      omega

theorem boot (P : Platform) : Ids P [] (boot P) where
  base := Int.le_refl _
  system i hi := by simp [Pm.boot, hi]
  user i hu := .inl (by simp [Pm.boot, Nat.not_lt.mpr hu.1])
  unused i hs := by
    simp only [Pm.boot] at hs ⊢
    split_ifs at hs ⊢
    rfl
  named i hb := by
    have := ((stacks_boot P).busy i hb).2.1
    simp [Pm.boot] at this
  unique {i j} hi hj heq hne := by
    simp only [Pm.boot] at heq hne
    split_ifs at heq hne <;> dsimp only at heq hne <;> omega
  live i _ _ x hx := by simp at hx
  past x hx := by simp at hx
  fate t hN hlt := absurd hlt (Int.not_lt.mpr hN)
  once := .nil

end Ids

end Nanvix.Pm
