import Nanvix.Sync.Outcome

/-! The busy flag protects a synchronisation point while the hardware works on it without the lock.
Between the section that sets the flag and the one that clears it the entry stays the same point,
and nobody else starts to operate on it. -/

namespace Nanvix.Sync

open Nanvix.Lib Function
open Nanvix.Noc (Access)

/-- Thread `tid` is between the two sections of `_do_sync_operate` on entry `i`. -/
def Holds (s : State) (tid i : ℕ) : Prop := (s.ops tid).target = some i

/-- What makes an entry the synchronisation point it is. -/
def Entry.point (x : Entry) : Bool × Access × ℤ × Option Mode × ℤ × BitVec 64 :=
  (x.resource.used, x.resource.access, x.hwfd, x.mode, x.master, x.nodeslist)

/-- What a thread that operates on an entry relies on. -/
structure Guarded (s : State) : Prop where
  used : ∀ {tid i}, Holds s tid i → (s.vsync.tab i).resource.used = true
  busy : ∀ {tid i}, Holds s tid i → (s.vsync.tab i).resource.busy = true
  hwfd : ∀ {tid i ty h ret t1 t2}, s.ops tid = .operated i ty h ret t1 t2 →
    h = (s.vsync.tab i).hwfd
  alone : ∀ {tid tid' i}, Holds s tid i → Holds s tid' i → tid = tid'

variable {T : Target} {s t : State} {a : Act} {o : Out} {i tid : ℕ}

/-- An entry that is free or not busy is held by nobody. -/
theorem Guarded.not_holds (h : Guarded s)
    (hi : (s.vsync.tab i).resource.used = false ∨ (s.vsync.tab i).resource.busy = false) (tid : ℕ) :
    ¬ Holds s tid i := by
  intro hh
  rcases hi with hi | hi
  · have := h.used hh
    rw [hi] at this
    cases this
  · have := h.busy hh
    rw [hi] at this
    cases this

/-- A held entry stays what it is in every step, up to its references and its latency. -/
def Kept (s t : State) (i : ℕ) : Prop :=
  (t.vsync.tab i).point = (s.vsync.tab i).point ∧
    (t.vsync.tab i).resource.busy = (s.vsync.tab i).resource.busy

theorem Kept.refl (s : State) (i : ℕ) : Kept s s i := ⟨rfl, rfl⟩

theorem kept_update {j : ℕ} {x : Entry} (ht : t.vsync.tab = update s.vsync.tab j x)
    (hx : i = j → x.point = (s.vsync.tab j).point ∧ x.resource.busy = (s.vsync.tab j).resource.busy) :
    Kept s t i := by
  unfold Kept
  rw [ht]
  by_cases hij : i = j
  · subst hij
    rw [update_self]
    exact hx rfl
  · rw [update_of_ne hij]
    exact ⟨rfl, rfl⟩

/-- In every step of the others, a held entry is kept. -/
theorem Guarded.kept (h : Guarded s) (ho : StepOutcome T s a o t) (hh : Holds s tid i)
    (hnot : ¬ (a = .finish tid ∧ t.ops tid = .idle)) : Kept s t i := by
  have hfree : ∀ {j}, (s.vsync.tab j).resource.used = false ∨ (s.vsync.tab j).resource.busy = false →
      i ≠ j := by
    rintro j hj rfl
    exact h.not_holds hj tid hh
  cases ho with
  | quiet => exact .refl s i
  | shared => exact kept_update rfl fun _ => ⟨rfl, rfl⟩
  | withdrawn _ _ hf => exact kept_update rfl fun hij => absurd hij (hfree (.inl hf))
  | created _ _ _ hf => exact kept_update rfl fun hij => absurd hij (hfree (.inl hf))
  | dropped => exact kept_update rfl fun _ => ⟨rfl, rfl⟩
  | stuck => exact kept_update rfl fun _ => ⟨rfl, rfl⟩
  | freed _ _ _ hidle => exact kept_update rfl fun hij => absurd hij (hfree (.inr hidle))
  | marked _ _ _ _ hidle => exact kept_update rfl fun hij => absurd hij (hfree (.inr hidle))
  | operated => exact .refl s i
  | @failed tid' j ty hwfd ret t1 t2 hpc =>
    -- the thread that clears the flag of an entry is the one that holds it
    refine kept_update rfl fun hij => absurd ⟨?_, ?_⟩ hnot
    · rw [h.alone hh (show Holds s tid' i by rw [Holds, hpc, hij]; rfl)]
    · rw [h.alone hh (show Holds s tid' i by rw [Holds, hpc, hij]; rfl)]
      simp
  | @finished tid' j ty hwfd ret t1 t2 hpc =>
    refine kept_update rfl fun hij => absurd ⟨?_, ?_⟩ hnot
    · rw [h.alone hh (show Holds s tid' i by rw [Holds, hpc, hij]; rfl)]
    · rw [h.alone hh (show Holds s tid' i by rw [Holds, hpc, hij]; rfl)]
      simp

theorem not_idle_of_holds (h : Holds s tid i) : s.ops tid ≠ .idle := by
  intro hidle
  rw [Holds, hidle] at h
  cases h

/-- A step in which a thread marks an entry that nobody operates on. -/
structure Marking (s t : State) (a : Act) (tid i : ℕ) : Prop where
  enters : ∃ ty, a.enters = some (tid, i, ty)
  idle : s.ops tid = .idle
  used : (s.vsync.tab i).resource.used = true
  free : (s.vsync.tab i).resource.busy = false
  entry : t.vsync.tab i = (s.vsync.tab i).setBusy true

/-- Who holds an entry after a step has held it before or has just marked it. -/
theorem holds_of_step (ho : StepOutcome T s a o t) (hh : Holds t tid i) :
    Holds s tid i ∨ Marking s t a tid i := by
  cases ho with
  | quiet | shared | withdrawn | created | dropped | stuck | freed => exact .inl hh
  | @marked a tid' j ty hcall hpc hused hfits hidle =>
    by_cases htid : tid = tid'
    · subst htid
      have hji : j = i := by simpa [Holds, OpPc.target, OpPc.task] using hh
      subst hji
      exact .inr ⟨⟨ty, hcall⟩, hpc, hused, hidle, by simp⟩
    · exact .inl (by simpa [Holds, update_of_ne htid] using hh)
  | @operated tid' j ty ret t1 t2 hpc =>
    by_cases htid : tid = tid'
    · subst htid
      left
      rw [Holds, hpc]
      simpa [Holds, OpPc.target, OpPc.task] using hh
    · exact .inl (by simpa [Holds, update_of_ne htid] using hh)
  | @failed tid' | @finished tid' =>
    by_cases htid : tid = tid'
    · subst htid
      simp [Holds, OpPc.target, OpPc.task] at hh
    · exact .inl (by simpa [Holds, update_of_ne htid] using hh)

/-- A thread that has operated an entry after a step had done so before, or does it now. -/
theorem operated_of_step (ho : StepOutcome T s a o t) {ty : VsyncType} {h ret : ℤ} {t1 t2 : UInt64}
    (hpc : t.ops tid = .operated i ty h ret t1 t2) :
    s.ops tid = .operated i ty h ret t1 t2 ∨
      a = .operate tid ret t1 t2 ∧ o.hwfd = some h ∧ h = (t.vsync.tab i).hwfd := by
  cases ho with
  | quiet | shared | withdrawn | created | dropped | stuck | freed => exact .inl hpc
  | @marked a tid' | @failed tid' | @finished tid' =>
    by_cases htid : tid = tid'
    · subst htid
      simp at hpc
    · exact .inl (by simpa [update_of_ne htid] using hpc)
  | @operated tid' j ty' ret' t1' t2' hpc' =>
    by_cases htid : tid = tid'
    · subst htid
      obtain ⟨rfl, -, rfl, rfl, rfl, rfl⟩ : j = i ∧ ty' = ty ∧ (s.vsync.tab j).hwfd = h ∧
        ret' = ret ∧ t1' = t1 ∧ t2' = t2 := by simpa using hpc
      exact .inr ⟨rfl, rfl, rfl⟩
    · exact .inl (by simpa [update_of_ne htid] using hpc)

theorem Guarded.step (h : Guarded s) (ho : StepOutcome T s a o t) : Guarded t := by
  -- an entry that is held on both sides of a step is kept by it
  have hkept : ∀ {tid i}, Holds t tid i → Holds s tid i → Kept s t i := fun ht hs =>
    h.kept ho hs fun hfin => not_idle_of_holds ht hfin.2
  constructor
  case used =>
    intro tid i hh
    rcases holds_of_step ho hh with hs | hm
    · exact (congrArg (·.1) (hkept hh hs).1).trans (h.used hs)
    · rw [hm.entry]
      exact hm.used
  case busy =>
    intro tid i hh
    rcases holds_of_step ho hh with hs | hm
    · exact (hkept hh hs).2.trans (h.busy hs)
    · rw [hm.entry]
      rfl
  case hwfd =>
    intro tid i ty f ret t1 t2 hpc
    rcases operated_of_step ho hpc with hs | ⟨-, -, hf⟩
    · have hh : Holds t tid i := by rw [Holds, hpc]; rfl
      have hh' : Holds s tid i := by rw [Holds, hs]; rfl
      exact (h.hwfd hs).trans (congrArg (·.2.2.1) (hkept hh hh').1).symm
    · exact hf
  case alone =>
    intro tid tid' i hh hh'
    rcases holds_of_step ho hh with hs | hm <;> rcases holds_of_step ho hh' with hs' | hm'
    · exact h.alone hs hs'
    · exact absurd hs (h.not_holds (.inr hm'.free) tid)
    · exact absurd hs' (h.not_holds (.inr hm.free) tid')
    · obtain ⟨ty, he⟩ := hm.enters
      obtain ⟨ty', he'⟩ := hm'.enters
      rw [he] at he'
      simpa using congrArg (Option.map (·.1)) he'

theorem guarded_init : Guarded init where
  used h := nomatch h
  busy h := nomatch h
  hwfd h := nomatch h
  alone h := nomatch h

theorem guarded_runs {tr : List (Event State Act Out)} (h : Runs T tr s) : Guarded s :=
  h.invariant (P := fun _ => True) guarded_init (fun _ _ => trivial)
    fun _ hs _ hg => hg.step (steps_cases hs)

/-! ### From marking to clearing -/

/-- Thread `tid` marks entry `i` as busy, to wait or to signal. -/
def Marks (e : Event State Act Out) (tid i : ℕ) (ty : VsyncType) : Prop :=
  e.act.enters = some (tid, i, ty) ∧ e.pre.ops tid = .idle ∧ e.post.ops tid = .marked i ty

/-- Thread `tid` clears the flag again. -/
def Clears (e : Event State Act Out) (tid : ℕ) : Prop :=
  e.act = .finish tid ∧ e.post.ops tid = .idle

/-- The entry `i` that a thread has marked is still the point `x`, and the thread's alone. -/
structure Protected (x : Entry) (tid i : ℕ) (ty : VsyncType) (s : State) : Prop where
  guarded : Guarded s
  task : (s.ops tid).task = some (i, ty)
  point : (s.vsync.tab i).point = x.point

theorem Protected.holds {x : Entry} {ty : VsyncType} (h : Protected x tid i ty s) : Holds s tid i := by
  rw [Holds, OpPc.target, h.task]
  rfl

/-- Until it clears the flag a thread stays with its entry. -/
theorem task_of_step (ho : StepOutcome T s a o t) {x : ℕ × VsyncType}
    (hx : (s.ops tid).task = some x) (hnot : ¬ (a = .finish tid ∧ t.ops tid = .idle)) :
    (t.ops tid).task = some x := by
  cases ho with
  | quiet | shared | withdrawn | created | dropped | stuck | freed => exact hx
  | @marked a tid' j ty hcall hpc =>
    by_cases htid : tid = tid'
    · subst htid
      rw [hpc] at hx
      cases hx
    · simpa [update_of_ne htid] using hx
  | @operated tid' j ty ret t1 t2 hpc =>
    by_cases htid : tid = tid'
    · subst htid
      rw [hpc] at hx
      simpa [OpPc.task] using hx
    · simpa [update_of_ne htid] using hx
  | @failed tid' | @finished tid' =>
    by_cases htid : tid = tid'
    · exact absurd ⟨by rw [htid], by simp [htid]⟩ hnot
    · simpa [update_of_ne htid] using hx

theorem Protected.step {x : Entry} {ty : VsyncType} (h : Protected x tid i ty s)
    (ho : StepOutcome T s a o t) (hnot : ¬ (a = .finish tid ∧ t.ops tid = .idle)) :
    Protected x tid i ty t where
  guarded := h.guarded.step ho
  task := task_of_step ho h.task hnot
  point := (h.guarded.kept ho h.holds hnot).1.trans h.point

/-- The hardware is given the descriptor of the entry that the thread has marked. -/
theorem hwfd_of_operate {ret f : ℤ} {t1 t2 : UInt64} (hs : steps T s (.operate tid ret t1 t2) o t)
    (hf : o.hwfd = some f) : ∃ j ty, s.ops tid = .marked j ty ∧ (s.vsync.tab j).hwfd = f := by
  change hwOperate s tid ret t1 t2 = (o, t) at hs
  unfold hwOperate at hs
  split at hs
  · rename_i j ty hpc
    cases hs
    exact ⟨j, ty, hpc, Option.some.inj hf⟩
  · cases hs
    cases hf

/-- What a thread can count on in a step of anybody, up to its own that clears the flag. -/
structure Undisturbed (x : Entry) (tid i : ℕ) (e : Event State Act Out) : Prop where
  point : (e.post.vsync.tab i).point = x.point
  used : (e.post.vsync.tab i).resource.used = true
  busy : (e.post.vsync.tab i).resource.busy = true
  single : ∀ tid' ty', ¬ Marks e tid' i ty'
  operates : ∀ ret t1 t2, e.act = .operate tid ret t1 t2 →
    ∀ f, e.out.hwfd = some f → f = x.hwfd

theorem Protected.undisturbed {x : Entry} {ty : VsyncType} {e : Event State Act Out}
    (h : Protected x tid i ty e.pre) (hs : steps T e.pre e.act e.out e.post) (hnot : ¬ Clears e tid) :
    Undisturbed x tid i e := by
  have hpost := h.step (steps_cases hs) hnot
  constructor
  case point => exact hpost.point
  case used => exact hpost.guarded.used hpost.holds
  case busy => exact hpost.guarded.busy hpost.holds
  case single =>
    rintro tid' ty' ⟨-, hidle, hm⟩
    have hh : Holds e.post tid' i := by
      rw [Holds, hm]
      rfl
    obtain rfl := hpost.guarded.alone hpost.holds hh
    exact not_idle_of_holds h.holds hidle
  case operates =>
    rintro ret t1 t2 hact f hf
    obtain ⟨j, ty', hpc, rfl⟩ := hwfd_of_operate (hact ▸ hs) hf
    have htask := h.task
    rw [hpc] at htask
    cases htask
    exact congrArg (·.2.2.1) h.point

/-- The end of an operation: the flag of the entry is cleared, and an operation that went well adds its
time to the entry and is counted. -/
structure Charged (v v' : Vsync) (i : ℕ) (ty : VsyncType) (ret : ℤ) (t1 t2 : UInt64) : Prop where
  entry : v'.tab i = { v.tab i with
    latency := (v.tab i).latency + if 0 ≤ ret then t2 - t1 else 0
    resource := { (v.tab i).resource with busy := false } }
  others : ∀ k, k ≠ i → v'.tab k = v.tab k
  counters : v'.counters = { v.counters with
    nwaits := v.counters.nwaits + if 0 ≤ ret ∧ ty = .input then 1 else 0
    nsignals := v.counters.nsignals + if 0 ≤ ret ∧ ty = .output then 1 else 0 }

theorem operateLeave_charged (v : Vsync) (i : ℕ) (ty : VsyncType) (ret : ℤ) (t1 t2 : UInt64) :
    Charged v (operateLeave v i ty ret t1 t2) i ty ret t1 t2 := by
  by_cases hret : 0 ≤ ret
  · rw [operateLeave, if_pos hret]
    refine ⟨?_, fun k hk => ?_, ?_⟩
    · simp [Entry.setBusy, hret]
    · simp [hk]
    · cases ty <;> simp [Counters.operated, hret]
  · rw [operateLeave, if_neg hret]
    refine ⟨?_, fun k hk => ?_, ?_⟩
    · simp [Entry.setBusy, hret]
    · simp [hk]
    · simp [hret]

/-- The effect of the section that clears the flag. -/
theorem clears_effect {e : Event State Act Out} (hs : steps T e.pre e.act e.out e.post)
    (hc : Clears e tid) {ty : VsyncType} (htask : (e.pre.ops tid).task = some (i, ty)) :
    ∃ f ret t1 t2, e.pre.ops tid = .operated i ty f ret t1 t2 ∧
      Charged e.pre.vsync e.post.vsync i ty ret t1 t2 := by
  obtain ⟨hact, hidle⟩ := hc
  rw [hact] at hs
  change leave e.pre tid = (e.out, e.post) at hs
  unfold leave at hs
  split at hs
  · rename_i j ty' f ret t1 t2 hpc
    rw [hpc] at htask
    cases htask
    refine ⟨f, ret, t1, t2, hpc, ?_⟩
    rw [← (Prod.mk.inj hs).2]
    exact operateLeave_charged ..
  · -- a thread that has not called the hardware yet cannot clear the flag
    rw [← (Prod.mk.inj hs).2] at hidle
    rw [hidle] at htask
    cases htask

/-- A synchronisation point in use is never pulled away. From the step `m` in which a thread marks
entry `i` as busy until the step in which it clears the flag, whatever the others do, the entry
stays the same point, nobody else starts to operate on it, and the hardware gets its descriptor.
The thread clears the flag after it has operated that descriptor. The time of the operation is
added to the same point, the counter of its direction is raised, and nothing else changes. -/
theorem operated_point_stays {tr l w r : List (Event State Act Out)} {m : Event State Act Out}
    {ty : VsyncType} (h : Runs T tr s) (htr : tr = l ++ m :: (w ++ r)) (hm : Marks m tid i ty)
    (hw : ∀ e ∈ w, ¬ Clears e tid) :
    (m.post.vsync.tab i).resource.used = true ∧ (m.post.vsync.tab i).resource.busy = true ∧
      (∀ e ∈ w, Undisturbed (m.post.vsync.tab i) tid i e) ∧
      ∀ f r', r = f :: r' → Clears f tid →
        (f.pre.vsync.tab i).point = (m.post.vsync.tab i).point ∧
        ∃ ret t1 t2, (∃ e ∈ w, e.act = .operate tid ret t1 t2 ∧
            e.out.hwfd = some (m.post.vsync.tab i).hwfd) ∧
          Charged f.pre.vsync f.post.vsync i ty ret t1 t2 := by
  subst htr
  obtain ⟨hl, hsm, hrest⟩ := Run.at_event h
  obtain ⟨u, hrun, hr⟩ := hrest.split
  have hpre : Guarded m.pre := guarded_runs hl
  have hpost : Protected (m.post.vsync.tab i) tid i ty m.post :=
    ⟨hpre.step (steps_cases hsm), by rw [hm.2.2]; rfl, rfl⟩
  have hstep : ∀ e : Event State Act Out, steps T e.pre e.act e.out e.post → ¬ Clears e tid →
      Protected (m.post.vsync.tab i) tid i ty e.pre →
        Protected (m.post.vsync.tab i) tid i ty e.post :=
    fun e hs hnot hp => hp.step (steps_cases hs) hnot
  have hend : Protected (m.post.vsync.tab i) tid i ty u := hrun.invariant hpost hw hstep
  refine ⟨hpost.guarded.used hpost.holds, hpost.guarded.busy hpost.holds, fun e he => ?_, ?_⟩
  · exact (hrun.invariant_of_mem hpost hw hstep he).1.undisturbed (hrun.step_of_mem he) (hw e he)
  · rintro f r' rfl hf
    obtain ⟨hnil, hsf, -⟩ := Run.at_event (l := []) hr
    obtain rfl : f.pre = u := hnil.eq_of_nil
    obtain ⟨fd, ret, t1, t2, hpc, heff⟩ := clears_effect hsf hf hend.task
    refine ⟨hend.point, ret, t1, t2, ?_, heff⟩
    -- the thread had not called the hardware when it marked the entry
    obtain ⟨l', e, r'', rfl, hb, -⟩ := hrun.since (Q := fun s => s.ops tid = .operated i ty fd ret t1 t2)
      (B := fun e => e.act = .operate tid ret t1 t2 ∧ e.out.hwfd = some fd)
      (by rw [hm.2.2]; simp) hpc fun e he hq =>
        (operated_of_step (steps_cases (hrun.step_of_mem he)) hq).symm.imp_left fun hb => ⟨hb.1, hb.2.1⟩
    have hfd : fd = (m.post.vsync.tab i).hwfd :=
      (hend.guarded.hwfd hpc).trans (congrArg (·.2.2.1) hend.point)
    exact ⟨e, by simp, hb.1, by rw [hb.2, hfd]⟩

/-- An unlink while thread 5 waits is refused, and the four ticks of the wait are charged to its
point. -/
theorem operated_point_stays_unlink :
    ∃ (w : List (Event State Act Out)) (f : Event State Act Out),
      w.map (·.act) = [.unlink 0 0, .operate 5 0 3 7] ∧
      w.head?.map (·.out.ret) = some (some (.error .EBUSY)) ∧
      (∃ x : Entry, ∀ e ∈ w, Undisturbed x 5 0 e) ∧
      (f.post.vsync.tab 0).latency = (f.pre.vsync.tab 0).latency + 4 ∧
      (f.post.vsync.tab 0).resource.busy = false ∧
      f.post.vsync.counters.nwaits = f.pre.vsync.counters.nwaits + 1 := by
  obtain ⟨-, -, hstays, hends⟩ := operated_point_stays (l := [_]) (m := _) (w := [_, _]) (r := [_])
    (trail_run (step smallTarget) init
      [.create [0, 1] .allToOne 9, .wait 5 0, .unlink 0 0, .operate 5 0 3 7, .finish 5])
    rfl ⟨rfl, rfl, rfl⟩ (by simp [Clears])
  obtain ⟨-, ret, t1, t2, ⟨e, he, hact, -⟩, hcharged⟩ := hends _ _ rfl ⟨rfl, rfl⟩
  obtain ⟨rfl, rfl, rfl⟩ : ret = 0 ∧ t1 = 3 ∧ t2 = 7 := by
    rcases List.mem_pair.mp he with rfl | rfl
    · cases hact
    · cases hact
      exact ⟨rfl, rfl, rfl⟩
  have hlatency := congrArg Entry.latency hcharged.entry
  have hbusy := congrArg (·.resource.busy) hcharged.entry
  have hwaits := congrArg Counters.nwaits hcharged.counters
  exact ⟨_, _, rfl, rfl, ⟨_, hstays⟩, hlatency, hbusy, hwaits⟩

end Nanvix.Sync
