import Nanvix.Lib.Ring
import Nanvix.Pm.Owners
import Nanvix.Pm.Sleep

/-! Joining a thread. `thread_join` sleeps at most once, on the condition variable of a slot,
and then looks for the exit value in a ring that other threads keep writing to. What it
relies on is that the slot is not released before the thread has exited, which is when
everybody who sleeps for it is woken up, and that identifiers are not given twice. -/

namespace Nanvix.Pm

open Nanvix.Lib Function

variable {P : Platform} {s s' : State} {a : Act} {o : Out} {c d i j k : ℕ} {t : ℤ} {cv : CondVar} {w : Wait}
  {L : CondVar → List ℕ} {xs ys : List ExitValue}

/-! ### The exit values -/

/-- The exit values that are not null. -/
def nonNull (xs : List ExitValue) : List ExitValue := xs.filter fun x => decide (x.retval ≠ 0)

/-- The ring holds the last of them. -/
def Logged (P : Platform) (xs : List ExitValue) (s : State) : Prop :=
  Ring.Logs s.exitValues P.exitValueNum s.nextExitValue ⟨-1, 0⟩ (nonNull xs)

theorem exitValueNum_pos (P : Platform) : 0 < P.exitValueNum := by
  have := P.cores_pos
  unfold Platform.exitValueNum Platform.kthreadMax
  omega

theorem logged_step (h : Logged P xs s) (hstep : steps P s a o s') :
    Logged P (xs ++ o.exitValue.toList) s' := by
  have same : o.exitValue = none → s'.exitValues = s.exitValues → s'.nextExitValue = s.nextExitValue →
      Logged P (xs ++ o.exitValue.toList) s' := by
    intro ho hv hn
    rw [Logged, hv, hn, ho, Option.toList_none, List.append_nil]
    exact h
  cases moves_of_step hstep with
  | yields hc ha hcurr htid hy =>
    refine same rfl ?_ ?_
    · rw [State.setFrame_exitValues, hy.rest]
    · rw [State.setFrame_nextExitValue, hy.rest]
  | @cleaned c curr via freed s₁ hc hf hx hr =>
    refine same (by cases via <;> rfl) ?_ ?_
    · rw [State.setFrame_exitValues, hr.rest]
    · rw [State.setFrame_nextExitValue, hr.rest]
  | started hc hf hcurr hr =>
    refine same rfl ?_ ?_
    · rw [State.setFrame_exitValues, hr.rest]
    · rw [State.setFrame_nextExitValue, hr.rest]
  | creates hc hf hcr =>
    refine same (by cases hcr <;> rfl) ?_ ?_
    · rw [hcr.rest]
    · rw [hcr.rest]
  | @exits c retval curr s₁ hc hf hcurr hu he =>
    have hx : Out.exitValue ⟨.exited (s.threads curr).tid retval, none⟩ =
      some ⟨(s.threads curr).tid, retval⟩ := rfl
    rw [Logged, State.setFrame_exitValues, State.setFrame_nextExitValue, he.exitValues, he.nextExitValue,
      hx, Option.toList_some]
    by_cases hv : retval = 0
    · -- A null value takes no place in the ring.
      have hnull : nonNull (xs ++ [⟨(s.threads curr).tid, retval⟩]) = nonNull xs := by simp [nonNull, hv]
      rw [hnull, threadSaveRetval, if_neg (not_not.mpr hv)]
      exact h
    · have hnew : nonNull (xs ++ [⟨(s.threads curr).tid, retval⟩]) =
          nonNull xs ++ [⟨(s.threads curr).tid, retval⟩] := by simp [nonNull, hv]
      rw [hnew, threadSaveRetval, if_pos hv]
      exact h.push (exitValueNum_pos P) _
  | broadcasts hc hf hb =>
    obtain ⟨l, -, rfl⟩ := condBroadcast_cases hb
    exact same rfl rfl rfl
  | _ => exact same rfl rfl rfl

/-- A search finds the value of the thread or nothing, and it does find it unless enough
values came later. -/
theorem threadSearchRetval_cases {x : ExitValue} (h : Logged P (xs ++ x :: ys) s)
    (hids : Ids P (xs ++ x :: ys) s) :
    (threadSearchRetval P s x.tid = x.retval ∨ threadSearchRetval P s x.tid = 0) ∧
      ((nonNull ys).length < P.exitValueNum → threadSearchRetval P s x.tid = x.retval) := by
  have hpast := (hids.past x (by simp)).1
  unfold threadSearchRetval
  split
  · rename_i i hfind
    -- The cell is not blank, so it was written by a thread of that name.
    have htid : (s.exitValues i).tid = x.tid := by simpa using List.find?_some hfind
    have hi := List.mem_range.mp (List.mem_of_find?_eq_some hfind)
    have hval : (s.exitValues i).retval = x.retval := by
      rcases h.cell hi with hb | hm
      · rw [hb] at htid
        have htid : (-1 : ℤ) = x.tid := htid
        omega
      · have hm := List.mem_of_mem_filter hm
        rw [List.inj_on_of_nodup_map hids.once hm (by simp) htid]
    exact ⟨.inl hval, fun _ => hval⟩
  · rename_i hfind
    refine ⟨.inr rfl, fun hlt => ?_⟩
    by_contra hv
    have hv : x.retval ≠ 0 := fun h => hv h.symm
    -- The value is one of the last.
    have hsplit : nonNull (xs ++ x :: ys) = nonNull xs ++ x :: nonNull ys := by simp [nonNull, hv]
    rw [Logged, hsplit] at h
    have hcell := h.last (nonNull xs).length (by simp) (by simp; omega)
    rw [List.getElem_append_right (Nat.le_refl _)] at hcell
    have hlt := Nat.mod_lt (nonNull xs).length (exitValueNum_pos P)
    have hno := List.find?_eq_none.mp hfind _ (List.mem_range.mpr hlt)
    rw [hcell] at hno
    simp at hno

/-! ### The threads that sleep in `thread_join` -/

/-- Who sleeps after a step slept before, or begins to. -/
theorem asleep_step (hb : Base P s) (hstep : steps P s a o s') (hf : (s'.cpus d).frame = .asleep cv w) :
    (s.cpus d).frame = .asleep cv w ∨ (w = .other) ∨
      ∃ tid want curr i, a = .join d tid want ∧ w = .join tid want ∧ cv = .join i ∧
        (s.cpus d).frame = .user ∧ threadGet P s tid = some i ∧ Live (s.threads i) ∧
        s' = condWait s d curr (.join i) (.join tid want) := by
  by_cases hd : d = a.core
  · subst hd
    cases moves_of_step hstep with
    | idle | refused => exact .inl hf
    | yields hc ha =>
      cases ha <;> simp [Act.core] at hf
    | @switched c curr next via i x hc hfr hne hx hcurr htid hn =>
      have hsaved := hb.saves next x hn
      have hf : x.frame = .asleep cv w := by simpa [contextSwitch, Act.core] using hf
      simp [hf, Frame.IsSaved] at hsaved
    | @cleaned c curr via => cases via <;> simp [Act.core, Caller.back] at hf
    | creates hc hfr hcr =>
      left
      rwa [hcr.cpus] at hf
    | @joinSleeps c tid want curr i hc hfr hcurr htid hg hs =>
      simp only [condWait, Act.core, State.setFrame_cpus, update_self] at hf
      obtain ⟨rfl, rfl⟩ := Frame.asleep.inj hf
      exact .inr (.inr ⟨tid, want, curr, i, rfl, rfl, rfl, hfr, hg, hs, rfl⟩)
    | sleeps =>
      simp only [condWait, Act.core, State.setFrame_cpus, update_self] at hf
      exact .inr (.inl (Frame.asleep.inj hf).2.symm)
    | broadcasts hc hfr hbr =>
      obtain ⟨l, -, rfl⟩ := condBroadcast_cases hbr
      exact .inl hf
    | _ => simp [Act.core] at hf
  · left
    rwa [cpus_of_ne hstep hd] at hf

/-- Who sleeps for a thread is woken up by its exit. -/
theorem token_step (h : Sleepers P s L) (ht : Table P s) (hstep : steps P s a o s') (hd : d < P.coresNum)
    (hf : (s.cpus d).frame = .asleep (.join k) w) (hf' : (s'.cpus d).frame = .asleep (.join k) w) :
    s'.tokens d = true ↔
      s.tokens d = true ∨ (OnCore P s a.core k ∧ ∃ v, o.ret = .exited (s.threads k).tid v) := by
  have same : s'.tokens d = s.tokens d → (∀ t v, o.ret ≠ .exited t v) → (s'.tokens d = true ↔
      s.tokens d = true ∨ (OnCore P s a.core k ∧ ∃ v, o.ret = .exited (s.threads k).tid v)) := by
    intro htok ho
    rw [htok]
    refine ⟨.inl, fun h => h.resolve_right ?_⟩
    rintro ⟨-, v, hv⟩
    exact ho _ _ hv
  have woken : ∀ {cv}, (s.tokens d || (L cv).any fun i => decide ((s.threads i).coreid = d)) = true ↔
      s.tokens d = true ∨ cv = .join k := by
    intro cv
    rw [Bool.or_eq_true_iff, h.any_iff ht hd]
    constructor
    · rintro (hk | ⟨⟨w', hw'⟩, -⟩)
      · exact .inl hk
      · exact .inr (Frame.asleep.inj (hf.symm.trans hw')).1.symm
    · rintro (hk | rfl)
      · exact .inl hk
      · by_cases hk : s.tokens d = true
        · exact .inl hk
        · exact .inr ⟨⟨w, hf⟩, Bool.eq_false_iff.mpr hk⟩
  cases moves_of_step hstep with
  | yields hc ha hcurr htid hy => exact same (by rw [State.setFrame_tokens, hy.rest]) (by simp)
  | @cleaned c curr via freed s₁ hc hfr hx hr =>
    exact same (by rw [State.setFrame_tokens, hr.rest]) (by cases via <;> simp [Caller.ret])
  | started hc hfr hcurr hr => exact same (by rw [State.setFrame_tokens, hr.rest]) (by simp)
  | creates hc hfr hcr => exact same (by rw [hcr.rest]) (by cases hcr <;> simp)
  | @exits c retval curr s₁ hc hfr hcurr hu he =>
    obtain ⟨l, hl, -, htok⟩ := he.woken
    obtain rfl := Option.some.inj (hl.symm.trans (h.walk_eq _))
    have hon := threadGetCurr_some hcurr
    rw [State.setFrame_tokens, htok, woken]
    refine or_congr_right ⟨?_, ?_⟩
    · intro hk
      obtain rfl := CondVar.join.inj hk
      exact ⟨hon, retval, rfl⟩
    · rintro ⟨hk, -⟩
      rw [ht.cores.unique hon hk]
  | broadcasts hc hfr hb =>
    obtain ⟨l, hl, rfl⟩ := condBroadcast_cases hb
    obtain rfl := Option.some.inj (hl.symm.trans (h.walk_eq _))
    refine woken.trans (or_congr_right (iff_of_false (by simp) ?_))
    rintro ⟨-, v, hv⟩
    cases hv
  | @joinWakes c _ _ _ _ _ hc hfr htk | @wakes c _ hc hfr htk =>
    have hdc : d ≠ c := by
      rintro rfl
      simp at hf'
    exact same (update_of_ne hdc _ _) (by simp)
  | _ => exact same rfl (by simp)

/-- Who sleeps for a thread waits for a live one, until it is woken up. -/
def Joiners (P : Platform) (xs : List ExitValue) (s : State) : Prop :=
  ∀ c < P.coresNum, ∀ cv tid want, (s.cpus c).frame = .asleep cv (.join tid want) →
    ∃ k < P.kthreadMax, cv = .join k ∧ (s.tokens c = true → ∃ x ∈ xs, x.tid = tid) ∧
      (s.tokens c = false → (s.threads k).tid = tid ∧ Live (s.threads k))

theorem threadGet_some (h : threadGet P s t = some i) : i < P.kthreadMax ∧ (s.threads i).tid = t :=
  ⟨List.mem_range.mp (List.mem_of_find?_eq_some h), by simpa using List.find?_some h⟩

theorem joiners_step (h : Joiners P xs s) (hids : Ids P xs s) (hs : Sleepers P s L) (hh : Held P s)
    (hstep : steps P s a o s') : Joiners P (xs ++ o.exitValue.toList) s' := by
  have ht := hh.base.table
  intro d hd cv tid want hf
  rcases asleep_step hh.base hstep hf with hf₀ | hw |
    ⟨tid, want, curr, i, rfl, hw, rfl, huser, hg, hl, rfl⟩
  · obtain ⟨k, hk, rfl, hwoken, hwaits⟩ := h d hd cv tid want hf₀
    have htok := token_step hs ht hstep hd hf₀ hf
    refine ⟨k, hk, rfl, fun hnew => ?_, fun hnew => ?_⟩
    · by_cases hold : s.tokens d = true
      · obtain ⟨x, hx, hxt⟩ := hwoken hold
        exact ⟨x, List.mem_append_left _ hx, hxt⟩
      · obtain ⟨htid, -⟩ := hwaits (Bool.eq_false_iff.mpr hold)
        obtain ⟨-, v, hv⟩ := (htok.mp hnew).resolve_left hold
        have hx : o.exitValue = some ⟨tid, v⟩ := Out.exitValue_eq_some.mpr (htid ▸ hv)
        exact ⟨_, List.mem_append_right _ (Option.mem_toList.mpr hx), rfl⟩
    · have hnew' : ¬ s'.tokens d = true := Bool.eq_false_iff.mp hnew
      have hold : ¬ s.tokens d = true := fun hold => hnew' (htok.mpr (.inl hold))
      obtain ⟨htid, hl⟩ := hwaits (Bool.eq_false_iff.mpr hold)
      refine ⟨(tid_of_not_free hstep (not_free_of_live hl)).trans htid, ?_⟩
      rcases live_step ht hstep hl with hl' | ⟨v, hv⟩
      · exact hl'
      · -- The exit of the thread wakes up the sleeper.
        have hx : o.exitValue = some ⟨(s.threads k).tid, v⟩ := Out.exitValue_eq_some.mpr hv
        obtain ⟨c, i, hc, hon, hu, hfr, heq, hst, rfl⟩ := exit_step hstep hx
        have hne := hids.named i (.inr (.inl ⟨hu, hon.active⟩))
        obtain rfl := hids.unique hon.lt hk heq.symm hne
        exact absurd (htok.mpr (.inr ⟨hon, v, hv⟩)) hnew'
  · cases hw
  · obtain ⟨rfl, rfl⟩ := Wait.join.inj hw
    obtain ⟨hi, htid⟩ := threadGet_some hg
    refine ⟨i, hi, rfl, fun htok => ?_, fun _ => ⟨?_, ?_⟩⟩
    · obtain ⟨-, cv, w, hw⟩ := hs.token htok
      rw [huser] at hw
      cases hw
    · exact (condWait_proj Thread.tid s _ _ _ _ (fun _ _ => rfl) i).trans htid
    · rw [Live, condWait_proj Thread.state s _ _ _ _ (fun _ _ => rfl) i]
      exact hl

/-! ### Whole runs -/

def exitsOf (tr : List (Event State Act Out)) : List ExitValue := tr.filterMap fun e => e.out.exitValue

/-- All that `thread_join` relies on. -/
structure Joinable (P : Platform) (xs : List ExitValue) (s : State) : Prop where
  held : Held P s
  sleepers : ∃ L, Sleepers P s L
  ids : Ids P xs s
  logged : Logged P xs s
  joiners : Joiners P xs s

theorem joinable_step (h : Joinable P xs s) (hstep : steps P s a o s') :
    Joinable P (xs ++ o.exitValue.toList) s' := by
  obtain ⟨L, hL⟩ := h.sleepers
  exact ⟨held_step h.held hstep, sleepers_step h.sleepers h.held.base hstep, h.ids.step h.held hstep,
    logged_step h.logged hstep, joiners_step h.joiners h.ids hL h.held hstep⟩

theorem joinable_boot (P : Platform) : Joinable P [] (boot P) where
  held := held_boot P
  sleepers := sleepers_boot P
  ids := .boot P
  logged := Ring.Logs.nil _ _
  joiners c _ cv tid want hf := by
    simp only [boot] at hf
    split_ifs at hf

theorem joinable_of_runs {tr : List (Event State Act Out)} (h : Runs P tr s) : Joinable P (exitsOf tr) s := by
  induction h with
  | nil => exact joinable_boot P
  | snoc _ hs ih =>
    have hnew : ∀ (tr : List (Event State Act Out)) e, exitsOf (tr ++ [e]) =
        exitsOf tr ++ e.out.exitValue.toList := by
      intro tr e
      rw [exitsOf, List.filterMap_append]
      cases he : e.out.exitValue <;> simp [exitsOf, he]
    rw [hnew]
    exact joinable_step ih hs

/-- The identifiers that were given are those below the next one. -/
theorem created_iff {tr : List (Event State Act Out)} (h : Runs P tr s) (ht : P.coresNum ≤ t) :
    (∃ e ∈ tr, ∃ i, e.out.ret = .created t i) ↔ t < s.nextTid := by
  induction h with
  | nil => simpa [boot] using ht
  | @snoc tr s₁ a o s' hr hs ih =>
    have hlast : (∃ e ∈ tr ++ [⟨s₁, a, o, s'⟩], ∃ i, e.out.ret = .created t i) ↔
        (∃ e ∈ tr, ∃ i, e.out.ret = .created t i) ∨ ∃ i, o.ret = .created t i := by
      simp only [List.mem_append, List.mem_singleton, or_and_right, exists_or, exists_eq_left]
    rw [hlast, ih]
    by_cases hc : ∃ t' i, o.ret = .created t' i
    · obtain ⟨t', i, hret⟩ := hc
      obtain ⟨rfl, -, -, -, hnext⟩ := created_step hs hret
      rw [hret, hnext]
      constructor
      · rintro (hlt | ⟨i, hi⟩)
        · omega
        · have := (Ret.created.inj hi).1
          omega
      · intro hlt
        by_cases heq : t = s₁.nextTid
        · subst heq
          exact .inr ⟨i, rfl⟩
        · exact .inl (by omega)
    · rw [nextTid_step hs fun t i h => hc ⟨t, i, h⟩]
      refine ⟨fun h => h.resolve_right ?_, .inl⟩
      rintro ⟨i, hi⟩
      exact hc ⟨t, i, hi⟩

/-! ### The answers of `thread_join` -/

/-- The caller has passed a place for the exit value. -/
def wants (e : Event State Act Out) : Bool :=
  match e.act with
  | .join _ _ want => want
  | .run c =>
    match (e.pre.cpus c).frame with
    | .asleep _ (.join _ want) => want
    | _ => false
  | _ => false

/-- Whose code calls `thread_exit`, if no user thread has yielded. -/
theorem owned_of_runs {tr : List (Event State Act Out)} (h : Runs P tr s)
    (hy : ∀ e ∈ tr, ∀ c, e.act ≠ .yield c) : Owned P s := by
  induction h with
  | nil => exact .boot P
  | @snoc tr t a o u hr hs ih =>
    have hj := joinable_of_runs hr
    exact (ih fun e he => hy e (by simp [he])).step hj.ids hj.held.base (hy ⟨t, a, o, u⟩ (by simp)) hs

/-- When `thread_join` answers, the thread has exited, or it was never created. -/
theorem joined_step (h : Joinable P xs s) (hstep : steps P s a o s') {err : Option Errno} {val : Option ℕ}
    (hret : o.ret = .joined t err val) (hu : P.coresNum ≤ t) :
    (t < s.nextTid ∧ err = none ∧ (∃ x ∈ xs, x.tid = t) ∧
      val = if wants ⟨s, a, o, s'⟩ then some (threadSearchRetval P s t) else none) ∨
    (¬ t < s.nextTid ∧ err = some .EINVAL) := by
  cases moves_of_step hstep with
  | @joinsNow c tid want curr err r hc hf hcurr htid hg hans =>
    obtain ⟨rfl, rfl, rfl⟩ := Ret.joined.inj hret
    cases hans with
    | invalid hlt => exact .inr ⟨hlt, rfl⟩
    | ok hlt =>
      refine .inl ⟨hlt, rfl, ?_, rfl⟩
      rcases h.ids.fate tid hu hlt with hx | ⟨i, hi, hti, hl⟩
      · exact hx
      · -- A live thread would have been found.
        have hsome : (threadGet P s tid).isSome := by
          rw [threadGet, List.find?_isSome]
          exact ⟨i, List.mem_range.mpr hi, decide_eq_true hti⟩
        obtain ⟨k, hk⟩ := Option.isSome_iff_exists.mp hsome
        obtain ⟨hkK, htk⟩ := threadGet_some hk
        obtain rfl := h.ids.unique hi hkK (hti.trans htk.symm) (by omega)
        rcases hg i hk with hs | hs | hs
        · exact absurd hs hl.1
        · exact absurd hs hl.2.1
        · exact absurd hs hl.2.2
  | @joinWakes c cv tid want err r hc hf ht hans =>
    obtain ⟨rfl, rfl, rfl⟩ := Ret.joined.inj hret
    cases hans with
    | invalid hlt => exact .inr ⟨hlt, rfl⟩
    | ok hlt =>
      obtain ⟨k, -, -, hwoken, -⟩ := h.joiners c hc cv tid want hf
      refine .inl ⟨hlt, rfl, hwoken ht, ?_⟩
      simp only [wants, hf]
      rfl
  | creates hc hf hcr => cases hcr <;> cases hret
  | @cleaned c curr via freed s₁ hc hf hcx hre => cases via <;> cases hret
  | _ => cases hret

/-- `thread_join` does not sleep and does not stop for a user thread that was never created. -/
theorem join_never_created {tr : List (Event State Act Out)} {tid : ℤ} (h : Runs P tr s) (hc : c < P.coresNum)
    (hf : (s.cpus c).frame = .user) (hu : P.coresNum ≤ tid)
    (hno : ∀ e ∈ tr, ∀ i, e.out.ret ≠ .created tid i) (want : Bool) :
    (step P s (.join c tid want)).1 = ⟨.joined tid (some .EINVAL) none, none⟩ := by
  have hj := joinable_of_runs h
  have hlt : ¬ tid < s.nextTid := by
    intro hlt
    obtain ⟨e, he, i, hi⟩ := (created_iff h hu).mpr hlt
    exact hno e he i hi
  obtain ⟨curr, hcurr, hon⟩ := hj.held.base.table.exists_curr hc
  have hself := hj.ids.lt_nextTid hon.lt
  have hnone : threadGet P s tid = none := by
    rw [threadGet, List.find?_eq_none]
    intro i hi
    have := hj.ids.lt_nextTid (List.mem_range.mp hi)
    simp only [decide_eq_true_eq]
    omega
  have harg : -1 < tid ∧ tid ≠ (s.threads curr).tid ∧ tid ≠ 0 := by
    have := P.cores_pos
    omega
  simp [step, Act.core, hc, hf, callStep, threadJoin, hcurr, harg, hnone, joinEnd, hlt, settle]

/-- `thread_join` returns 0 for a user thread that has exited, with its exit value, or with
null if the ring was overwritten since, and fails for those that were never created. For the latter
it does answer, whatever state the system is in. -/
theorem join_returns {tr : List (Event State Act Out)} (h : Runs P tr s) :
    (∀ l e r (tid : ℤ) err val, tr = l ++ e :: r → e.out.ret = .joined tid err val → P.coresNum ≤ tid →
      (err = none → ∃ v l₁ x l₂, l = l₁ ++ x :: l₂ ∧ x.out.ret = .exited tid v ∧
        ((∀ y ∈ l, ∀ c, y.act ≠ .yield c) → ∃ c, x.act = .exit c v ∧ (x.pre.cpus c).owner = tid) ∧
        ∃ w, val = (if wants e then some w else none) ∧ (w = v ∨ w = 0) ∧
          ((nonNull (exitsOf l₂)).length < P.exitValueNum → w = v)) ∧
      (err = some .EINVAL ↔ ∀ x ∈ l, ∀ i, x.out.ret ≠ .created tid i)) ∧
    ∀ c < P.coresNum, (s.cpus c).frame = .user → ∀ (tid : ℤ) want, P.coresNum ≤ tid →
      (∀ e ∈ tr, ∀ i, e.out.ret ≠ .created tid i) →
      (step P s (.join c tid want)).1 = ⟨.joined tid (some .EINVAL) none, none⟩ := by
  refine ⟨?_, fun c hc hf tid want hu hno => join_never_created h hc hf hu hno want⟩
  rintro l e r tid err val rfl hret hu
  obtain ⟨hl, hstep, -⟩ := h.at_event
  have hj := joinable_of_runs hl
  have hcreated := created_iff hl hu
  rcases joined_step hj hstep hret hu with ⟨hlt, rfl, ⟨y, hy, rfl⟩, hval⟩ | ⟨hlt, rfl⟩
  · constructor
    · intro _
      obtain ⟨x, hx, hxy⟩ := List.mem_filterMap.mp hy
      obtain ⟨l₁, l₂, rfl⟩ := List.append_of_mem hx
      have hsplit : exitsOf (l₁ ++ x :: l₂) = exitsOf l₁ ++ y :: exitsOf l₂ := by
        simp [exitsOf, List.filterMap_append, hxy]
      rw [hsplit] at hj
      obtain ⟨hcases, hlast⟩ := threadSearchRetval_cases hj.logged hj.ids
      refine ⟨y.retval, l₁, x, l₂, rfl, Out.exitValue_eq_some.mp hxy, ?_, _, hval, hcases, hlast⟩
      intro hyield
      obtain ⟨hl₁, hsx, -⟩ := hl.at_event
      obtain ⟨c, i, hc, hon, -, hf, htid, -, hact⟩ := exit_step hsx hxy
      have howned := owned_of_runs hl₁ fun e he => hyield e (by simp [he])
      refine ⟨c, hact, ?_⟩
      rw [htid]
      exact howned.here hc hon (not_inSwitch (by simp [hf])) (by simp [hf])
    · refine iff_of_false (by simp) ?_
      intro hno
      obtain ⟨x, hx, i, hi⟩ := hcreated.mpr hlt
      exact hno x hx i hi
  · refine ⟨by simp, iff_of_true rfl ?_⟩
    intro x hx i hi
    exact hlt (hcreated.mp ⟨x, hx, i, hi⟩)

/-- The master sleeps for thread 3, which exits with 7 on core 1. It does not sleep for thread 4. -/
theorem join_returns_seven : ∃ l e r s, Runs smallPlatform (l ++ e :: r) s ∧
    e.out.ret = .joined 3 none (some 7) ∧
    (∃ l₁ x l₂, l = l₁ ++ x :: l₂ ∧ x.out.ret = .exited 3 7) ∧
    (step smallPlatform s (.join 0 4 true)).1 = ⟨.joined 4 (some .EINVAL) none, none⟩ := by
  obtain ⟨tr, s, hr, -, ⟨e, he, hret⟩, hf, hno⟩ := exists_runs (P := smallPlatform)
    [.create 0 1 0 (some 0) (some 1), .join 0 3 true, .run 1, .run 1, .run 1, .run 1, .run 1, .exit 1 7,
      .run 0]
    (fun r => (∃ e ∈ r.1, e.out.ret = .joined 3 none (some 7)) ∧ (r.2.cpus 0).frame = .user ∧
      ∀ e ∈ r.1, ∀ i ∈ List.range smallPlatform.kthreadMax, e.out.ret ≠ .created 4 i) (by decide +kernel)
  have hnone : ∀ e ∈ tr, ∀ i, e.out.ret ≠ .created 4 i := by
    intro e he i hi
    obtain ⟨-, hlt, -⟩ := created_step (Run.step_of_mem hr he) hi
    exact hno e he i (List.mem_range.mpr hlt) hi
  obtain ⟨l, r, rfl⟩ := List.append_of_mem he
  obtain ⟨hjoined, hanswers⟩ := join_returns hr
  obtain ⟨v, l₁, x, l₂, hl, hx, -, w, hval, hcases, -⟩ :=
    (hjoined l e r 3 none (some 7) rfl hret (by decide)).1 rfl
  refine ⟨l, e, r, s, hr, hret, ⟨l₁, x, l₂, hl, ?_⟩, hanswers 0 (by decide) hf 4 true (by decide) hnone⟩
  have hw : w = 7 := by
    split_ifs at hval
    exact (Option.some.inj hval).symm
  have hv : v = 7 := by omega
  rw [hx, hv]

end Nanvix.Pm
