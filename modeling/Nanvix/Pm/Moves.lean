import Nanvix.Pm.Sections

/-! What the steps of the thread manager do. The sections are taken apart once, and
everything else is proved about the moves. -/

namespace Nanvix.Pm

open Nanvix.Lib Function

variable {P : Platform} {s s' : State} {a : Act} {o : Out} {c i curr next : ℕ} {via : Caller}

theorem condBroadcast_cases {cv : CondVar} (h : condBroadcast P s cv = some s') :
    ∃ l, walk s.links P.kthreadMax (s.conds cv) = some l ∧ s' = { s with
      conds := update s.conds cv none
      tokens := fun c => s.tokens c || l.any fun i => decide ((s.threads i).coreid = c) } := by
  unfold condBroadcast at h
  split at h
  · cases h
  · rename_i l hl
    cases h
    exact ⟨l, hl, rfl⟩

/-- A thread that goes to sleep changes its link. -/
theorem condWait_proj {α : Type*} (g : Thread → α) (s : State) (c curr : ℕ) (cv : CondVar) (w : Wait)
    (hn : ∀ (t : Thread) x, g { t with next := x } = g t) (j : ℕ) :
    g ((condWait s c curr cv w).threads j) = g (s.threads j) :=
  State.setThread_proj s g (hn _ (s.conds cv)) j

/-- What `thread_exit` leaves: the thread is terminated, its value is saved, and those who
wait for it have been woken up. -/
structure Exits (P : Platform) (s : State) (curr retval : ℕ) (s₁ : State) : Prop where
  threads : s₁.threads = update s.threads curr { s.threads curr with state := .terminated }
  queue : s₁.queue = s.queue
  cpus : s₁.cpus = s.cpus
  nextTid : s₁.nextTid = s.nextTid
  ustacks : s₁.ustacks = s.ustacks
  kstacks : s₁.kstacks = s.kstacks
  kpages : s₁.kpages = s.kpages
  exitValues : s₁.exitValues = (threadSaveRetval P s retval (s.threads curr).tid).exitValues
  nextExitValue : s₁.nextExitValue = (threadSaveRetval P s retval (s.threads curr).tid).nextExitValue
  woken : ∃ l, walk s.links P.kthreadMax (s.conds (.join curr)) = some l ∧
    s₁.conds = update s.conds (.join curr) none ∧
    s₁.tokens = fun c => s.tokens c || l.any fun i => decide ((s.threads i).coreid = c)

theorem exits_cases {retval : ℕ} {s₁ : State}
    (hb : condBroadcast P ((threadSaveRetval P s retval (s.threads curr).tid).mark curr .terminated)
      (.join curr) = some s₁) : Exits P s curr retval s₁ := by
  obtain ⟨l, hl, rfl⟩ := condBroadcast_cases hb
  have hsave : ∃ v n, threadSaveRetval P s retval (s.threads curr).tid =
      { s with exitValues := v, nextExitValue := n } := by
    unfold threadSaveRetval
    split_ifs <;> exact ⟨_, _, rfl⟩
  obtain ⟨v, n, hv⟩ := hsave
  rw [hv] at hl ⊢
  have hlinks : State.links ({ s with exitValues := v, nextExitValue := n }.mark curr .terminated) =
      s.links := funext (State.mark_proj _ Thread.next _ fun _ => rfl)
  rw [hlinks] at hl
  refine ⟨rfl, rfl, rfl, rfl, rfl, rfl, rfl, by rw [hv]; rfl, by rw [hv]; rfl, l, hl, rfl, ?_⟩
  funext d
  simp only [State.mark_proj _ Thread.coreid _ fun _ => rfl]
  rfl

/-- A context switch changes the two contexts. -/
theorem contextSwitch_apply (s : State) (c curr next : ℕ) (via : Caller) (x : Context) (j : ℕ) :
    (contextSwitch s c curr next via x).threads j = { s.threads j with
      ctx := if j = next then none
        else if j = curr then some { s.cpus c with frame := .clean curr via }
        else (s.threads j).ctx } := by
  simp only [contextSwitch, State.setThread_threads]
  by_cases hn : j = next
  · subst hn
    rw [update_self, update_apply, if_pos rfl]
    split_ifs with hc
    · rw [hc]
    · rfl
  · rw [update_of_ne hn, update_apply, if_neg hn]
    split_ifs with hc
    · rw [hc]
    · rfl

inductive Answers (P : Platform) (s : State) (tid : ℤ) (want : Bool) : Option Errno → Option ℕ → Prop
  | ok (h : tid < s.nextTid) :
    Answers P s tid want none (if want then some (threadSearchRetval P s tid) else none)
  | invalid (h : ¬ tid < s.nextTid) : Answers P s tid want (some .EINVAL) none

theorem joinEnd_cases {tid : ℤ} {want : Bool} (h : joinEnd P s c tid want = (o, s')) :
    ∃ err r, Answers P s tid want err r ∧ o = ⟨.joined tid err r, none⟩ ∧ s' = s.setFrame c .user := by
  by_cases hlt : tid < s.nextTid
  · rw [joinEnd, if_pos (show tid < (s.setFrame c .user).nextTid from hlt)] at h
    cases h
    exact ⟨_, _, .ok hlt, rfl, rfl⟩
  · rw [joinEnd, if_neg (show ¬ tid < (s.setFrame c .user).nextTid from hlt)] at h
    cases h
    exact ⟨_, _, .invalid hlt, rfl, rfl⟩

/-- A core calls `thread_yield` from user code, from the idle loop or from
`thread_exit`. -/
inductive Calls (s : State) (c : ℕ) : Act → Caller → Prop
  | user (hf : (s.cpus c).frame = .user) : Calls s c (.yield c) .user
  | idle (hf : (s.cpus c).frame = .granted) : Calls s c (.run c) .idle
  | exit (hf : (s.cpus c).frame = .exiting) : Calls s c (.run c) .exit

inductive Moves (P : Platform) (s : State) : Act → Out → State → Prop
  | idle {b : Act} : Moves P s b ⟨.quiet, none⟩ s
  | fault {b : Act} {f : Fault} (hc : b.core < P.coresNum)
      (h : ((s.cpus b.core).frame = .user ∧ callStep P s b = .error f) ∨
        (b = .run b.core ∧ runStep P s b.core = .error f)) :
    Moves P s b ⟨.fault f, none⟩ (s.setFrame b.core .halted)
  | unfenced {c : ℕ} (hc : c < P.coresNum) (hf : (s.cpus c).frame = .fence) :
    Moves P s (.run c) ⟨.quiet, none⟩ (s.setFrame c .down)
  | tookFirst {c : ℕ} (hc : c < P.coresNum) (hf : (s.cpus c).frame = .downFirst) (hn : 0 < s.queue.sem) :
    Moves P s (.run c) ⟨.quiet, none⟩
      ({ s with queue := { s.queue with sem := s.queue.sem - 1 } }.setFrame c .unfence)
  | opened {c : ℕ} (hc : c < P.coresNum) (hf : (s.cpus c).frame = .unfence) :
    Moves P s (.run c) ⟨.quiet, none⟩ ({ s with idleFence := false }.setFrame c .granted)
  | took {c : ℕ} (hc : c < P.coresNum) (hf : (s.cpus c).frame = .down) (hn : 0 < s.queue.sem) :
    Moves P s (.run c) ⟨.quiet, none⟩
      ({ s with queue := { s.queue with sem := s.queue.sem - 1 } }.setFrame c .granted)
  | refused {c : ℕ} : Moves P s (.yield c) ⟨.failed .EINVAL, none⟩ s
  | yields {b : Act} {c curr next : ℕ} {via : Caller} {s₁ : State} (hc : c < P.coresNum)
      (ha : Calls s c b via)
      (hcurr : threadGetCurr P s c = some curr) (htid : (s.threads curr).tid ≠ 0)
      (hy : Yields P s c curr next s₁) :
    Moves P s b ⟨.picked curr next, none⟩ (s₁.setFrame c (.switch curr next via))
  | stayed {c curr : ℕ} {via : Caller} (hc : c < P.coresNum) (hf : (s.cpus c).frame = .switch curr curr via)
      (hx : (s.threads curr).ctx = none) :
    Moves P s (.run c) ⟨.quiet, none⟩ (s.setFrame c (.clean curr via))
  | switched {c curr next : ℕ} {via : Caller} {i : ℕ} {x : Context} (hc : c < P.coresNum) (hf :
      (s.cpus c).frame = .switch curr next via)
      (hne : curr ≠ next) (hx : (s.threads curr).ctx = none) (hcurr : threadGetCurr P s c = some i)
      (htid : (s.threads i).tid ≠ 0) (hn : (s.threads next).ctx = some x) :
    Moves P s (.run c) ⟨.switched curr next, none⟩ (contextSwitch s c curr next via x)
  | switchFailed {c curr next : ℕ} {via : Caller} {i : ℕ} (hc : c < P.coresNum)
      (hf : (s.cpus c).frame = .switch curr next via) (hne : curr ≠ next)
      (hx : (s.threads curr).ctx = none) (hcurr : threadGetCurr P s c = some i)
      (hn : (s.threads i).tid = 0 ∨ (s.threads next).ctx = none) :
    Moves P s (.run c) ⟨.switchFailed curr next, none⟩ (s.setFrame c (.clean curr via))
  | cleaned {c curr : ℕ} {via : Caller} {freed : Option ℕ} {s₁ : State} (hc : c < P.coresNum) (hf :
      (s.cpus c).frame = .clean curr via)
      (hx : (s.threads curr).ctx = none) (hr : Reaps P s curr freed s₁) :
    Moves P s (.run c) ⟨via.ret, freed⟩ (s₁.setFrame c via.back)
  | started {c curr : ℕ} {freed : Option ℕ} {s₁ : State} (hc : c < P.coresNum) (hf :
      (s.cpus c).frame = .starting)
      (hcurr : threadGetCurr P s c = some curr) (hr : Reaps P s curr freed s₁) :
    Moves P s (.run c) ⟨.quiet, freed⟩ (s₁.setFrame c .user)
  | creates {c start arg : ℕ} {kpage upage : Option ℕ} {r : Out} {s₁ : State} (hc : c < P.coresNum) (hf :
      (s.cpus c).frame = .user)
      (hcr : Creates P s start arg r s₁) : Moves P s (.create c start arg kpage upage) r s₁
  | exits {c retval curr : ℕ} {s₁ : State} (hc : c < P.coresNum) (hf : (s.cpus c).frame = .user)
      (hcurr : threadGetCurr P s c = some curr) (hu : P.IsUser curr)
      (he : Exits P s curr retval s₁) :
    Moves P s (.exit c retval) ⟨.exited (s.threads curr).tid retval, none⟩ (s₁.setFrame c .exiting)
  | joinsNow {c : ℕ} {tid : ℤ} {want : Bool} {curr : ℕ} {err : Option Errno} {r : Option ℕ}
      (hc : c < P.coresNum) (hf : (s.cpus c).frame = .user)
      (hcurr : threadGetCurr P s c = some curr) (htid : tid ≠ (s.threads curr).tid)
      (hg : ∀ i, threadGet P s tid = some i → (s.threads i).state = .notStarted ∨
        (s.threads i).state = .terminated ∨ (s.threads i).state = .zombie)
      (hans : Answers P s tid want err r) :
    Moves P s (.join c tid want) ⟨.joined tid err r, none⟩ (s.setFrame c .user)
  | joinSleeps {c : ℕ} {tid : ℤ} {want : Bool} {curr i : ℕ} (hc : c < P.coresNum) (hf :
      (s.cpus c).frame = .user)
      (hcurr : threadGetCurr P s c = some curr) (htid : tid ≠ (s.threads curr).tid)
      (hg : threadGet P s tid = some i)
      (hs : (s.threads i).state ≠ .notStarted ∧ (s.threads i).state ≠ .terminated ∧
        (s.threads i).state ≠ .zombie) :
    Moves P s (.join c tid want) ⟨.quiet, none⟩ (condWait s c curr (.join i) (.join tid want))
  | sleeps {c j curr : ℕ} (hc : c < P.coresNum) (hf : (s.cpus c).frame = .user)
      (hcurr : threadGetCurr P s c = some curr) :
    Moves P s (.wait c j) ⟨.quiet, none⟩ (condWait s c curr (.other j) .other)
  | broadcasts {c j : ℕ} {s₁ : State} (hc : c < P.coresNum) (hf : (s.cpus c).frame = .user)
      (hb : condBroadcast P s (.other j) = some s₁) :
    Moves P s (.broadcast c j) ⟨.quiet, none⟩ s₁
  | joinWakes {c : ℕ} {cv : CondVar} {tid : ℤ} {want : Bool} {err : Option Errno} {r : Option ℕ}
      (hc : c < P.coresNum) (hf : (s.cpus c).frame = .asleep cv (.join tid want))
      (ht : s.tokens c = true)
      (hans : Answers P { s with tokens := update s.tokens c false } tid want err r) :
    Moves P s (.run c) ⟨.joined tid err r, none⟩
      ({ s with tokens := update s.tokens c false }.setFrame c .user)
  | wakes {c : ℕ} {cv : CondVar} (hc : c < P.coresNum) (hf : (s.cpus c).frame = .asleep cv .other)
      (ht : s.tokens c = true) :
    Moves P s (.run c) ⟨.quiet, none⟩ ({ s with tokens := update s.tokens c false }.setFrame c .user)

theorem moves_threadYield (hc : c < P.coresNum) (ha : Calls s c a via)
    (h : threadYield P s c via = .ok (o, s')) : Moves P s a o s' := by
  unfold threadYield at h
  split at h
  · cases h
  · rename_i curr hcurr
    split_ifs at h with htid
    · cases ha with
      | user =>
        cases h
        exact .refused
      | idle | exit => cases h
    · obtain ⟨next, s₁, hy, rfl, rfl⟩ := yieldSection_cases h
      exact .yields hc ha hcurr htid hy

theorem moves_switchStep (hc : c < P.coresNum) (hf : (s.cpus c).frame = .switch curr next via)
    (h : switchStep P s c curr next via = .ok (o, s')) : Moves P s (.run c) o s' := by
  unfold switchStep at h
  split_ifs at h with hx hne
  · subst hne
    cases h
    exact .stayed hc hf (not_not.mp hx)
  · unfold threadSwitchTo at h
    cases hcurr : threadGetCurr P s c with
    | none => simp [hcurr] at h
    | some i =>
      simp only [hcurr, hx, ite_false] at h
      by_cases htid : (s.threads i).tid = 0
      · simp only [htid, ite_true] at h
        cases h
        exact .switchFailed hc hf hne (not_not.mp hx) hcurr (.inl htid)
      · simp only [htid, ite_false] at h
        cases hn : (s.threads next).ctx with
        | none =>
          simp only [hn] at h
          cases h
          exact .switchFailed hc hf hne (not_not.mp hx) hcurr (.inr hn)
        | some x =>
          simp only [hn] at h
          cases h
          exact .switched hc hf hne (not_not.mp hx) hcurr htid hn

theorem moves_runStep (hc : c < P.coresNum) (h : runStep P s c = .ok (o, s')) :
    Moves P s (.run c) o s' := by
  unfold runStep at h
  dsimp only at h
  cases hf : (s.cpus c).frame with
  | user | halted =>
    rw [hf] at h
    cases h
    exact .idle
  | fence =>
    rw [hf] at h
    dsimp only at h
    split_ifs at h
    · cases h
      exact .idle
    · cases h
      exact .unfenced hc hf
  | downFirst =>
    rw [hf] at h
    dsimp only at h
    split_ifs at h with hn
    · cases h
      exact .tookFirst hc hf hn
    · cases h
      exact .idle
  | unfence =>
    rw [hf] at h
    cases h
    exact .opened hc hf
  | down =>
    rw [hf] at h
    dsimp only at h
    split_ifs at h with hn
    · cases h
      exact .took hc hf hn
    · cases h
      exact .idle
  | granted =>
    rw [hf] at h
    exact moves_threadYield hc (.idle hf) h
  | exiting =>
    rw [hf] at h
    exact moves_threadYield hc (.exit hf) h
  | switch curr next via =>
    rw [hf] at h
    exact moves_switchStep hc hf h
  | clean curr via =>
    rw [hf] at h
    dsimp only [cleanStep] at h
    split_ifs at h with hx
    cases h
    exact .cleaned hc hf (not_not.mp hx) (reap_cases ..)
  | starting =>
    rw [hf] at h
    dsimp only [threadStart] at h
    split at h
    · cases h
    · rename_i curr hcurr
      cases h
      exact .started hc hf hcurr (reap_cases ..)
  | asleep cv w =>
    rw [hf] at h
    dsimp only at h
    split_ifs at h with ht
    · cases w with
      | join tid want =>
        dsimp only at h
        obtain ⟨err, r, hans, rfl, rfl⟩ := joinEnd_cases (Except.ok.inj h)
        exact .joinWakes hc hf ht hans
      | other =>
        cases h
        exact .wakes hc hf ht
    · cases h
      exact .idle

theorem moves_threadJoin {tid : ℤ} {want : Bool} (hc : c < P.coresNum)
    (hf : (s.cpus c).frame = .user) (h : threadJoin P s c tid want = .ok (o, s')) :
    Moves P s (.join c tid want) o s' := by
  unfold threadJoin at h
  split at h
  · cases h
  · rename_i curr hcurr
    split_ifs at h with htid
    have htid : tid ≠ (s.threads curr).tid := by tauto
    cases hg : threadGet P s tid with
    | none =>
      simp only [hg] at h
      obtain ⟨err, r, hans, rfl, rfl⟩ := joinEnd_cases (Except.ok.inj h)
      exact .joinsNow hc hf hcurr htid (fun i hi => by simp [hg] at hi) hans
    | some i =>
      simp only [hg] at h
      split_ifs at h with hs
      · cases h
        exact .joinSleeps hc hf hcurr htid hg hs
      · obtain ⟨err, r, hans, rfl, rfl⟩ := joinEnd_cases (Except.ok.inj h)
        refine .joinsNow hc hf hcurr htid (fun j hj => ?_) hans
        obtain rfl : i = j := Option.some.inj (hg.symm.trans hj)
        tauto

theorem moves_callStep (hc : a.core < P.coresNum) (hf : (s.cpus a.core).frame = .user)
    (hrun : ∀ c, a ≠ .run c) (h : callStep P s a = .ok (o, s')) : Moves P s a o s' := by
  cases a with
  | create c start arg kpage upage =>
    dsimp only [callStep] at h
    split_ifs at h
    exact .creates hc hf (threadCreate_cases h)
  | yield c => exact moves_threadYield hc (.user hf) h
  | exit c retval =>
    dsimp only [callStep, threadExit] at h
    split at h
    · cases h
    · rename_i curr hcurr
      split_ifs at h with hu
      split at h
      · cases h
      · rename_i s₁ hb
        cases h
        exact .exits hc hf hcurr hu (exits_cases hb)
  | join c tid want => exact moves_threadJoin hc hf h
  | wait c j =>
    dsimp only [callStep] at h
    split at h
    · cases h
    · rename_i curr hcurr
      cases h
      exact .sleeps hc hf hcurr
  | broadcast c j =>
    dsimp only [callStep] at h
    split at h
    · cases h
    · rename_i s₁ hb
      cases h
      exact .broadcasts hc hf hb
  | run c => exact absurd rfl (hrun c)

theorem moves_of_step (h : steps P s a o s') : Moves P s a o s' := by
  unfold steps step at h
  split_ifs at h with hc
  · split at h
    · rename_i c
      cases hr : runStep P s c with
      | error f =>
        rw [hr] at h
        cases h
        exact .fault (b := .run c) hc (.inr ⟨rfl, hr⟩)
      | ok r =>
        rw [hr] at h
        cases h
        exact moves_runStep hc hr
    · rename_i hrun
      split_ifs at h with hf
      · cases hr : callStep P s a with
        | error f =>
          rw [hr] at h
          cases h
          exact .fault hc (.inl ⟨hf, hr⟩)
        | ok r =>
          rw [hr] at h
          cases h
          exact moves_callStep hc hf hrun hr
      · cases h
        exact .idle
  · cases h
    exact .idle

end Nanvix.Pm
