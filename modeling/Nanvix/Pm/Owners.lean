import Nanvix.Pm.Calm
import Nanvix.Pm.Ids

/-! Whose code a core executes if no user thread yields. Threads then leave their cores by
exiting only, and what is queued has a saved context from its creation on. A core that is in
the middle of a switch may have its old slot taken away, but it always finds the context of
the thread that it goes to. -/

namespace Nanvix.Pm

open Nanvix.Lib Function

variable {P : Platform} {s s' : State} {a : Act} {o : Out} {c d i j curr next : ℕ} {via : Caller}
  {x : Context} {f : Frame} {xs : List ExitValue}

/-- The loop of an idle thread, with its calls of `thread_yield`. -/
def Frame.IsLoop : Frame → Prop
  | .fence | .downFirst | .unfence | .down | .granted | .switch _ _ .idle | .clean _ .idle => True
  | _ => False

/-- Contexts in that loop are those of idle threads. -/
def Context.Sorted (P : Platform) (x : Context) : Prop := x.frame.IsLoop → x.owner < P.coresNum

def SavedOwn (s : State) (i : ℕ) : Prop := ∃ x, (s.threads i).ctx = some x ∧ x.owner = (s.threads i).tid

/-- Cores execute the code of their current threads. -/
structure Owned (P : Platform) (s : State) : Prop where
  cpus : ∀ c < P.coresNum, (s.cpus c).Sorted P
  saved : ∀ i x, (s.threads i).ctx = some x → x.Sorted P
  exiting : ∀ {c i}, c < P.coresNum → OnCore P s c i → (s.cpus c).frame = .exiting →
    (s.threads i).state = .terminated
  here : ∀ {c i}, c < P.coresNum → OnCore P s c i → ¬ InSwitch s c → (s.cpus c).frame ≠ .halted →
    (s.cpus c).owner = (s.threads i).tid
  switch : ∀ {c curr next via}, c < P.coresNum → (s.cpus c).frame = .switch curr next via → curr ≠ next →
    OnCore P s c next ∧ SavedOwn s next ∧ (curr < P.coresNum → (s.cpus c).owner = curr)
  waits : ∀ {i}, Waits P s i → SavedOwn s i ∨ (i < P.coresNum ∧ ((s.cpus i).frame = .halted ∨
    ∃ next via, (s.cpus i).frame = .switch i next via ∧ i ≠ next))

theorem SavedOwn.congr (h : SavedOwn s i) (hx : (s'.threads i).ctx = (s.threads i).ctx)
    (ht : (s'.threads i).tid = (s.threads i).tid) : SavedOwn s' i := by
  obtain ⟨x, hc, ho⟩ := h
  exact ⟨x, hx.trans hc, ho.trans ht.symm⟩

/-- A saved context is an old one, unless the step switches or creates a thread. -/
theorem ctx_of_step (hstep : steps P s a o s') (hsw : ∀ j k, o.ret ≠ .switched j k)
    (hx : (s'.threads i).ctx = some x) : (s.threads i).ctx = some x ∨ x.frame = .starting := by
  by_cases hcr : ∃ t, o.ret = .created t i
  · obtain ⟨t, hr⟩ := hcr
    cases moves_of_step hstep with
    | creates hc hf hcr =>
      rcases hcr.ctx i with hsame | ⟨y, hy, hnew⟩
      · exact .inl (hsame.symm.trans hx)
      · rw [hnew] at hx
        exact .inr (Option.some.inj hx ▸ hy)
    | @cleaned c curr via freed s₁ hc hf hcx hre => cases via <;> cases hr
    | _ => cases hr
  · rw [ctx_step hstep hsw fun t hr => hcr ⟨t, hr⟩] at hx
    exact .inl hx

/-- A thread that has exited stays so until its core leaves it. -/
theorem terminated_of_step (ht : Table P s) (hstep : steps P s a o s')
    (hs : (s.threads i).state = .terminated) (hpick : ∀ n, o.ret ≠ .picked i n) :
    (s'.threads i).state = .terminated := by
  cases turn_step ht hstep i with
  | same hs' => exact hs'.trans hs
  | exits _ _ _ hs' => exact hs'
  | resumes _ _ _ hna => exact absurd (.inr hs) hna
  | stops _ _ hrun => simp [hs] at hrun
  | dies hr => exact absurd hr (hpick _)
  | released _ hz => simp [hs] at hz
  | allocated hz => simp [hs] at hz

namespace Owned

theorem cpus_update (h : Owned P s) (hcpus : s'.cpus = update s.cpus c x) (hx : x.Sorted P) :
    ∀ d < P.coresNum, (s'.cpus d).Sorted P := by
  intro d hd
  rw [hcpus, update_apply]
  split_ifs
  · exact hx
  · exact h.cpus d hd

/-- Who waits is saved, or is the idle thread of another core than one that neither halts nor switches. -/
theorem waits_update (h : Owned P s) (hcpus : s'.cpus = update s.cpus c x) (hi : Waits P s i)
    (hw : ¬ InSwitch s c) (hh : (s.cpus c).frame ≠ .halted) :
    SavedOwn s i ∨ (i < P.coresNum ∧ ((s'.cpus i).frame = .halted ∨
      ∃ next via, (s'.cpus i).frame = .switch i next via ∧ i ≠ next)) := by
  refine (h.waits hi).imp_right ?_
  rintro ⟨hsys, hfr⟩
  have hic : i ≠ c := by
    rintro rfl
    rcases hfr with hfr | ⟨n, v, hfr, hne⟩
    · exact hh hfr
    · exact hw ⟨i, n, v, hfr, hne⟩
  exact ⟨hsys, by rwa [cpus_update_of_ne hcpus hic]⟩

/-- A step that neither yields nor switches nor stops its core. -/
theorem quiet (h : Owned P s) (ht : Table P s) (hstep : steps P s a o s') (hc : c < P.coresNum) (hca : c = a.core)
    (hpick : ∀ j k, o.ret ≠ .picked j k) (hsw : ∀ j k, o.ret ≠ .switched j k)
    (hcpus : s'.cpus = update s.cpus c { s.cpus c with frame := f })
    (hw : ¬ InSwitch s c) (hh : (s.cpus c).frame ≠ .halted) (hf : ∀ j k v, f = .switch j k v → j = k)
    (hloop : f.IsLoop → (s.cpus c).frame.IsLoop)
    (hexit : f = .exiting → ∀ i, OnCore P s' c i → (s'.threads i).state = .terminated) : Owned P s' := by
  have hframe : ∀ {d}, d ≠ c → s'.cpus d = s.cpus d := cpus_update_of_ne hcpus
  have hown : s'.cpus c = { s.cpus c with frame := f } := by rw [hcpus, update_self]
  have hon : ∀ {d i}, OnCore P s' d i ↔ OnCore P s d i := onCore_step ht hstep hpick
  have hin : ∀ {d}, InSwitch s' d ↔ d ≠ c ∧ InSwitch s d := inSwitch_update hcpus hf
  have hctx : ∀ {i}, ¬ ((s.threads i).state = .notStarted ∨ (s.threads i).state = .zombie) →
      (s'.threads i).ctx = (s.threads i).ctx := fun hfree =>
    ctx_step hstep hsw fun t hr => hfree (created_step hstep hr).2.2.1
  have hsaved : ∀ {i}, ¬ ((s.threads i).state = .notStarted ∨ (s.threads i).state = .zombie) →
      SavedOwn s i → SavedOwn s' i := fun hfree hs =>
    hs.congr (hctx hfree) (tid_of_not_free hstep hfree)
  refine ⟨h.cpus_update hcpus fun hl => h.cpus c hc (hloop hl), ?_, ?_, ?_, ?_, ?_⟩
  · intro i x hx
    rcases ctx_of_step hstep hsw hx with hx | hfr
    · exact h.saved i x hx
    · simp [Context.Sorted, hfr, Frame.IsLoop]
  · intro d i hd hi hfr
    by_cases hdc : d = c
    · subst hdc
      rw [hown] at hfr
      exact hexit hfr i hi
    · rw [hframe hdc] at hfr
      exact terminated_of_step ht hstep (h.exiting hd (hon.mp hi) hfr) (hpick i)
  · intro d i hd hi hns hnh
    have hi := hon.mp hi
    rw [tid_of_not_free hstep hi.not_free]
    by_cases hdc : d = c
    · subst hdc
      rw [hown]
      exact h.here hd hi hw hh
    · rw [hframe hdc] at hnh ⊢
      exact h.here hd hi (fun hs => hns (hin.mpr ⟨hdc, hs⟩)) hnh
  · intro d curr next via hd hfr hne
    have hdc : d ≠ c := (hin.mp ⟨curr, next, via, hfr, hne⟩).1
    rw [hframe hdc] at hfr ⊢
    obtain ⟨hnext, hs, hsys⟩ := h.switch hd hfr hne
    exact ⟨hon.mpr hnext, hsaved hnext.not_free hs, hsys⟩
  · intro i hi
    rcases waits_step ht hstep hi with hi | ⟨n, hr⟩ | ⟨t, hr⟩
    · exact (h.waits_update hcpus hi hw hh).imp_left (hsaved hi.not_free.1)
    · exact absurd hr (hpick _ _)
    · obtain ⟨⟨x, hx, hb, -⟩, -⟩ := created_saved ht hstep hr
      exact .inl ⟨x, hx, hb.owner⟩

/-- A core stops for good. -/
theorem halt (h : Owned P s) (c : ℕ) : Owned P (s.setFrame c .halted) := by
  have hframe : ∀ {d}, d ≠ c → (s.setFrame c .halted).cpus d = s.cpus d := fun hd =>
    update_of_ne hd _ _
  have hown : ((s.setFrame c .halted).cpus c).frame = .halted := by simp
  have hne : ∀ {d f}, ((s.setFrame c .halted).cpus d).frame = f → f ≠ .halted → d ≠ c := by
    rintro d f hf hfh rfl
    exact hfh (hf.symm.trans hown)
  have hon : ∀ {d i}, OnCore P (s.setFrame c .halted) d i → OnCore P s d i :=
    fun ⟨hlt, ha, hco⟩ => ⟨hlt, ha, hco⟩
  refine ⟨h.cpus_update rfl False.elim, h.saved, ?_, ?_, ?_, ?_⟩
  · intro d i hd hi hfr
    rw [hframe (hne hfr (by simp))] at hfr
    exact h.exiting hd (hon hi) hfr
  · intro d i hd hi hns hnh
    have hdc := hne rfl hnh
    unfold InSwitch at hns
    rw [hframe hdc] at hns hnh ⊢
    exact h.here hd (hon hi) hns hnh
  · intro d curr next via hd hfr hcn
    have hdc := hne hfr (by simp)
    rw [hframe hdc] at hfr ⊢
    obtain ⟨⟨hlt, ha, hco⟩, hs, hsys⟩ := h.switch hd hfr hcn
    exact ⟨⟨hlt, ha, hco⟩, hs, hsys⟩
  · intro i hi
    have hi : Waits P s i := hi.imp_left fun ⟨q, hq, hm⟩ => ⟨q, hq.congr rfl rfl rfl fun _ _ => .of_eq rfl, hm⟩
    rcases h.waits hi with hs | ⟨hsys, hfr⟩
    · exact .inl hs
    · by_cases hic : i = c
      · subst hic
        exact .inr ⟨hsys, .inl hown⟩
      · exact .inr ⟨hsys, by rwa [hframe hic]⟩

/-- The thread that leaves a core is its idle thread, or it has exited. -/
theorem leaves (h : Owned P s) (hids : Ids P xs s) (ht : Table P s) (hc : c < P.coresNum) (ha : Calls s c a via)
    (hv : via ≠ .user) (hon : OnCore P s c curr) : curr = c ∨ (s.threads curr).state = .terminated := by
  cases ha with
  | user => exact absurd rfl hv
  | exit hf => exact .inr (h.exiting hc hon hf)
  | idle hf =>
    left
    -- The context is that of a system thread, and so is the name of the thread.
    have hlt := h.cpus c hc (by simp [hf, Frame.IsLoop])
    rw [h.here hc hon (not_inSwitch (by simp [hf])) (by simp [hf])] at hlt
    by_cases hsys : curr < P.coresNum
    · exact Int.ofNat.inj ((ht.cores.system curr hsys).1.symm.trans hon.coreid)
    · have hu : P.IsUser curr := ⟨Nat.not_lt.mp hsys, hon.lt⟩
      have := (hids.user curr hu).resolve_left (hids.named curr (.inr (.inl ⟨hu, hon.active⟩)))
      omega

/-- The thread that a core picks has its own context saved. -/
theorem savedOwn_next {s₁ : State} (h : Owned P s) (ht : Table P s) (hc : c < P.coresNum)
    (hon : OnCore P s c curr) (hy : Yields P s c curr next s₁) (hne : curr ≠ next)
    (hfc : ∀ j k v, (s.cpus c).frame ≠ .switch j k v) (hfh : (s.cpus c).frame ≠ .halted) :
    SavedOwn s next := by
  rcases h.waits (hy.waits_next ht hc hon hne) with hs | ⟨hsys, hfr⟩
  · exact hs
  · -- The idle thread of another core is not picked, and that of this core is saved.
    have hnc : next = c := by
      rcases (hy.next_cases hon).resolve_left (Ne.symm hne) with hnc | hh
      · exact hnc
      · obtain ⟨q, hq⟩ := ht.ready
        obtain ⟨r, rfl⟩ := hq.eq_cons hh
        exact absurd (hq.user next (List.mem_cons_self ..)).1 (Nat.not_le.mpr hsys)
    rw [hnc] at hfr
    rcases hfr with hfr | ⟨n, v, hfr, -⟩
    · exact absurd hfr hfh
    · exact absurd hfr (hfc _ _ _)

theorem begin {s₁ : State} (h : Owned P s) (hids : Ids P xs s) (ht : Table P s) (hc : c < P.coresNum)
    (ha : Calls s c a via) (hv : via ≠ .user) (hon : OnCore P s c curr) (hy : Yields P s c curr next s₁)
    (hstep : steps P s a o (s₁.setFrame c (.switch curr next via))) (hret : o.ret = .picked curr next) :
    Owned P (s₁.setFrame c (.switch curr next via)) := by
  have hleaves := h.leaves hids ht hc ha hv hon
  have hfc : ∀ j k v, (s.cpus c).frame ≠ .switch j k v := by cases ha <;> simp [*]
  have hfh : (s.cpus c).frame ≠ .halted := by cases ha <;> simp [*]
  have hcore : a.core = c := by cases ha <;> rfl
  have hcpus : (s₁.setFrame c (.switch curr next via)).cpus =
      update s.cpus c { s.cpus c with frame := .switch curr next via } := by
    rw [State.setFrame_cpus, hy.rest]
  have htid : ∀ i, ((s₁.setFrame c (.switch curr next via)).threads i).tid = (s.threads i).tid := hy.tid
  have hctx : ∀ i, ((s₁.setFrame c (.switch curr next via)).threads i).ctx = (s.threads i).ctx := hy.ctx
  have hsaved : ∀ {i}, SavedOwn s i → SavedOwn (s₁.setFrame c (.switch curr next via)) i := fun {i} hs =>
    hs.congr (hctx i) (htid i)
  have howner : (s.cpus c).owner = (s.threads curr).tid := h.here hc hon (not_inSwitch hfc) hfh
  have hloop : (Frame.switch curr next via).IsLoop → (s.cpus c).frame.IsLoop := by
    cases ha with
    | user => exact absurd rfl hv
    | idle hf => simp [hf, Frame.IsLoop]
    | exit => simp [Frame.IsLoop]
  generalize hs' : s₁.setFrame c (.switch curr next via) = s' at hcpus htid hctx hsaved hstep ⊢
  have hthreads : s'.threads = s₁.threads := by rw [← hs']; rfl
  have hframe : ∀ {d}, d ≠ c → s'.cpus d = s.cpus d := cpus_update_of_ne hcpus
  have hown : s'.cpus c = { s.cpus c with frame := .switch curr next via } := by
    rw [hcpus, update_self]
  have hnext : OnCore P s' c next := by
    obtain ⟨hlt, hact, hco⟩ := hy.onCore_next ht hc hon
    exact ⟨hlt, by rw [hthreads]; exact hact, by rw [hthreads]; exact hco⟩
  have hon' : ∀ {d i}, d < P.coresNum → d ≠ c → (OnCore P s' d i ↔ OnCore P s d i) := fun hd hdc =>
    onCore_of_ne ht hstep hd (hcore ▸ hdc)
  refine ⟨h.cpus_update hcpus fun hl => h.cpus c hc (hloop hl), ?_, ?_, ?_, ?_, ?_⟩
  · intro i x hx
    exact h.saved i x ((hctx i).symm.trans hx)
  · intro d i hd hi hfr
    have hdc : d ≠ c := by
      rintro rfl
      rw [hown] at hfr
      cases hfr
    rw [hframe hdc] at hfr
    have hi := (hon' hd hdc).mp hi
    refine terminated_of_step ht hstep (h.exiting hd hi hfr) fun n hr => ?_
    rw [hret] at hr
    obtain ⟨rfl, -⟩ := Ret.picked.inj hr
    exact hdc (Int.ofNat.inj (hi.coreid.symm.trans hon.coreid))
  · intro d i hd hi hns hnh
    rw [htid]
    by_cases hdc : d = c
    · subst hdc
      -- The core stays with its thread.
      have hcn : curr = next := by
        by_contra hne
        exact hns ⟨curr, next, via, by rw [hown], hne⟩
      subst hcn
      obtain rfl : s₁ = s := hy.eq_self ht hon
      have hi : OnCore P s₁ d i := ⟨hi.lt, hthreads ▸ hi.active, hthreads ▸ hi.coreid⟩
      rw [hown, ht.cores.unique hi hon]
      exact howner
    · unfold InSwitch at hns
      rw [hframe hdc] at hns hnh ⊢
      exact h.here hd ((hon' hd hdc).mp hi) hns hnh
  · intro d curr' next' via' hd hfr hne
    by_cases hdc : d = c
    · subst hdc
      rw [hown] at hfr ⊢
      obtain ⟨rfl, rfl, rfl⟩ := Frame.switch.inj hfr
      exact ⟨hnext, hsaved (h.savedOwn_next ht hc hon hy hne hfc hfh),
        fun hsys => howner.trans (hids.system curr hsys)⟩
    · rw [hframe hdc] at hfr ⊢
      obtain ⟨hn, hs, hsys⟩ := h.switch hd hfr hne
      exact ⟨(hon' hd hdc).mpr hn, hsaved hs, hsys⟩
  · intro i hi
    rcases waits_step ht hstep hi with hi | ⟨n, hr⟩ | ⟨t, hr⟩
    · exact (h.waits_update hcpus hi (not_inSwitch hfc) hfh).imp_left hsaved
    · rw [hret] at hr
      obtain ⟨rfl, rfl⟩ := Ret.picked.inj hr
      have hne : curr ≠ next := by
        rintro rfl
        exact hi.not_free.2 hnext.active
      rcases hleaves with rfl | hs
      · exact .inr ⟨hc, .inr ⟨next, via, by rw [hown], hne⟩⟩
      · refine absurd (.inr ?_) hi.not_free.1
        rw [hthreads, hy.curr_state hne, if_pos hs]
    · rw [hret] at hr
      cases hr

theorem finish (h : Owned P s) (hids : Ids P xs s) (hb : Base P s) (hc : c < P.coresNum)
    (hf : (s.cpus c).frame = .switch curr next via) (hne : curr ≠ next) (hnone : (s.threads curr).ctx = none)
    (hn : (s.threads next).ctx = some x)
    (hstep : steps P s a ⟨.switched curr next, none⟩ (contextSwitch s c curr next via x)) :
    Owned P (contextSwitch s c curr next via x) := by
  have ht := hb.table
  obtain ⟨hnext, ⟨y, hy, howner⟩, hsys⟩ := h.switch hc hf hne
  obtain rfl := Option.some.inj (hn.symm.trans hy)
  have happ := contextSwitch_apply s c curr next via x
  have hcpus : (contextSwitch s c curr next via x).cpus = update s.cpus c x := rfl
  generalize contextSwitch s c curr next via x = s' at happ hcpus hstep ⊢
  have hframe : ∀ {d}, d ≠ c → s'.cpus d = s.cpus d := cpus_update_of_ne hcpus
  have hown : s'.cpus c = x := by rw [hcpus, update_self]
  have hon : ∀ {d i}, OnCore P s' d i ↔ OnCore P s d i := onCore_step ht hstep (by simp)
  have htid : ∀ i, (s'.threads i).tid = (s.threads i).tid := fun i => by rw [happ]
  have hctx : ∀ {i}, i ≠ next → i ≠ curr → (s'.threads i).ctx = (s.threads i).ctx := by
    intro i hin hic
    simp [happ, hin, hic]
  have hcurr : (s'.threads curr).ctx = some { s.cpus c with frame := .clean curr via } := by
    simp [happ, hne]
  -- What is saved elsewhere stays: the slot of the old thread was empty.
  have hsaved : ∀ {i}, i ≠ next → SavedOwn s i → SavedOwn s' i := by
    intro i hin hs
    have hic : i ≠ curr := by
      rintro rfl
      obtain ⟨z, hz, -⟩ := hs
      rw [hnone] at hz
      cases hz
    exact hs.congr (hctx hin hic) (htid i)
  have hsx := hb.saves next x hn
  refine ⟨h.cpus_update hcpus (h.saved next x hn), ?_, ?_, ?_, ?_, ?_⟩
  · intro i z hz
    by_cases hin : i = next
    · subst hin
      simp [happ] at hz
    · by_cases hic : i = curr
      · subst hic
        obtain rfl := Option.some.inj (hcurr.symm.trans hz)
        intro hl
        refine h.cpus c hc ?_
        cases via <;> simp [Frame.IsLoop, hf] at hl ⊢
      · exact h.saved i z ((hctx hin hic).symm.trans hz)
  · intro d i hd hi hfr
    have hdc : d ≠ c := by
      rintro rfl
      rw [hown] at hfr
      simp [hfr, Frame.IsSaved] at hsx
    rw [hframe hdc] at hfr
    have hs := h.exiting hd (hon.mp hi) hfr
    rw [happ]
    exact hs
  · intro d i hd hi hns hnh
    rw [htid]
    have hi := hon.mp hi
    by_cases hdc : d = c
    · subst hdc
      rw [hown, ht.cores.unique hi hnext]
      exact howner
    · unfold InSwitch at hns
      rw [hframe hdc] at hns hnh ⊢
      exact h.here hd hi hns hnh
  · intro d curr' next' via' hd hfr hne'
    have hdc : d ≠ c := by
      rintro rfl
      rw [hown] at hfr
      simp [hfr, Frame.IsSaved] at hsx
    rw [hframe hdc] at hfr ⊢
    obtain ⟨hn', hs, hsys'⟩ := h.switch hd hfr hne'
    refine ⟨hon.mpr hn', hsaved ?_ hs, hsys'⟩
    rintro rfl
    exact hdc (Int.ofNat.inj (hn'.coreid.symm.trans hnext.coreid))
  · intro i hi
    rcases waits_step ht hstep hi with hi | ⟨n, hr⟩ | ⟨t, hr⟩
    · have hin : i ≠ next := by
        rintro rfl
        exact hi.not_free.2 hnext.active
      rcases h.waits hi with hs | ⟨hlt, hfr⟩
      · exact .inl (hsaved hin hs)
      · by_cases hic : i = c
        · -- The idle thread of this core is saved now.
          subst hic
          rcases hfr with hfr | ⟨n, v, hfr, -⟩
          · rw [hf] at hfr
            cases hfr
          · rw [hf] at hfr
            obtain ⟨rfl, -, -⟩ := Frame.switch.inj hfr
            refine .inl ⟨_, hcurr, ?_⟩
            rw [htid, hids.system curr hlt]
            exact hsys hlt
        · exact .inr ⟨hlt, by rwa [hframe hic]⟩
    · cases hr
    · cases hr

/-- A switch that has begun does not fail. -/
theorem switch_ok (h : Owned P s) (hb : Base P s) (hc : c < P.coresNum)
    (hf : (s.cpus c).frame = .switch curr next via) (hne : curr ≠ next)
    (hcurr : threadGetCurr P s c = some i) :
    (s.threads i).tid ≠ 0 ∧ (s.threads next).ctx ≠ none := by
  obtain ⟨hnext, ⟨x, hx, -⟩, -⟩ := h.switch hc hf hne
  obtain rfl := hb.table.cores.unique (threadGetCurr_some hcurr) hnext
  refine ⟨fun htid => ?_, by simp [hx]⟩
  have hc0 := (hb.master.zero_iff hb.table hnext).mpr ((hb.master.tid i).mp htid)
  exact hb.master.ne_zero (by simp [hf, Frame.IsMaster]) hc0

theorem step (h : Owned P s) (hids : Ids P xs s) (hb : Base P s) (hy : ∀ c, a ≠ .yield c)
    (hstep : steps P s a o s') : Owned P s' := by
  have ht := hb.table
  cases moves_of_step hstep with
  | idle => exact h
  | refused => exact absurd rfl (hy _)
  | fault => exact h.halt _
  | @yields _ c curr next via s₁ hc ha hcurr htid hyl =>
    have hv : via ≠ .user := by
      cases ha with
      | user => exact absurd rfl (hy _)
      | idle | exit => simp
    exact h.begin hids ht hc ha hv (threadGetCurr_some hcurr) hyl hstep rfl
  | switched hc hf hne hx hcurr htid hn => exact h.finish hids hb hc hf hne hx hn hstep
  | switchFailed hc hf hne hx hcurr hn =>
    obtain ⟨h0, hsome⟩ := h.switch_ok hb hc hf hne hcurr
    exact absurd hn (not_or.mpr ⟨h0, hsome⟩)
  | @stayed c curr via hc hf hx =>
    refine h.quiet ht hstep hc rfl (by simp) (by simp) (State.setFrame_cpus ..) ?_ (by simp [hf]) (by simp) ?_
      (by simp)
    · rintro ⟨j, k, v, hf', hne⟩
      obtain ⟨rfl, rfl, -⟩ := Frame.switch.inj (hf.symm.trans hf')
      exact hne rfl
    · cases via <;> simp [hf, Frame.IsLoop]
  | unfenced hc hf | tookFirst hc hf | opened hc hf | took hc hf | joinsNow hc hf | joinSleeps hc hf
  | sleeps hc hf | joinWakes hc hf | wakes hc hf =>
    exact h.quiet ht hstep hc rfl (by simp) (by simp) (State.setFrame_cpus ..) (not_inSwitch (by simp [hf]))
      (by simp [hf]) (by simp) (by simp [hf, Frame.IsLoop]) (by simp)
  | @cleaned c curr via freed s₁ hc hf hx hr =>
    refine h.quiet ht hstep hc rfl ?_ ?_ ?_ (not_inSwitch (by simp [hf])) (by simp [hf]) ?_ ?_ ?_ (f := via.back)
    · cases via <;> simp [Caller.ret]
    · cases via <;> simp [Caller.ret]
    · rw [State.setFrame_cpus, hr.cpus]
    · cases via <;> simp [Caller.back]
    · cases via <;> simp [hf, Caller.back, Frame.IsLoop]
    · cases via <;> simp [Caller.back]
  | @started c curr freed s₁ hc hf hcurr hr =>
    refine h.quiet ht hstep hc rfl (by simp) (by simp) ?_ (not_inSwitch (by simp [hf]))
      (by simp [hf]) (by simp) (by simp [Frame.IsLoop]) (by simp) (f := .user)
    rw [State.setFrame_cpus, hr.cpus]
  | @creates c start arg kpage upage r s₁ hc hf hcr =>
    refine h.quiet ht hstep hc rfl ?_ ?_ ?_ (not_inSwitch (by simp [hf]))
      (by simp [hf]) (by simp [hf]) (by simp) (by simp [hf]) (f := (s.cpus c).frame)
    · cases hcr <;> simp
    · cases hcr <;> simp
    · rw [hcr.cpus, update_eq_self]
  | @exits c retval curr s₁ hc hf hcurr hu he =>
    refine h.quiet ht hstep hc rfl (by simp) (by simp) ?_ (not_inSwitch (by simp [hf]))
      (by simp [hf]) (by simp) (by simp [Frame.IsLoop]) ?_ (f := .exiting)
    · rw [State.setFrame_cpus, he.cpus]
    · intro _ i hi
      have hi := (onCore_step ht hstep (by simp)).mp hi
      rw [ht.cores.unique hi (threadGetCurr_some hcurr), State.setFrame_threads, he.threads,
        update_self]
  | @broadcasts c j s₁ hc hf hbr =>
    obtain ⟨l, -, rfl⟩ := condBroadcast_cases hbr
    exact h.quiet ht hstep hc rfl (by simp) (by simp) (by rw [update_eq_self])
      (not_inSwitch (by simp [hf])) (by simp [hf]) (by simp [hf]) (by simp) (by simp [hf]) (f := (s.cpus c).frame)

theorem boot (P : Platform) : Owned P (boot P) := by
  have hframe : ∀ c, ((Pm.boot P).cpus c).frame = .user ∨ ((Pm.boot P).cpus c).frame = .downFirst ∨
      ((Pm.boot P).cpus c).frame = .fence := by
    intro c
    simp only [Pm.boot]
    split_ifs <;> simp
  refine ⟨?_, ?_, ?_, ?_, ?_, ?_⟩
  · intro c hc _
    exact Int.ofNat_lt.mpr hc
  · intro i x hx
    simp only [Pm.boot] at hx
    split_ifs at hx
  · intro c i _ _ hf
    rcases hframe c with h | h | h <;> rw [h] at hf <;> cases hf
  · intro c i hc hi hns _
    exact ((sane_boot P).here hc hi hns).1.owner
  · intro c curr next via _ hf
    rcases hframe c with h | h | h <;> rw [h] at hf <;> cases hf
  · intro i hi
    rcases (sane_boot P).waits hi with ⟨x, hx, hb, -⟩ | ⟨c, -, n, v, hf, -⟩
    · exact .inl ⟨x, hx, hb.owner⟩
    · rcases hframe c with h | h | h <;> rw [h] at hf <;> cases hf

end Owned

end Nanvix.Pm
