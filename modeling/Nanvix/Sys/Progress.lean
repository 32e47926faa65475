import Nanvix.Lib.Fair
import Nanvix.Lib.Store
import Nanvix.Sys.Board

/-! Calls on the board are dispatched once, answered with their own result, and soon:
the sweep comes nearer to a waiting core with every board it passes or serves, so
that at most one call of every other core goes before, and a scheduler that
comes back to every core and to the master brings every call to its end. -/

namespace Nanvix.Sys

open Nanvix.Lib Function

variable {T : Target} {s s' : State} {a : Act} {o : Out} {c : ℕ} {k : Kcall} {v : ℤ}

theorem mark_eq_answer (h : o.mark c = some (.answer k v)) : ∃ fn, o = .dispatched c k fn v := by
  cases o with
  | dispatched d _ fn _ =>
    obtain ⟨rfl, rfl, rfl⟩ : d = c ∧ _ := by simpa [Out.mark] using h
    exact ⟨fn, rfl⟩
  | _ => simp [Out.mark] at h

theorem mark_eq_take (h : o.mark c = some (.take k v)) : ∃ inval, o = .returned c k v inval := by
  cases o with
  | returned d _ _ inval =>
    obtain ⟨rfl, rfl, rfl⟩ : d = c ∧ _ := by simpa [Out.mark] using h
    exact ⟨inval, rfl⟩
  | _ => simp [Out.mark] at h

/-- A call waits until it is dispatched. -/
theorem Moves.asked (h : Moves T s a o s') (hi : Inv T s) (hx : At s c (.asked k)) :
    At s' c (.asked k) ∨ ∃ fn ret, o = .dispatched c k fn ret ∧ At s' c (.answered k ret) := by
  obtain ⟨y, hy, hm⟩ := h.stage (h.not_defaulted hi) hx
  cases ho : o.mark c with
  | none =>
    rw [ho] at hm
    obtain rfl : y = _ := hm
    exact .inl hy
  | some m =>
    rw [ho] at hm
    cases hm with
    | answer _ ret =>
      obtain ⟨fn, rfl⟩ := mark_eq_answer ho
      exact .inr ⟨fn, ret, rfl, hy⟩

/-- A result is kept until the caller takes it. -/
theorem Moves.answered (h : Moves T s a o s') (hi : Inv T s) (hx : At s c (.answered k v)) :
    At s' c (.answered k v) ∨ ∃ inval, o = .returned c k v inval := by
  obtain ⟨y, hy, hm⟩ := h.stage (h.not_defaulted hi) hx
  cases ho : o.mark c with
  | none =>
    rw [ho] at hm
    obtain rfl : y = _ := hm
    exact .inl hy
  | some m =>
    rw [ho] at hm
    cases hm with
    | take => exact .inr (mark_eq_take ho)

theorem At.asked_pending (hx : At s c (.asked k)) : (s.sysboard c).pending = true := by
  cases hx with
  | waiting _ _ hp => exact hp

theorem At.asked_duty (hx : At s c (.asked k)) : s.master.duty c = .none ∨ s.master.duty c = .serve := by
  cases hx with
  | waiting _ hd => exact hd

/-! ### Overtaking -/

/-- How many other calls may still go before that of core `c`. -/
def turns (T : Target) (s : State) (c : ℕ) : ℕ :=
  match s.master with
  | .dispatch d => if d = c then 0 else Ring.dist T.coresNum s.sysNextCoreid c + 1
  | _ => Ring.dist T.coresNum s.sysNextCoreid c

def Out.isDispatch : Out → Bool
  | .dispatched .. => true
  | _ => false

theorem turns_lt (hi : Inv T s) (hx : At s c (.asked k)) : turns T s c < T.coresNum := by
  have hc := hi.lt_of_pending hx.asked_pending
  unfold turns
  split
  · rename_i d h
    have hd := hi.lt_of_pending (hi.pending_of_duty (.inl h))
    split_ifs with hdc
    · exact T.cores_pos
    · rw [hi.behind d h, Ring.dist_succ hd hc hdc]
      exact Ring.dist_lt hd hc
  · exact Ring.dist_lt hi.next_lt hc

/-- A pass of the sweep over another board brings a waiting core nearer. -/
theorem dist_passed (hi : Inv T s) (hx : At s c (.asked k))
    (hp : (s.sysboard s.sysNextCoreid).pending = false) :
    Ring.dist T.coresNum ((s.sysNextCoreid + 1) % T.coresNum) c + 1 =
      Ring.dist T.coresNum s.sysNextCoreid c := by
  apply Ring.dist_succ hi.next_lt (hi.lt_of_pending hx.asked_pending)
  rintro rfl
  rw [hx.asked_pending] at hp
  cases hp

/-- While a call waits, a dispatch of another one takes a turn. -/
theorem Moves.turns (h : Moves T s a o s') (hi : Inv T s) (hx : At s c (.asked k))
    (hy : At s' c (.asked k)) :
    Sys.turns T s' c + o.isDispatch.toNat ≤ Sys.turns T s c := by
  have hc := hi.lt_of_pending hx.asked_pending
  cases h with
  | idle | called | raised | slept | returned => exact le_rfl
  | took h hn => simp [Sys.turns, h, Out.isDispatch]
  | found h hp =>
    simp only [Sys.turns, h, Out.isDispatch, Bool.toNat_false]
    split_ifs with hd
    · omega
    · rw [Ring.dist_succ hi.next_lt hc hd]
  | passed h hp =>
    have := dist_passed hi hx hp
    simp only [Sys.turns, h, Out.isDispatch, Bool.toNat_false]
    omega
  | defaulted h hn =>
    obtain ⟨_, _, _, hd⟩ := hi.ahead _ h
    omega
  | @dispatched _ d h =>
    by_cases hd : d = c
    · subst hd
      rcases hy.asked_duty with hy | hy <;> simp [MasterPc.duty] at hy
    · simp [Sys.turns, h, hd, Out.isDispatch]
  | stored h | woke h => simp [Sys.turns, h, Out.isDispatch, State.setBoard]

/-- At most one call of every other core is dispatched while a call waits. -/
theorem overtaken_le {tr : List (Event State Act Out)} {u : State} (h : Run (steps T) s tr u)
    (hi : Inv T s) (hx : At s c (.asked k))
    (hno : ∀ e ∈ tr, ∀ k fn ret, e.out ≠ .dispatched c k fn ret) :
    tr.countP (fun e => e.out.isDispatch) ≤ T.coresNum - 1 := by
  have hlt := turns_lt hi hx
  suffices hend : Inv T u ∧ At u c (.asked k) ∧
      tr.countP (fun e => e.out.isDispatch) + turns T u c ≤ T.coresNum - 1 by
    omega
  apply h.counts (P := fun n s => Inv T s ∧ At s c (.asked k) ∧ n + turns T s c ≤ T.coresNum - 1)
  · exact ⟨hi, hx, by omega⟩
  · rintro n e he ⟨hi, hx, hn⟩
    have hmove := moves_of_step (h.step_of_mem he)
    rcases hmove.asked hi hx with hy | ⟨fn, ret, ho, _⟩
    · have := hmove.turns hi hx hy
      exact ⟨hmove.inv hi, hy, by omega⟩
    · exact absurd ho (hno e he k fn ret)

/-! ### Fair schedules -/

/-- Who takes the steps that a scheduler has to come back to. Entering `do_kcall` is
up to the user. -/
inductive Agent where
  | master
  | core (c : ℕ)

def Agent.acts : Agent → Act → Prop
  | .master, .master _ => True
  | .core c, .core d => c = d
  | _, _ => False

/-- The master and every core get a turn again and again. -/
def Fair (T : Target) (b : Endless (steps T) boot) : Prop :=
  (∀ n, ∃ m, n ≤ m ∧ Agent.master.acts (b.event m).act) ∧
    ∀ c < T.coresNum, ∀ n, ∃ m, n ≤ m ∧ (Agent.core c).acts (b.event m).act

/-- How far the master is from serving the next board. -/
def MasterPc.phase : MasterPc → ℕ
  | .store _ _ => 4
  | .wake _ => 3
  | .down => 2
  | .sweep _ => 1
  | .dispatch _ => 0

def Asleep (s : State) : Prop := s.master = .down ∧ s.syssem = 0

instance (s : State) : Decidable (Asleep s) := by unfold Asleep; infer_instance

/-- How far the master is from dispatching the call of core `c`: the turns of others
and its own way to the next board. -/
def way (T : Target) (s : State) (c : ℕ) : ℕ := 5 * turns T s c + s.master.phase

/-- The way, and whether the master has to be woken up. -/
def rank (T : Target) (s : State) (c : ℕ) : ℕ := 2 * way T s c + if Asleep s then 1 else 0

/-- Who brings the dispatch nearer: the master, or while it sleeps a core that has
still to raise `syssem`. -/
def Agent.helpsDispatch (T : Target) : Agent → State → Prop
  | .master, s => ¬ Asleep s
  | .core d, s => Asleep s ∧ d < T.coresNum ∧ ∃ k, s.cores d = .raise k

/-- While the master sleeps and a call waits, some core has still to raise `syssem`. -/
theorem exists_helpsDispatch (hi : Inv T s) (hx : At s c (.asked k)) :
    ∃ g : Agent, g.helpsDispatch T s := by
  by_cases hs : Asleep s
  · have hpos : 0 < tally Sysboard.pending s.sysboard T.coresNum :=
      tally_pos.mpr ⟨c, hi.lt_of_pending hx.asked_pending, hx.asked_pending⟩
    rw [hi.balance, hs.1, hs.2] at hpos
    obtain ⟨d, hd, hr⟩ := tally_pos.mp (by simpa [MasterPc.engaged] using hpos)
    cases hpc : s.cores d with
    | raise k => exact ⟨.core d, hs, hd, k, hpc⟩
    | user | sleep | read => simp [hpc, CorePc.raising] at hr
  · exact ⟨.master, hs⟩

/-- Every step of the master is on its way to a waiting call. -/
theorem Moves.way {ans : ℤ} (h : Moves T s (.master ans) o s') (hs : ¬ Asleep s) (hi : Inv T s)
    (hx : At s c (.asked k)) (hy : At s' c (.asked k)) : Sys.way T s' c < Sys.way T s c := by
  have hturns := h.turns hi hx hy
  unfold Sys.way
  cases h with
  | idle h => exact absurd (fun hd => Nat.pos_of_ne_zero fun h0 => hs ⟨hd, h0⟩) h
  | took h | found h | stored h | woke h =>
    rw [h]
    simp only [MasterPc.phase] at hturns ⊢
    omega
  | passed h hp =>
    have hdist := dist_passed hi hx hp
    simp only [Sys.turns, h, MasterPc.phase]
    omega
  | defaulted h hn =>
    obtain ⟨_, _, _, hd⟩ := hi.ahead _ h
    omega
  | dispatched h =>
    rw [h]
    simp only [MasterPc.phase, Out.isDispatch, Bool.toNat_true] at hturns ⊢
    omega

theorem Moves.rank_awake (h : Moves T s a o s') (hs : ¬ Asleep s) (hi : Inv T s)
    (hx : At s c (.asked k)) (hy : At s' c (.asked k)) :
    rank T s' c < rank T s c ∨ rank T s' c = rank T s c ∧ ¬ Asleep s' ∧ ¬ Agent.master.acts a := by
  cases a with
  | master ans =>
    have hway := h.way hs hi hx hy
    left
    unfold rank
    split_ifs <;> omega
  | call d k =>
    cases h with
    | idle | called => exact .inr ⟨rfl, hs, id⟩
  | core d =>
    cases h with
    | idle | slept | returned => exact .inr ⟨rfl, hs, id⟩
    | @raised _ k' h =>
      have hs' : ¬ Asleep ({ s with syssem := s.syssem + 1 }.setCore d (.sleep k')) :=
        fun hs => Nat.succ_ne_zero _ hs.2
      refine .inr ⟨?_, hs', id⟩
      unfold rank
      rw [if_neg hs, if_neg hs']
      rfl

theorem Moves.rank_asleep (h : Moves T s a o s') (hs : Asleep s) {d : ℕ} {k' : Kcall}
    (hd : s.cores d = .raise k') :
    rank T s' c < rank T s c ∨
      rank T s' c = rank T s c ∧ (Asleep s' ∧ s'.cores d = .raise k') ∧ ¬ (Agent.core d).acts a := by
  cases h with
  | idle h =>
    refine .inr ⟨rfl, ⟨hs, hd⟩, fun hact => h ?_⟩
    cases a with
    | core e =>
      cases hact
      simp [Ready, ReadyCore, hd]
    | call | master => exact hact.elim
  | @called e _ _ h =>
    have hne : d ≠ e := by
      rintro rfl
      simp [h] at hd
    exact .inr ⟨rfl, ⟨hs, (update_of_ne hne _ _).trans hd⟩, id⟩
  | @raised e _ h =>
    left
    unfold rank
    rw [if_pos hs, if_neg fun hs => Nat.succ_ne_zero _ hs.2]
    exact Nat.lt_succ_self _
  | @slept e _ h | @returned e _ h =>
    have hne : d ≠ e := by
      rintro rfl
      simp [h] at hd
    exact .inr ⟨rfl, ⟨hs, (update_of_ne hne _ _).trans hd⟩, hne⟩
  | took h hn => exact absurd hs.2 (by omega)
  | found h | passed h | defaulted h | dispatched h | stored h | woke h =>
    rw [Asleep, h] at hs
    exact nomatch hs.1

/-- Under a fair schedule every call is dispatched. -/
theorem dispatched_eventually (b : Endless (steps T) boot) (hf : Fair T b) {n : ℕ}
    (hx : At (b.event n).pre c (.asked k)) :
    ∃ m, n ≤ m ∧ ∃ fn ret, (b.event m).out = .dispatched c k fn ret := by
  apply b.eventually Agent.acts (fun s => Inv T s ∧ At s c (.asked k)) (Agent.helpsDispatch T)
    (fun s => rank T s c) (fun e => ∃ fn ret, e.out = .dispatched c k fn ret)
  · rintro s ⟨hi, hx⟩
    exact exists_helpsDispatch hi hx
  · intro g s n hg
    cases g with
    | master => exact hf.1 n
    | core d => exact hf.2 d hg.2.1 n
  · rintro e hstep g ⟨hi, hx⟩ hg
    have h := moves_of_step hstep
    rcases h.asked hi hx with hy | ⟨fn, ret, ho, _⟩
    · refine .inr ⟨⟨h.inv hi, hy⟩, ?_⟩
      cases g with
      | master => exact h.rank_awake hg hi hx hy
      | core d =>
        obtain ⟨hs, hd, k', hpc⟩ := hg
        refine (h.rank_asleep hs hpc).imp_right ?_
        rintro ⟨heq, ⟨hs', hpc'⟩, hact⟩
        exact ⟨heq, ⟨hs', hd, k', hpc'⟩, hact⟩
    · exact .inl ⟨fn, ret, ho⟩
  · exact ⟨inv_of_run inv_boot (b.run n), hx⟩

/-- How far a caller is from taking its result. -/
def exitRank (s : State) (c : ℕ) : ℕ :=
  (match s.master.duty c with | .store _ => 2 | .wake => 1 | _ => 0) +
    match s.cores c with | .raise _ => 3 | .sleep _ => 2 | .read _ => 1 | .user => 0

/-- Who brings the return nearer: the master until it has woken the caller, then the
caller. -/
def Agent.helpsReturn (T : Target) (c : ℕ) : Agent → State → Prop
  | .master, s => s.master.duty c ≠ .none
  | .core d, s => d = c ∧ d < T.coresNum ∧ s.master.duty c = .none

theorem At.answered_core (hx : At s c (.answered k v)) : s.cores c ≠ .user := by
  intro hu
  cases hx with
  | served hpc | stored hpc | raised hpc => simp [hu] at hpc
  | leaving hpc => simp [hu] at hpc

/-- Once the master is done with a call its caller can go on. -/
theorem At.answered_ready (hx : At s c (.answered k v)) (hd : s.master.duty c = .none) :
    (s.sysboard c).pending = false ∧ ReadyCore s c := by
  refine ⟨?_, hx.answered_core, ?_⟩ <;> cases hx with
  | served _ hd' | stored _ hd' => simp [hd] at hd'
  | raised _ _ hp hs => first | exact hp | (intro _ _; omega)
  | leaving hpc _ hp => first | exact hp | (intro _ h; simp [h] at hpc)

theorem At.answered_duty (hx : At s c (.answered k v)) : s.master.duty c ≠ .serve := by
  intro hd
  cases hx with
  | served _ hd' | stored _ hd' | raised _ hd' | leaving _ hd' => simp [hd] at hd'

/-- A step of somebody else leaves the way out of a call as it is. -/
theorem exitRank_frame {g : Agent} (hg : g.helpsReturn T c s) (hc : s'.cores c = s.cores c)
    (hm : s'.master.duty c = s.master.duty c) (hact : ¬ g.acts a) :
    exitRank s' c < exitRank s c ∨
      exitRank s' c = exitRank s c ∧ g.helpsReturn T c s' ∧ ¬ g.acts a := by
  refine .inr ⟨by rw [exitRank, exitRank, hc, hm], ?_, hact⟩
  cases g with
  | master => rwa [Agent.helpsReturn, hm]
  | core d => rwa [Agent.helpsReturn, hm]

theorem Moves.exitRank_call {d : ℕ} {k' : Kcall} (h : Moves T s (.call d k') o s')
    (hx : At s c (.answered k v)) {g : Agent} (hg : g.helpsReturn T c s) :
    exitRank s' c < exitRank s c ∨
      exitRank s' c = exitRank s c ∧ g.helpsReturn T c s' ∧ ¬ g.acts (.call d k') := by
  have hact : ¬ g.acts (.call d k') := by cases g <;> exact id
  cases h with
  | idle => exact exitRank_frame hg rfl rfl hact
  | called _ hu =>
    refine exitRank_frame hg (update_of_ne ?_ _ _) rfl hact
    rintro rfl
    exact hx.answered_core hu

theorem Moves.exitRank_core {d : ℕ} (h : Moves T s (.core d) o s') (hx : At s c (.answered k v))
    (hy : At s' c (.answered k v)) {g : Agent} (hg : g.helpsReturn T c s) :
    exitRank s' c < exitRank s c ∨
      exitRank s' c = exitRank s c ∧ g.helpsReturn T c s' ∧ ¬ g.acts (.core d) := by
  by_cases hdc : d = c
  · subst hdc
    cases h with
    | idle h =>
      refine exitRank_frame hg rfl rfl fun hact => ?_
      cases g with
      | master => exact hact
      | core e => exact h (hx.answered_ready hg.2.2).2
    | raised h | slept h => exact .inl (by simp [exitRank, State.setCore, State.setBoard, h])
    | returned => exact absurd (by simp [State.setCore]) hy.answered_core
  · have hact : ¬ g.acts (.core d) := by
      cases g with
      | master => exact id
      | core e => exact fun he => hdc (he.symm.trans hg.1)
    cases h with
    | idle => exact exitRank_frame hg rfl rfl hact
    | raised | slept | returned =>
      exact exitRank_frame hg (update_of_ne (Ne.symm hdc) _ _) rfl hact

theorem Moves.exitRank_master {ans : ℤ} (h : Moves T s (.master ans) o s') (hi : Inv T s)
    (hx : At s c (.answered k v)) {g : Agent} (hg : g.helpsReturn T c s) :
    exitRank s' c < exitRank s c ∨
      exitRank s' c = exitRank s c ∧ g.helpsReturn T c s' ∧ ¬ g.acts (.master ans) := by
  by_cases hd : s.master.duty c = .none
  · -- The master is busy with other cores, and does not turn to this one.
    have hact : ¬ g.acts (.master ans) := by
      cases g with
      | master => exact absurd hd hg
      | core e => exact id
    cases h with
    | idle => exact exitRank_frame hg rfl rfl hact
    | took | passed | woke => exact exitRank_frame hg rfl hd.symm hact
    | found h hp =>
      have hne : s.sysNextCoreid ≠ c := by
        rintro rfl
        rw [(hx.answered_ready hd).1] at hp
        cases hp
      exact exitRank_frame hg rfl (by rw [hd]; exact if_neg hne) hact
    | defaulted h hn =>
      obtain ⟨_, _, _, hlt⟩ := hi.ahead _ h
      omega
    | @dispatched _ d h | @stored _ d _ h =>
      have hne : d ≠ c := by
        rintro rfl
        simp [h, MasterPc.duty] at hd
      exact exitRank_frame hg rfl (by rw [hd]; exact if_neg hne) hact
  · cases h with
    | idle h =>
      refine absurd (fun hdown => ?_) h
      rw [hdown] at hd
      exact absurd rfl hd
    | took h | found h | passed h | defaulted h =>
      rw [h] at hd
      exact absurd rfl hd
    | @dispatched _ d h =>
      have hserve := hx.answered_duty
      rw [h, MasterPc.duty] at hd hserve
      split_ifs at hd hserve <;> contradiction
    | @stored _ d _ h | @woke _ d h =>
      left
      have hdc : d = c := by
        by_contra hne
        rw [h, MasterPc.duty, if_neg hne] at hd
        exact hd rfl
      subst hdc
      simp [exitRank, h, MasterPc.duty, State.setBoard]

/-- Under a fair schedule every call that was dispatched returns its result. -/
theorem returned_eventually (b : Endless (steps T) boot) (hf : Fair T b) {n : ℕ}
    (hx : At (b.event n).pre c (.answered k v)) :
    ∃ m, n ≤ m ∧ ∃ inval, (b.event m).out = .returned c k v inval := by
  apply b.eventually Agent.acts (fun s => Inv T s ∧ At s c (.answered k v)) (Agent.helpsReturn T c)
    (fun s => exitRank s c) (fun e => ∃ inval, e.out = .returned c k v inval)
  · rintro s ⟨hi, hx⟩
    by_cases hd : s.master.duty c = .none
    · exact ⟨.core c, rfl, hi.lt_of_cores hx.answered_core, hd⟩
    · exact ⟨.master, hd⟩
  · intro g s n hg
    cases g with
    | master => exact hf.1 n
    | core d => exact hf.2 d hg.2.1 n
  · rintro e hstep g ⟨hi, hx⟩ hg
    have h := moves_of_step hstep
    rcases h.answered hi hx with hy | hret
    · refine .inr ⟨⟨h.inv hi, hy⟩, ?_⟩
      rcases e with ⟨pre, act, out, post⟩
      cases act with
      | call d k' => exact h.exitRank_call hx hg
      | core d => exact h.exitRank_core hx hy hg
      | master ans => exact h.exitRank_master hi hx hg
    · exact .inl hret
  · exact ⟨inv_of_run inv_boot (b.run n), hx⟩

/-! ### The protocol -/

def marks (c : ℕ) (tr : List (Event State Act Out)) : List (Rpc.Mark Kcall ℤ) :=
  tr.filterMap fun e => e.out.mark c

/-- The calls that core `c` has put on its board, in their order. -/
def calls (c : ℕ) (tr : List (Event State Act Out)) : List Kcall := Rpc.asks (marks c tr)

/-- The calls of core `c` that were dispatched, with the results of the dispatches. -/
def dispatches (c : ℕ) (tr : List (Event State Act Out)) : List (Kcall × ℤ) :=
  Rpc.answers (marks c tr)

/-- The calls of core `c` that have returned, with what they returned. -/
def returns (c : ℕ) (tr : List (Event State Act Out)) : List (Kcall × ℤ) := Rpc.takes (marks c tr)

theorem books_of_runs {tr : List (Event State Act Out)} {u : State} (h : Runs T tr u) (c : ℕ) :
    ∃ x, Rpc.Books (marks c tr) x := by
  obtain ⟨x, _, hbooks⟩ := Run.books (fun s x => Inv T s ∧ At s c x)
    (fun e => e.out.mark c) h ⟨inv_boot, .free rfl rfl rfl rfl⟩ (by
      rintro e hstep x ⟨hi, hx⟩
      have hmove := moves_of_step hstep
      obtain ⟨y, hy, hm⟩ := hmove.stage (hmove.not_defaulted hi) hx
      exact ⟨y, ⟨hmove.inv hi, hy⟩, hm⟩)
  exact ⟨x, hbooks⟩

/-- A call is on its board once its core has made it pending. -/
theorem Moves.asked_of_called (h : Moves T s a (.called c k) s') (hi : Inv T s) :
    At s' c (.asked k) := by
  obtain ⟨x, hx⟩ := hi.stages c
  obtain ⟨y, hy, hm⟩ := h.stage (h.not_defaulted hi) hx
  simp only [Out.mark, if_true] at hm
  cases hm
  exact hy

theorem Moves.answered_of_dispatched {fn : Option (KernelFn × List Word)}
    (h : Moves T s a (.dispatched c k fn v) s') (hi : Inv T s) : At s' c (.answered k v) := by
  obtain ⟨x, hx⟩ := hi.stages c
  obtain ⟨y, hy, hm⟩ := h.stage (h.not_defaulted hi) hx
  simp only [Out.mark, if_true] at hm
  cases hm
  exact hy

theorem Moves.pending_of_dispatched {fn : Option (KernelFn × List Word)}
    (h : Moves T s a (.dispatched c k fn v) s') (hi : Inv T s) :
    (s.sysboard c).pending = true ∧ ∃ ans, (fn, v) = dispatch T k ans := by
  cases h with
  | dispatched h => exact ⟨hi.pending_of_duty (.inl h), _, rfl⟩

/-- The protocol of the system call board. For every core, the dispatches are the calls in
their order, each with its own arguments and none twice, and the returns are the
dispatches in their order, each with its own result. The sweep ends at a pending board.
At most `CORES_NUM - 1` other calls are dispatched while one waits. And if the master
and every core get their turns, every call is dispatched and returns. -/
theorem board_protocol {tr : List (Event State Act Out)} (h : Runs T tr s) :
    (∀ c, returns c tr <+: dispatches c tr ∧ (dispatches c tr).map Prod.fst <+: calls c tr ∧
      (calls c tr).length ≤ (returns c tr).length + 1) ∧
    (∀ e ∈ tr, e.out ≠ .defaulted ∧ ∀ c k fn ret, e.out = .dispatched c k fn ret →
      (e.pre.sysboard c).pending = true ∧ ∃ ans, (fn, ret) = dispatch T k ans) ∧
    (∀ l e m r c k, tr = l ++ e :: (m ++ r) → e.out = .called c k →
      (∀ x ∈ m, ∀ k fn ret, x.out ≠ .dispatched c k fn ret) →
      m.countP (fun x => x.out.isDispatch) ≤ T.coresNum - 1) ∧
    ∀ b : Endless (steps T) boot, Fair T b → ∀ n c k, (b.event n).out = .called c k →
      ∃ m, n < m ∧ ∃ fn ret, (b.event m).out = .dispatched c k fn ret ∧
        ∃ j, m < j ∧ ∃ inval, (b.event j).out = .returned c k ret inval := by
  refine ⟨fun c => ?_, fun e he => ?_, fun l e m r c k htr ho hno => ?_, fun b hf n c k ho => ?_⟩
  · obtain ⟨x, hbooks⟩ := books_of_runs h c
    exact hbooks.exactly_once
  · have hmove := moves_of_step (h.step_of_mem he)
    have hi := inv_of_mem h he
    refine ⟨hmove.not_defaulted hi, fun c k fn ret ho => ?_⟩
    rw [ho] at hmove
    exact hmove.pending_of_dispatched hi
  · subst htr
    obtain ⟨hl, hstep, hr⟩ := Run.at_event h
    obtain ⟨t, hm, _⟩ := hr.split
    have hmove := moves_of_step hstep
    rw [ho] at hmove
    have hi := inv_of_run inv_boot hl
    exact overtaken_le hm (hmove.inv hi) (hmove.asked_of_called hi) hno
  · have hmove := moves_of_step (b.step n)
    rw [ho] at hmove
    have hasked := hmove.asked_of_called (inv_of_run inv_boot (b.run n))
    rw [← b.link] at hasked
    obtain ⟨m, hm, fn, ret, hdisp⟩ := dispatched_eventually b hf hasked
    have hmove := moves_of_step (b.step m)
    rw [hdisp] at hmove
    have hdone := hmove.answered_of_dispatched (inv_of_run inv_boot (b.run m))
    rw [← b.link] at hdone
    obtain ⟨j, hj, inval, hret⟩ := returned_eventually b hf hdone
    exact ⟨m, by omega, fn, ret, hdisp, j, by omega, inval, hret⟩

def twoCores : Target where
  coresNum := 2
  cores_pos := by decide
  threads := true
  hasSync := true
  hasMailbox := true
  hasPortal := true
  einval := 22
  enosys := 38

def frameAlloc : Kcall := ⟨0, 0, 0, 0, 0, 44⟩

/-- Core 1 raises `syssem` and the master serves core 0, which raises it only then. -/
def earlyService : List Act :=
  [.call 0 frameAlloc, .call 1 frameAlloc, .core 1, .master 0, .master 0, .master 7, .master 0,
    .master 0, .core 0, .core 0, .core 0]

/-- After one call the master and the cores take turns. -/
def turnByTurn : ℕ → Act
  | 0 => .call 0 frameAlloc
  | n + 1 => if n % 3 = 0 then .master 7 else .core (n % 3 - 1)

theorem turnByTurn_fair : Fair twoCores (Endless.ofSchedule (step twoCores) boot turnByTurn) := by
  have hevery : ∀ r < 3, ∀ n, ∃ m, n ≤ m ∧ (m % 3 = r) := fun r hr n =>
    ⟨3 * n + r, by omega, by omega⟩
  refine ⟨fun n => ?_, fun c hc n => ?_⟩
  · obtain ⟨m, hm, hr⟩ := hevery 0 (by decide) n
    refine ⟨m + 1, by omega, ?_⟩
    simp [Endless.ofSchedule, turnByTurn, hr, Agent.acts]
  · have hc : c < 2 := hc
    obtain ⟨m, hm, hr⟩ := hevery (c + 1) (by omega) n
    refine ⟨m + 1, by omega, ?_⟩
    simp [Endless.ofSchedule, turnByTurn, hr, Agent.acts]

/-- Core 0 gets its own result though it is served before it has raised `syssem`, and
under the fair schedule its call is dispatched. -/
theorem board_protocol_early :
    ∃ tr s, Runs twoCores tr s ∧ returns 0 tr = [(frameAlloc, 7)] ∧
      returns 0 tr <+: dispatches 0 tr ∧
      ∃ b : Endless (steps twoCores) boot, Fair twoCores b ∧
        ∃ m, 0 < m ∧ ∃ fn ret, (b.event m).out = .dispatched 0 frameAlloc fn ret := by
  obtain ⟨tr, s, hrun, -, hret⟩ := exists_run_of_exec (f := fun s a => some (step twoCores s a))
    (s := boot) earlyService (fun r => returns 0 r.1 = [(frameAlloc, 7)]) (by decide +kernel)
  have h : Runs twoCores tr s := hrun.mono fun _ _ _ _ hs => Option.some.inj hs
  obtain ⟨m, hm, fn, ret, ho, _⟩ := (board_protocol h).2.2.2 _ turnByTurn_fair 0 0 frameAlloc rfl
  exact ⟨tr, s, h, hret, ((board_protocol h).1 0).1, _, turnByTurn_fair, m, hm, fn, ret, ho⟩

end Nanvix.Sys
