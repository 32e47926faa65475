import Nanvix.Lib.Count
import Nanvix.Lib.Ring
import Nanvix.Lib.Rpc
import Nanvix.Sys.Syscalls

/-! What the steps of the system call board do, and the invariant they keep. The
master may serve a board before its owner has raised `syssem`, so the counter and the
pending flags agree only up to the calls that have still to raise it and the
one that the master is serving. Seen from one core the system is a remote call. -/

namespace Nanvix.Sys

open Nanvix.Lib Function

/-- The thread inside `do_kcall` on core `c` can take a step. -/
def ReadyCore (s : State) (c : ℕ) : Prop :=
  s.cores c ≠ .user ∧ ∀ k, s.cores c = .sleep k → 0 < (s.sysboard c).syssem

def ReadyMaster (s : State) : Prop := s.master = .down → 0 < s.syssem

def Ready (T : Target) (s : State) : Act → Prop
  | .call c k => c < T.coresNum ∧ s.cores c = .user ∧ isLocal T k.syscallNr.toNat = false
  | .core c => ReadyCore s c
  | .master _ => ReadyMaster s

inductive Moves (T : Target) (s : State) : Act → Out → State → Prop
  | idle {a} (h : ¬ Ready T s a) : Moves T s a .quiet s
  | called {c k} (hc : c < T.coresNum) (h : s.cores c = .user) :
    Moves T s (.call c k) (.called c k)
      ((s.setBoard c { s.sysboard c with toKcall := k, pending := true }).setCore c (.raise k))
  | raised {c k} (h : s.cores c = .raise k) :
    Moves T s (.core c) .quiet ({ s with syssem := s.syssem + 1 }.setCore c (.sleep k))
  | slept {c k} (h : s.cores c = .sleep k) (hn : 0 < (s.sysboard c).syssem) :
    Moves T s (.core c) .quiet
      ((s.setBoard c { s.sysboard c with syssem := (s.sysboard c).syssem - 1 }).setCore c (.read k))
  | returned {c k} (h : s.cores c = .read k) :
    Moves T s (.core c) (.returned c k (s.sysboard c).ret (upageInval k)) (s.setCore c .user)
  | took {ans} (h : s.master = .down) (hn : 0 < s.syssem) :
    Moves T s (.master ans) .quiet { s with syssem := s.syssem - 1, master := .sweep 0 }
  | found {ans i} (h : s.master = .sweep i) (hp : (s.sysboard s.sysNextCoreid).pending = true) :
    Moves T s (.master ans) (.found s.sysNextCoreid)
      { s with sysNextCoreid := (s.sysNextCoreid + 1) % T.coresNum, master := .dispatch s.sysNextCoreid }
  | passed {ans i} (h : s.master = .sweep i) (hp : (s.sysboard s.sysNextCoreid).pending = false) :
    Moves T s (.master ans) .quiet
      { s with sysNextCoreid := (s.sysNextCoreid + 1) % T.coresNum, master := .sweep (i + 1) }
  | defaulted {ans i} (h : s.master = .sweep i) (hi : T.coresNum ≤ i) :
    Moves T s (.master ans) .defaulted { s with master := .dispatch 0 }
  | dispatched {ans c} (h : s.master = .dispatch c) :
    Moves T s (.master ans)
      (.dispatched c (s.sysboard c).toKcall (dispatch T (s.sysboard c).toKcall ans).1
        (dispatch T (s.sysboard c).toKcall ans).2)
      { s with master := .store c (dispatch T (s.sysboard c).toKcall ans).2 }
  | stored {ans c ret} (h : s.master = .store c ret) :
    Moves T s (.master ans) .quiet
      { s.setBoard c { s.sysboard c with pending := false, ret := ret } with master := .wake c }
  | woke {ans c} (h : s.master = .wake c) :
    Moves T s (.master ans) .quiet
      { s.setBoard c { s.sysboard c with syssem := (s.sysboard c).syssem + 1 } with master := .down }

variable {T : Target} {s s' : State} {a : Act} {o : Out}

theorem moves_doKcall {c : ℕ} {k : Kcall} (h : doKcall T s c k = (o, s')) :
    Moves T s (.call c k) o s' := by
  unfold doKcall at h
  split_ifs at h with hc
  · cases h
    exact .called hc.1 hc.2.1
  · cases h
    exact .idle hc

theorem moves_coreStep {c : ℕ} (h : coreStep s c = (o, s')) : Moves T s (.core c) o s' := by
  unfold coreStep at h
  dsimp only at h
  split at h
  · rename_i hpc
    cases h
    exact .idle fun hr => hr.1 hpc
  · rename_i k hpc
    cases h
    exact .raised hpc
  · rename_i k hpc
    unfold semaphoreDown at h
    split_ifs at h with hn
    · cases h
      exact .slept hpc hn
    · cases h
      exact .idle fun hr => hn (hr.2 k hpc)
  · rename_i k hpc
    cases h
    exact .returned hpc

theorem moves_doKcall2 {ans : ℤ} (h : doKcall2 T s ans = (o, s')) : Moves T s (.master ans) o s' := by
  unfold doKcall2 at h
  dsimp only at h
  split at h
  · rename_i hpc
    unfold semaphoreDown at h
    split_ifs at h with hn
    · cases h
      exact .took hpc hn
    · cases h
      exact .idle fun hr => hn (hr hpc)
  · rename_i i hpc
    split_ifs at h with hi hp
    · cases h
      exact .found hpc hp
    · cases h
      exact .passed hpc (by simpa using hp)
    · cases h
      exact .defaulted hpc (by omega)
  · rename_i c hpc
    cases h
    exact .dispatched hpc
  · rename_i c ret hpc
    cases h
    exact .stored hpc
  · rename_i c hpc
    cases h
    exact .woke hpc

theorem moves_of_step (h : steps T s a o s') : Moves T s a o s' := by
  cases a with
  | call c k => exact moves_doKcall h
  | core c => exact moves_coreStep h
  | master ans => exact moves_doKcall2 h

/-! ### The view of one core -/

/-- What the master is doing for one core. -/
inductive Duty where
  | none | serve | store (ret : ℤ) | wake

def MasterPc.duty (m : MasterPc) (c : ℕ) : Duty :=
  match m with
  | .dispatch d => if d = c then .serve else .none
  | .store d ret => if d = c then .store ret else .none
  | .wake d => if d = c then .wake else .none
  | _ => .none

/-- What a step means for the calls of core `c`. -/
def Out.mark (o : Out) (c : ℕ) : Option (Rpc.Mark Kcall ℤ) :=
  match o with
  | .called d k => if d = c then some (.ask k) else none
  | .dispatched d k _ ret => if d = c then some (.answer k ret) else none
  | .returned d k ret _ => if d = c then some (.take k ret) else none
  | _ => none

/-- How the thread of a core, its board and the master stand to each other in each
stage of a call. -/
inductive Slot (pc : CorePc) (b : Sysboard) (d : Duty) : Rpc Kcall ℤ → Prop
  | free (hpc : pc = .user) (hd : d = .none) (hp : b.pending = false) (hs : b.syssem = 0) :
    Slot pc b d .idle
  | waiting {k} (hpc : pc = .raise k ∨ pc = .sleep k) (hd : d = .none ∨ d = .serve)
      (hp : b.pending = true) (hs : b.syssem = 0) (hk : b.toKcall = k) : Slot pc b d (.asked k)
  | served {k ret} (hpc : pc = .raise k ∨ pc = .sleep k) (hd : d = .store ret)
      (hp : b.pending = true) (hs : b.syssem = 0) : Slot pc b d (.answered k ret)
  | stored {k} (hpc : pc = .raise k ∨ pc = .sleep k) (hd : d = .wake)
      (hp : b.pending = false) (hs : b.syssem = 0) : Slot pc b d (.answered k b.ret)
  | raised {k} (hpc : pc = .raise k ∨ pc = .sleep k) (hd : d = .none)
      (hp : b.pending = false) (hs : b.syssem = 1) : Slot pc b d (.answered k b.ret)
  | leaving {k} (hpc : pc = .read k) (hd : d = .none)
      (hp : b.pending = false) (hs : b.syssem = 0) : Slot pc b d (.answered k b.ret)

namespace Slot

variable {pc : CorePc} {b : Sysboard} {d : Duty} {x : Rpc Kcall ℤ} {k : Kcall} {ret : ℤ}

theorem call (h : Slot .user b d x) :
    x = .idle ∧ Slot (.raise k) { b with toKcall := k, pending := true } d (.asked k) := by
  cases h with
  | free _ hd hp hs => exact ⟨rfl, .waiting (.inl rfl) (.inl hd) rfl hs rfl⟩
  | waiting hpc | served hpc | stored hpc | raised hpc => simp at hpc
  | leaving hpc => cases hpc

theorem raise (h : Slot (.raise k) b d x) : Slot (.sleep k) b d x := by
  cases h with
  | free hpc => cases hpc
  | waiting hpc hd hp hs hk => exact .waiting (.inr (by simpa using hpc)) hd hp hs hk
  | served hpc hd hp hs => exact .served (.inr (by simpa using hpc)) hd hp hs
  | stored hpc hd hp hs => exact .stored (.inr (by simpa using hpc)) hd hp hs
  | raised hpc hd hp hs => exact .raised (.inr (by simpa using hpc)) hd hp hs
  | leaving hpc => cases hpc

/-- A caller gets past its semaphore only after the master has raised it. -/
theorem sleep (h : Slot (.sleep k) b d x) (hn : 0 < b.syssem) :
    Slot (.read k) { b with syssem := b.syssem - 1 } d x := by
  cases h with
  | free hpc => cases hpc
  | waiting _ _ _ hs | served _ _ _ hs | stored _ _ _ hs => omega
  | raised hpc hd hp hs =>
    exact .leaving (by simpa using hpc) hd hp (by simp [hs])
  | leaving hpc => cases hpc

theorem read (h : Slot (.read k) b d x) : x = .answered k b.ret ∧ Slot .user b d .idle := by
  cases h with
  | free hpc => cases hpc
  | waiting hpc | served hpc | stored hpc | raised hpc => simp at hpc
  | leaving hpc hd hp hs =>
    cases hpc
    exact ⟨rfl, .free rfl hd hp hs⟩

theorem found (h : Slot pc b .none x) (hp : b.pending = true) : Slot pc b .serve x := by
  cases h with
  | waiting hpc _ hp hs hk => exact .waiting hpc (.inr rfl) hp hs hk
  | served _ hd | stored _ hd => cases hd
  | free _ _ hp' | raised _ _ hp' | leaving _ _ hp' => rw [hp] at hp'; cases hp'

theorem dispatch (h : Slot pc b .serve x) :
    x = .asked b.toKcall ∧ b.pending = true ∧
      ∀ ret, Slot pc b (.store ret) (.answered b.toKcall ret) := by
  cases h with
  | waiting hpc _ hp hs hk =>
    subst hk
    exact ⟨rfl, hp, fun _ => .served hpc rfl hp hs⟩
  | free _ hd | served _ hd | stored _ hd | raised _ hd | leaving _ hd => cases hd

theorem store (h : Slot pc b (.store ret) x) :
    Slot pc { b with pending := false, ret := ret } .wake x := by
  cases h with
  | waiting _ hd => simp at hd
  | served hpc hd hp hs =>
    cases hd
    exact .stored hpc rfl rfl hs
  | free _ hd | stored _ hd | raised _ hd | leaving _ hd => cases hd

theorem wake (h : Slot pc b .wake x) : Slot pc { b with syssem := b.syssem + 1 } .none x := by
  cases h with
  | waiting _ hd => simp at hd
  | stored hpc _ hp hs => exact .raised hpc rfl hp (by simp [hs])
  | free _ hd | served _ hd | raised _ hd | leaving _ hd => cases hd

end Slot

/-- Core `c` is in stage `x` of a call. -/
def At (s : State) (c : ℕ) (x : Rpc Kcall ℤ) : Prop :=
  Slot (s.cores c) (s.sysboard c) (s.master.duty c) x

theorem At.frame {c : ℕ} {x : Rpc Kcall ℤ} (hx : At s c x) (hc : s'.cores c = s.cores c)
    (hb : s'.sysboard c = s.sysboard c) (hm : s'.master.duty c = s.master.duty c) : At s' c x := by
  unfold At
  rw [hc, hb, hm]
  exact hx

/-- The stage of a core moves on with its own marks only. -/
theorem Moves.stage (h : Moves T s a o s') (hno : o ≠ .defaulted) {c : ℕ} {x : Rpc Kcall ℤ}
    (hx : At s c x) :
    ∃ y, At s' c y ∧ Rpc.Moves x (o.mark c) y := by
  cases h with
  | idle => exact ⟨x, hx, rfl⟩
  | @called d k hc h =>
    by_cases hd : d = c
    · subst hd
      unfold At at hx
      rw [h] at hx
      obtain ⟨rfl, hy⟩ := hx.call (k := k)
      refine ⟨.asked k, ?_, by simpa [Out.mark] using .ask k⟩
      simpa [At, State.setCore, State.setBoard] using hy
    · refine ⟨x, hx.frame ?_ ?_ rfl, by simp [Out.mark, hd, Rpc.Moves]⟩ <;>
        exact update_of_ne (Ne.symm hd) _ _
  | @raised d k h =>
    refine ⟨x, ?_, rfl⟩
    by_cases hd : d = c
    · subst hd
      unfold At at hx
      rw [h] at hx
      simpa [At, State.setCore] using hx.raise
    · exact hx.frame (update_of_ne (Ne.symm hd) _ _) rfl rfl
  | @slept d k h hn =>
    refine ⟨x, ?_, rfl⟩
    by_cases hd : d = c
    · subst hd
      unfold At at hx
      rw [h] at hx
      simpa [At, State.setCore, State.setBoard] using hx.sleep hn
    · refine hx.frame ?_ ?_ rfl <;> exact update_of_ne (Ne.symm hd) _ _
  | @returned d k h =>
    by_cases hd : d = c
    · subst hd
      unfold At at hx
      rw [h] at hx
      obtain ⟨rfl, hy⟩ := hx.read
      refine ⟨.idle, ?_, by simpa [Out.mark] using .take k _⟩
      simpa [At, State.setCore] using hy
    · exact ⟨x, hx.frame (update_of_ne (Ne.symm hd) _ _) rfl rfl, by simp [Out.mark, hd, Rpc.Moves]⟩
  | took h | passed h =>
    refine ⟨x, hx.frame rfl rfl ?_, rfl⟩
    simp [MasterPc.duty, h]
  | found h hp =>
    refine ⟨x, ?_, rfl⟩
    unfold At at hx ⊢
    rw [h] at hx
    by_cases hd : s.sysNextCoreid = c
    · subst hd
      simpa [MasterPc.duty] using Slot.found hx hp
    · simpa [MasterPc.duty, hd] using hx
  | defaulted => exact absurd rfl hno
  | @dispatched _ d h =>
    unfold At at hx ⊢
    rw [h] at hx
    by_cases hd : d = c
    · subst hd
      rw [MasterPc.duty, if_pos rfl] at hx
      obtain ⟨rfl, _, hy⟩ := hx.dispatch
      exact ⟨_, by simpa [MasterPc.duty] using hy _, by simpa [Out.mark] using .answer _ _⟩
    · exact ⟨x, by simpa [MasterPc.duty, hd] using hx, by simp [Out.mark, hd, Rpc.Moves]⟩
  | @stored _ d ret h =>
    refine ⟨x, ?_, rfl⟩
    unfold At at hx ⊢
    rw [h] at hx
    by_cases hd : d = c
    · subst hd
      rw [MasterPc.duty, if_pos rfl] at hx
      simpa [MasterPc.duty, State.setBoard] using hx.store
    · simpa [MasterPc.duty, State.setBoard, hd, update_of_ne (Ne.symm hd)] using hx
  | @woke _ d h =>
    refine ⟨x, ?_, rfl⟩
    unfold At at hx ⊢
    rw [h] at hx
    by_cases hd : d = c
    · subst hd
      rw [MasterPc.duty, if_pos rfl] at hx
      simpa [MasterPc.duty, State.setBoard] using hx.wake
    · simpa [MasterPc.duty, State.setBoard, hd, update_of_ne (Ne.symm hd)] using hx

/-! ### The invariant -/

/-- The calls that have still to raise `syssem`. -/
def CorePc.raising : CorePc → Bool
  | .raise _ => true
  | _ => false

/-- The master has taken `syssem` for a board that is still pending. -/
def MasterPc.engaged : MasterPc → ℕ
  | .sweep _ | .dispatch _ | .store _ _ => 1
  | _ => 0

structure Inv (T : Target) (s : State) : Prop where
  next_lt : s.sysNextCoreid < T.coresNum
  outside : ∀ c, T.coresNum ≤ c → s.cores c = .user
  stages : ∀ c, ∃ x, At s c x
  /-- The sweep has a pending board before it. -/
  ahead : ∀ i, s.master = .sweep i → ∃ c < T.coresNum, (s.sysboard c).pending = true ∧
    Ring.dist T.coresNum s.sysNextCoreid c + i < T.coresNum
  /-- The sweep stops behind the board it has found. -/
  behind : ∀ c, s.master = .dispatch c → s.sysNextCoreid = (c + 1) % T.coresNum
  balance : tally Sysboard.pending s.sysboard T.coresNum =
    s.syssem + tally CorePc.raising s.cores T.coresNum + s.master.engaged

theorem inv_boot : Inv T boot where
  next_lt := T.cores_pos
  outside _ _ := rfl
  stages _ := ⟨.idle, .free rfl rfl rfl rfl⟩
  ahead _ h := nomatch h
  behind _ h := nomatch h
  balance := by simp [boot, tally, CorePc.raising, MasterPc.engaged]

theorem Inv.lt_of_cores (hi : Inv T s) {c : ℕ} (h : s.cores c ≠ .user) : c < T.coresNum := by
  by_contra hc
  exact h (hi.outside c (by omega))

/-- The sweep always finds a pending board. -/
theorem Moves.not_defaulted (h : Moves T s a o s') (hi : Inv T s) : o ≠ .defaulted := by
  rintro rfl
  cases h with
  | defaulted h hn =>
    obtain ⟨c, _, _, hd⟩ := hi.ahead _ h
    omega

theorem Moves.outside (h : Moves T s a o s') (hi : Inv T s) (c : ℕ) (hc : T.coresNum ≤ c) :
    s'.cores c = .user := by
  cases h with
  | called hd h =>
    rw [← hi.outside c hc]
    exact update_of_ne (by omega) _ _
  | @raised d k h | @slept d k h | @returned d k h =>
    have hd : d < T.coresNum := hi.lt_of_cores (by simp [h])
    rw [← hi.outside c hc]
    exact update_of_ne (by omega) _ _
  | _ => exact hi.outside c hc

theorem Moves.ahead (h : Moves T s a o s') (hi : Inv T s) (i : ℕ) (hs : s'.master = .sweep i) :
    ∃ c < T.coresNum, (s'.sysboard c).pending = true ∧
      Ring.dist T.coresNum s'.sysNextCoreid c + i < T.coresNum := by
  cases h with
  | idle | raised | returned => exact hi.ahead i hs
  | @called d k hd h =>
    obtain ⟨c, hc, hp, hdist⟩ := hi.ahead i hs
    refine ⟨c, hc, ?_, hdist⟩
    by_cases hcd : c = d
    · subst hcd
      simp [State.setCore, State.setBoard]
    · simpa [State.setCore, State.setBoard, hcd] using hp
  | @slept d k h =>
    obtain ⟨c, hc, hp, hdist⟩ := hi.ahead i hs
    refine ⟨c, hc, ?_, hdist⟩
    by_cases hcd : c = d
    · subst hcd
      simpa [State.setCore, State.setBoard] using hp
    · simpa [State.setCore, State.setBoard, hcd] using hp
  | took h hn =>
    cases hs
    have hpos : 0 < tally Sysboard.pending s.sysboard T.coresNum := by
      rw [hi.balance]
      omega
    obtain ⟨c, hc, hp⟩ := tally_pos.mp hpos
    exact ⟨c, hc, hp, Ring.dist_lt hi.next_lt hc⟩
  | passed h hp =>
    cases hs
    obtain ⟨c, hc, hpc, hdist⟩ := hi.ahead _ h
    have hne : s.sysNextCoreid ≠ c := by
      rintro rfl
      rw [hp] at hpc
      cases hpc
    have := Ring.dist_succ hi.next_lt hc hne
    exact ⟨c, hc, hpc, by dsimp only; omega⟩
  | found | defaulted | dispatched | stored | woke => cases hs

theorem Moves.behind (h : Moves T s a o s') (hi : Inv T s) (c : ℕ) (hs : s'.master = .dispatch c) :
    s'.sysNextCoreid = (c + 1) % T.coresNum := by
  cases h with
  | idle | called | raised | slept | returned => exact hi.behind c hs
  | found => cases hs; rfl
  | defaulted h hn =>
    obtain ⟨_, _, _, hd⟩ := hi.ahead _ h
    omega
  | took | passed | dispatched | stored | woke => cases hs

theorem At.pending_of_user {c : ℕ} {x : Rpc Kcall ℤ} (hx : At s c x) (h : s.cores c = .user) :
    (s.sysboard c).pending = false := by
  unfold At at hx
  rw [h] at hx
  cases hx with
  | free _ _ hp => exact hp
  | waiting hpc | served hpc | stored hpc | raised hpc => simp at hpc
  | leaving hpc => cases hpc

theorem Inv.lt_of_pending (hi : Inv T s) {c : ℕ} (h : (s.sysboard c).pending = true) :
    c < T.coresNum := by
  apply hi.lt_of_cores
  intro hu
  obtain ⟨x, hx⟩ := hi.stages c
  rw [hx.pending_of_user hu] at h
  cases h

/-- The board of a core that the master serves is pending until the result is stored. -/
theorem Inv.pending_of_duty (hi : Inv T s) {c : ℕ}
    (h : s.master = .dispatch c ∨ ∃ ret, s.master = .store c ret) :
    (s.sysboard c).pending = true := by
  obtain ⟨x, hx⟩ := hi.stages c
  unfold At at hx
  rcases h with h | ⟨ret, h⟩ <;> rw [h, MasterPc.duty, if_pos rfl] at hx
  · exact hx.dispatch.2.1
  · cases hx with
    | waiting _ hd => simp at hd
    | served _ _ hp => exact hp
    | free _ hd | stored _ hd | raised _ hd | leaving _ hd => cases hd

theorem Moves.balance (h : Moves T s a o s') (hi : Inv T s) :
    tally Sysboard.pending s'.sysboard T.coresNum =
      s'.syssem + tally CorePc.raising s'.cores T.coresNum + s'.master.engaged := by
  have hb := hi.balance
  cases h with
  | idle => exact hb
  | @called d k hd h =>
    obtain ⟨x, hx⟩ := hi.stages d
    have h₁ := tally_update Sysboard.pending s.sysboard
      { s.sysboard d with toKcall := k, pending := true } hd
    have h₂ := tally_update CorePc.raising s.cores (.raise k) hd
    rw [hx.pending_of_user h] at h₁
    rw [h] at h₂
    simp only [CorePc.raising, Bool.false_eq_true, ite_false, ite_true] at h₁ h₂
    dsimp only [State.setCore, State.setBoard]
    omega
  | @raised d k h =>
    have hd : d < T.coresNum := hi.lt_of_cores (by simp [h])
    have h₂ := tally_update CorePc.raising s.cores (.sleep k) hd
    rw [h] at h₂
    simp only [CorePc.raising, Bool.false_eq_true, ite_false, ite_true] at h₂
    dsimp only [State.setCore]
    omega
  | @slept d k h hn =>
    dsimp only [State.setCore, State.setBoard]
    rw [tally_update_same (by rfl), tally_update_same (by simp [h, CorePc.raising])]
    exact hb
  | @returned d k h =>
    dsimp only [State.setCore]
    rw [tally_update_same (by simp [h, CorePc.raising])]
    exact hb
  | took h hn =>
    rw [h] at hb
    dsimp only [MasterPc.engaged] at hb ⊢
    omega
  | found h | passed h | defaulted h | dispatched h =>
    rw [h] at hb
    exact hb
  | @stored _ d ret h =>
    have hp := hi.pending_of_duty (.inr ⟨ret, h⟩)
    have h₁ := tally_update Sysboard.pending s.sysboard
      { s.sysboard d with pending := false, ret := ret } (hi.lt_of_pending hp)
    rw [hp] at h₁
    rw [h] at hb
    simp only [Bool.false_eq_true, ite_false, ite_true] at h₁
    dsimp only [State.setBoard, MasterPc.engaged] at hb ⊢
    omega
  | woke h =>
    rw [h] at hb
    dsimp only [State.setBoard]
    rw [tally_update_same (by rfl)]
    exact hb

theorem Moves.inv (h : Moves T s a o s') (hi : Inv T s) : Inv T s' where
  next_lt := by
    cases h with
    | found | passed => exact Nat.mod_lt _ T.cores_pos
    | _ => exact hi.next_lt
  outside := h.outside hi
  stages c := by
    obtain ⟨x, hx⟩ := hi.stages c
    obtain ⟨y, hy, _⟩ := h.stage (h.not_defaulted hi) hx
    exact ⟨y, hy⟩
  ahead := h.ahead hi
  behind := h.behind hi
  balance := h.balance hi

/-- The counter of `syssem` never exceeds the number of cores. -/
theorem Inv.syssem_le (hi : Inv T s) : s.syssem ≤ T.coresNum := by
  have hle := tally_le Sysboard.pending s.sysboard T.coresNum
  rw [hi.balance] at hle
  omega

theorem inv_of_run {tr : List (Event State Act Out)} {u : State} (hs : Inv T s)
    (h : Run (steps T) s tr u) : Inv T u :=
  h.invariant (P := fun _ => True) hs (fun _ _ => trivial) fun _ hstep _ => (moves_of_step hstep).inv

theorem inv_of_mem {tr : List (Event State Act Out)} {u : State} {e : Event State Act Out}
    (h : Runs T tr u) (he : e ∈ tr) : Inv T e.pre := by
  obtain ⟨l, r, rfl⟩ := List.append_of_mem he
  exact inv_of_run inv_boot (h.at_event).1

end Nanvix.Sys
