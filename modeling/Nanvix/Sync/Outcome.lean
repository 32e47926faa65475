import Nanvix.Sync.Vsync

/-! What one step on the synchronisation points can do, as one relation over all actions. The
invariants of the module are proved over its constructors, which carry the guards that were met
and the state afterwards. -/

namespace Nanvix.Sync

open Nanvix.Lib
open Nanvix.Noc (Err)

/-- What a create or open call asks for: nodes, mode, direction, and the answer of the hardware. -/
def Act.allocates : Act → Option (List ℤ × Mode × VsyncType × ℤ)
  | .create nodes mode hw => some (nodes, mode, .input, hw)
  | .open nodes mode hw => some (nodes, mode, .output, hw)
  | _ => none

/-- What an unlink or close call gives up, and the answer of the hardware. -/
def Act.releases : Act → Option (ℕ × VsyncType × ℤ)
  | .unlink id hw => some (id, .input, hw)
  | .close id hw => some (id, .output, hw)
  | _ => none

def Act.enters : Act → Option (ℕ × ℕ × VsyncType)
  | .wait tid id => some (tid, id, .input)
  | .signal tid id => some (tid, id, .output)
  | _ => none

def State.setEntry (s : State) (i : ℕ) (x : Entry) : State := { s with vsync := s.vsync.setEntry i x }

/-- Entry `i` becomes `x`, and the counters `c`. -/
def State.account (s : State) (i : ℕ) (x : Entry) (c : Counters) : State :=
  { s with vsync := { s.vsync.setEntry i x with counters := c } }

section Fields
variable (s : State) (i : ℕ) (x : Entry) (c : Counters)

@[simp] theorem State.setEntry_tab : (s.setEntry i x).vsync.tab = Function.update s.vsync.tab i x := rfl
@[simp] theorem State.setEntry_counters : (s.setEntry i x).vsync.counters = s.vsync.counters := rfl
@[simp] theorem State.setEntry_ops : (s.setEntry i x).ops = s.ops := rfl
@[simp] theorem State.account_tab :
    (s.account i x c).vsync.tab = Function.update s.vsync.tab i x := rfl
@[simp] theorem State.account_counters : (s.account i x c).vsync.counters = c := rfl
@[simp] theorem State.account_ops : (s.account i x c).ops = s.ops := rfl

end Fields

variable (T : Target) (s : State)

inductive StepOutcome : Act → Out → State → Prop
  | quiet (a : Act) (o : Out)
      (hret : a.allocates.isSome ∨ a.releases.isSome → ∃ e, o.ret = some (.error e)) :
      StepOutcome a o s
  | shared {a : Act} {nodes : List ℤ} {mode : Mode} {ty : VsyncType} {hw : ℤ} {i : ℕ}
      (hcall : a.allocates = some (nodes, mode, ty, hw)) (hi : i < T.size)
      (hsame : (s.vsync.tab i).answers (nodes.headD 0) (buildNodeslist nodes) mode ty = true) :
      StepOutcome a { ret := some (.ok i) } (s.setEntry i (s.vsync.tab i).referenced)
  | withdrawn {a : Act} {nodes : List ℤ} {mode : Mode} {ty : VsyncType} {hw : ℤ} {i : ℕ}
      (hcall : a.allocates = some (nodes, mode, ty, hw)) (hi : i < T.size)
      (hfree : (s.vsync.tab i).resource.used = false) :
      StepOutcome a { ret := some (.error (.hw hw)) }
        (s.setEntry i { s.vsync.tab i with resource := {} })
  | created {a : Act} {nodes : List ℤ} {mode : Mode} {ty : VsyncType} {hw : ℤ} {i : ℕ}
      (hcall : a.allocates = some (nodes, mode, ty, hw)) (hi : i < T.size)
      (hnone : ∀ j < T.size,
        (s.vsync.tab j).answers (nodes.headD 0) (buildNodeslist nodes) mode ty = false)
      (hfree : (s.vsync.tab i).resource.used = false) :
      StepOutcome a { ret := some (.ok i) }
        (s.account i (.fresh nodes mode ty hw) (s.vsync.counters.allocated ty))
  | dropped {a : Act} {i : ℕ} {ty : VsyncType} {hw : ℤ} (hcall : a.releases = some (i, ty, hw))
      (hused : (s.vsync.tab i).resource.used = true) (hfits : (s.vsync.tab i).fits ty = true)
      (hidle : (s.vsync.tab i).resource.busy = false) (hmore : (s.vsync.tab i).refcount ≠ 1) :
      StepOutcome a { ret := some (.ok 0) } (s.setEntry i (s.vsync.tab i).unreferenced)
  | stuck {a : Act} {i : ℕ} {ty : VsyncType} {hw : ℤ} (hcall : a.releases = some (i, ty, hw))
      (hused : (s.vsync.tab i).resource.used = true) (hfits : (s.vsync.tab i).fits ty = true)
      (hidle : (s.vsync.tab i).resource.busy = false) (hlast : (s.vsync.tab i).refcount = 1)
      (hhw : hw < 0) :
      StepOutcome a { ret := some (.error (.hw hw)) } (s.setEntry i (s.vsync.tab i).unreferenced)
  | freed {a : Act} {i : ℕ} {ty : VsyncType} {hw : ℤ} (hcall : a.releases = some (i, ty, hw))
      (hused : (s.vsync.tab i).resource.used = true) (hfits : (s.vsync.tab i).fits ty = true)
      (hidle : (s.vsync.tab i).resource.busy = false) (hlast : (s.vsync.tab i).refcount = 1)
      (hhw : 0 ≤ hw) :
      StepOutcome a { ret := some (.ok 0) }
        (s.account i (s.vsync.tab i).unreferenced.released (s.vsync.counters.freed ty))
  | marked {a : Act} {tid i : ℕ} {ty : VsyncType} (hcall : a.enters = some (tid, i, ty))
      (hpc : s.ops tid = .idle) (hused : (s.vsync.tab i).resource.used = true)
      (hfits : (s.vsync.tab i).fits ty = true) (hidle : (s.vsync.tab i).resource.busy = false) :
      StepOutcome a {} ((s.setEntry i ((s.vsync.tab i).setBusy true)).setOp tid (.marked i ty))
  | operated {tid i : ℕ} {ty : VsyncType} {ret : ℤ} {t1 t2 : UInt64}
      (hpc : s.ops tid = .marked i ty) :
      StepOutcome (.operate tid ret t1 t2) { hwfd := some (s.vsync.tab i).hwfd }
        (s.setOp tid (.operated i ty (s.vsync.tab i).hwfd ret t1 t2))
  | failed {tid i : ℕ} {ty : VsyncType} {hwfd ret : ℤ} {t1 t2 : UInt64}
      (hpc : s.ops tid = .operated i ty hwfd ret t1 t2) (hret : ret < 0) :
      StepOutcome (.finish tid) { ret := some (.error (.hw ret)) }
        ((s.setEntry i ((s.vsync.tab i).setBusy false)).setOp tid .idle)
  | finished {tid i : ℕ} {ty : VsyncType} {hwfd ret : ℤ} {t1 t2 : UInt64}
      (hpc : s.ops tid = .operated i ty hwfd ret t1 t2) (hret : 0 ≤ ret) :
      StepOutcome (.finish tid) { ret := some (.ok ret) }
        ((s.account i ({ s.vsync.tab i with
            latency := (s.vsync.tab i).latency + (t2 - t1) }.setBusy false)
          (s.vsync.counters.operated ty)).setOp tid .idle)

variable {T s} {a : Act} {o : Out} {t : State}

/-! ### The calls -/

theorem first_some {v : Vsync} {P : Entry → Bool} {i : ℕ} (h : v.first T P = some i) :
    i < T.size ∧ P (v.tab i) = true := by
  obtain ⟨hp, hi, -⟩ := List.find?_range_eq_some.mp h
  exact ⟨List.mem_range.mp hi, hp⟩

theorem first_none {v : Vsync} {P : Entry → Bool} (h : v.first T P = none) :
    ∀ j < T.size, P (v.tab j) = false := by
  intro j hj
  simpa using List.find?_range_eq_none.mp h j hj

theorem doSyncAlloc_cases {nodes : List ℤ} {mode : Mode} {ty : VsyncType} {hw : ℤ}
    (hcall : a.allocates = some (nodes, mode, ty, hw)) :
    StepOutcome T s a (answer (fun i : ℕ => (i : ℤ)) (doSyncAlloc T s.vsync nodes mode ty hw) s).1
      (answer (fun i : ℕ => (i : ℤ)) (doSyncAlloc T s.vsync nodes mode ty hw) s).2 := by
  unfold doSyncAlloc doSyncSearch resourceAlloc
  cases hsearch : s.vsync.first T
      fun x => x.answers (nodes.headD 0) (buildNodeslist nodes) mode ty with
  | some i =>
    obtain ⟨hi, hsame⟩ := first_some hsearch
    exact .shared hcall hi hsame
  | none =>
    cases hfirst : s.vsync.first T fun x => !x.resource.used with
    | none => exact .quiet a _ fun _ => ⟨.EAGAIN, rfl⟩
    | some i =>
      obtain ⟨hi, hfree⟩ := first_some hfirst
      rw [Bool.not_eq_true'] at hfree
      dsimp only
      by_cases hhw : hw < 0
      · rw [if_pos hhw]
        have hback : resourceFree (s.vsync.setEntry i { s.vsync.tab i with resource := { used := true } })
            i = s.vsync.setEntry i { s.vsync.tab i with resource := {} } := by
          simp [resourceFree, Vsync.setEntry]
        rw [hback]
        exact .withdrawn hcall hi hfree
      · rw [if_neg hhw]
        have hset : (s.vsync.setEntry i { s.vsync.tab i with resource := { used := true } }).setEntry i
            (.fresh nodes mode ty hw) = s.vsync.setEntry i (.fresh nodes mode ty hw) := by
          simp [Vsync.setEntry]
        rw [hset]
        exact .created hcall hi (first_none hsearch) hfree

theorem doSyncRelease_cases {i : ℕ} {ty : VsyncType} {hw : ℤ}
    (hcall : a.releases = some (i, ty, hw)) :
    StepOutcome T s a (answer (fun _ => 0) (doSyncRelease s.vsync i ty hw) s).1
      (answer (fun _ => 0) (doSyncRelease s.vsync i ty hw) s).2 := by
  unfold doSyncRelease
  dsimp only
  split
  · exact .quiet a _ fun _ => ⟨.EBADF, rfl⟩
  rename_i hused
  split
  · exact .quiet a _ fun _ => ⟨.EBADF, rfl⟩
  rename_i hfits
  split
  · exact .quiet a _ fun _ => ⟨.EBUSY, rfl⟩
  rename_i hbusy
  rw [Bool.not_eq_true', Bool.not_eq_false] at hused hfits
  rw [Bool.not_eq_true] at hbusy
  split
  · rename_i hlast
    have hone : (s.vsync.tab i).refcount = 1 := by
      have : (s.vsync.tab i).refcount - 1 = 0 := hlast
      omega
    split
    · exact .stuck hcall hused hfits hbusy hone ‹_›
    · exact .freed hcall hused hfits hbusy hone (by omega)
  · rename_i hlast
    have hone : (s.vsync.tab i).refcount ≠ 1 := by
      intro h
      exact hlast (by rw [Entry.unreferenced, h]; rfl)
    exact .dropped hcall hused hfits hbusy hone

theorem operateEnter_cases (v : Vsync) (i : ℕ) (ty : VsyncType) :
    (∃ e, operateEnter v i ty = (.error e, v)) ∨
      (v.tab i).resource.used = true ∧ (v.tab i).fits ty = true ∧ (v.tab i).resource.busy = false ∧
        operateEnter v i ty = (.ok (), v.setEntry i ((v.tab i).setBusy true)) := by
  unfold operateEnter
  dsimp only
  split
  · exact .inl ⟨_, rfl⟩
  rename_i hused
  split
  · exact .inl ⟨_, rfl⟩
  rename_i hfits
  split
  · exact .inl ⟨_, rfl⟩
  rename_i hbusy
  exact .inr ⟨by simpa using hused, by simpa using hfits, by simpa using hbusy, rfl⟩

theorem enter_cases {tid i : ℕ} {ty : VsyncType} (hcall : a.enters = some (tid, i, ty))
    (hquiet : a.allocates = none ∧ a.releases = none) :
    StepOutcome T s a (enter s tid i ty).1 (enter s tid i ty).2 := by
  have hstay : ∀ o, StepOutcome T s a o s := fun o =>
    .quiet a o fun h => by simp [hquiet] at h
  unfold enter
  split
  · rename_i hpc
    rcases operateEnter_cases s.vsync i ty with ⟨e, he⟩ | ⟨hused, hfits, hidle, he⟩
    · rw [he]
      exact hstay _
    · rw [he]
      exact .marked hcall hpc hused hfits hidle
  · exact hstay _

theorem hwOperate_cases {tid : ℕ} {ret : ℤ} {t1 t2 : UInt64} :
    StepOutcome T s (.operate tid ret t1 t2) (hwOperate s tid ret t1 t2).1
      (hwOperate s tid ret t1 t2).2 := by
  unfold hwOperate
  split
  · exact .operated ‹_›
  · exact .quiet _ _ (by simp [Act.allocates, Act.releases])

theorem leave_cases {tid : ℕ} : StepOutcome T s (.finish tid) (leave s tid).1 (leave s tid).2 := by
  unfold leave operateLeave
  split
  · rename_i id ty hwfd ret t1 t2 hpc
    by_cases hret : 0 ≤ ret
    · rw [if_pos hret, if_pos hret]
      exact .finished hpc hret
    · rw [if_neg hret, if_neg hret]
      exact .failed hpc (by omega)
  · exact .quiet _ _ (by simp [Act.allocates, Act.releases])

theorem steps_cases (h : steps T s a o t) : StepOutcome T s a o t := by
  obtain ⟨rfl, rfl⟩ : (step T s a).1 = o ∧ (step T s a).2 = t := by
    rw [show step T s a = (o, t) from h]
    exact ⟨rfl, rfl⟩
  cases a with
  | create nodes mode hw => exact doSyncAlloc_cases rfl
  | «open» nodes mode hw => exact doSyncAlloc_cases rfl
  | unlink id hw => exact doSyncRelease_cases rfl
  | close id hw => exact doSyncRelease_cases rfl
  | wait tid id => exact enter_cases rfl ⟨rfl, rfl⟩
  | signal tid id => exact enter_cases rfl ⟨rfl, rfl⟩
  | operate tid ret t1 t2 => exact hwOperate_cases
  | finish tid => exact leave_cases
  | ioctl id what addr => exact .quiet _ _ (by simp [Act.allocates, Act.releases])

end Nanvix.Sync
