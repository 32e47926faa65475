import Nanvix.Noc.Kernel

/-! What one step of the system can do, as one relation over all actions. Its
constructors carry the guards that were met, the outcome of the call on an active
that the step makes, and the state afterwards. -/

namespace Nanvix.Noc

open Nanvix.Lib

variable (F : Facility) (s : State)

def newConfig (loc rem port fd : ℤ) (ty : CommType) : Config where
  fd := fd
  localAddr := laddressCompose F loc (fd % (F.portNr + 1))
  remoteAddr := if ty = .output then laddressCompose F rem port else -1

/-- The call on an active that `communicator_operate` makes. -/
inductive CommOutcome (cfg : Config) (env : Env) : CommType → Answer → Phys → Prop
  | aread {ans : Answer} {t : Phys} (hv : activeValidCall F cfg.fd = true)
      (ho : AreadOutcome F s.phys (portOf F cfg.fd).1 (portOf F cfg.fd).2 cfg env ans t) :
      CommOutcome cfg env .input ans t
  | awrite {ans : Answer} {t : Phys} (hv : activeValidCall F cfg.fd = true)
      (ho : AwriteOutcome F s.phys (portOf F cfg.fd).1 (portOf F cfg.fd).2 cfg env ans t) :
      CommOutcome cfg env .output ans t

inductive StepOutcome : Act → Out → State → Prop
  | quiet (a : Act) (o : Out) (hans : o.ans = none) : StepOutcome a o s
  | opened {c : KernelCall} {loc rem port fd : ℤ} {ty : CommType} {ph : Phys}
      (hidle : s.master = .idle)
      (hcall : (c = .create loc port ∧ ty = .input) ∨ ∃ l, c = .open l rem port ∧ ty = .output)
      (hlocal : F.nodeIsLocal loc = true) (hport : validPort F port = true)
      (hrem : ty = .output → validNode F rem = true)
      (ho : AllocOutcome F s.phys loc rem port ty (.ok fd) ph) :
      StepOutcome (.call c) {}
        { s with phys := ph, master := .opened ty (newConfig F loc rem port fd ty) }
  | allocated {ty : CommType} {cfg : Config} {id : ℕ} (env : Env)
      (hpc : s.master = .opened ty cfg) (hid : id < F.commMax)
      (hfree : (s.comms id).resource.used = false) :
      StepOutcome (.master env) {}
        { s.setComm id (.fresh cfg ty) with master := .counting ty id }
  | exhausted {ty : CommType} {cfg : Config} (env : Env) (hpc : s.master = .opened ty cfg)
      (hfull : ∀ id < F.commMax, (s.comms id).resource.used = true) :
      StepOutcome (.master env) {} { s with master := .rollback ty cfg.fd }
  | counted {ty : CommType} {id : ℕ} (env : Env) (hpc : s.master = .counting ty id) :
      StepOutcome (.master env) { ret := some (.ok id) }
        { s with counters := s.counters.allocated ty, master := .idle }
  | rolledBack {ty : CommType} {fd : ℤ} {ph : Phys} (env : Env)
      (hpc : s.master = .rollback ty fd) (hv : activeValidCall F fd = true)
      (ho : ReleaseOutcome F s.phys (portOf F fd).1 (portOf F fd).2 (.ok ()) ph) :
      StepOutcome (.master env) { ret := some (.error .EAGAIN) }
        { s with phys := ph, master := .idle }
  | freed {c : KernelCall} {id : ℕ} {ty : CommType} {ph : Phys} (hidle : s.master = .idle)
      (hcall : (c = .unlink id ∧ ty = .input) ∨ (c = .close id ∧ ty = .output))
      (hid : id < F.commMax) (hused : (s.comms id).resource.used = true)
      (hfits : (s.comms id).fits ty = true) (hbusy : (s.comms id).resource.busy = false)
      (hv : activeValidCall F (s.comms id).config.fd = true)
      (ho : ReleaseOutcome F s.phys (portOf F (s.comms id).config.fd).1
        (portOf F (s.comms id).config.fd).2 (.ok ()) ph) :
      StepOutcome (.call c) { ret := some (.ok 0) }
        ({ s with phys := ph, counters := s.counters.freed ty }.setComm id
          { s.comms id with resource := { (s.comms id).resource with used := false } })
  | granted {id : ℕ} {rem port : ℤ} (hidle : s.master = .idle) (hkind : F.kind = .portal)
      (hid : id < F.commMax) (hused : (s.comms id).resource.used = true)
      (hread : (s.comms id).resource.isReadable = true) (hall : (s.comms id).allowed = false) :
      StepOutcome (.call (.allow id rem port)) { ret := some (.ok 0) }
        (s.setComm id { s.comms id with
          allowed := true
          config := { (s.comms id).config with remoteAddr := laddressCompose F rem port } })
  | noted {c : KernelCall} {id buffer size : ℕ} {ty : CommType} {pc : MasterPc}
      (hidle : s.master = .idle)
      (hcall : (c = .aread id buffer size ∧ ty = .input) ∨ (c = .awrite id buffer size ∧ ty = .output))
      (hid : id < F.commMax) (hsize : 0 < size) (hmax : size ≤ F.maxSize)
      (hpc : pc = .operating ty id ∨ pc = .allowing id ∧ ty = .input ∧ F.kind = .mailbox) :
      StepOutcome (.call c) {} { s.note id ty buffer size with master := pc }
  | remoteSet {id : ℕ} {node port : ℤ} (hidle : s.master = .idle) (hid : id < F.commMax)
      (hused : (s.comms id).resource.used = true) (hbusy : (s.comms id).resource.busy = false) :
      StepOutcome (.call (.ioctl id (some (.setRemote node port)))) { ret := some (.ok 0) }
        (s.setComm id { s.comms id with
          config := { (s.comms id).config with remoteAddr := laddressCalc F node port } })
  | allowed {id : ℕ} (env : Env) (hpc : s.master = .allowing id) :
      StepOutcome (.master env) {}
        { s.setComm id { s.comms id with allowed := true } with master := .operating .input id }
  | denied {ty : CommType} {id : ℕ} (env : Env) (e : Err) (hpc : s.master = .operating ty id) :
      StepOutcome (.master env) { ret := some (.error e) } { s with master := .idle }
  | failed {ty : CommType} {id : ℕ} {env : Env} {ans : Answer} {ph : Phys} {e : Err}
      (hpc : s.master = .operating ty id) (hused : (s.comms id).resource.used = true)
      (hfits : (s.comms id).fits ty = true) (hbusy : (s.comms id).resource.busy = false)
      (ho : CommOutcome F s (s.comms id).config env s.doComm ans ph) (hret : ans.ret = .error e) :
      StepOutcome (.master env) { ret := some (.error e), ans := some ans }
        { s with phys := ph, master := .idle }
  | operated {ty : CommType} {id : ℕ} {env : Env} {ans : Answer} {ph : Phys} {status : CommStatus}
      (hpc : s.master = .operating ty id) (hused : (s.comms id).resource.used = true)
      (hfits : (s.comms id).fits ty = true) (hbusy : (s.comms id).resource.busy = false)
      (ho : CommOutcome F s (s.comms id).config env s.doComm ans ph)
      (hret : ans.ret = .ok status) :
      StepOutcome (.master env)
        { ret := some (.ok (s.comms id).config.size), ans := some ans }
        ({ s with phys := ph, master := .idle }.setComm id
          ((s.comms id).operated status ans.stats))
  | checked {tid id : ℕ} (hpc : s.waits tid = .idle) (hid : id < F.commMax)
      (hused : (s.comms id).resource.used = true) (hbusy : (s.comms id).resource.busy = true)
      (hfin : (s.comms id).finished = false) :
      StepOutcome (.wait tid id) {} (s.setWait tid (.checked id))
  | collected {tid id : ℕ} {o : Out} {pc : WaitPc} (hpc : s.waits tid = .idle)
      (hid : id < F.commMax) (hused : (s.comms id).resource.used = true)
      (hbusy : (s.comms id).resource.busy = true) (hfin : (s.comms id).finished = true)
      (hans : o.ans = none) (hnext : pc = .idle ∨ pc = .resetting id) :
      StepOutcome (.wait tid id) o
        ((s.setComm id { s.comms id with finished := false }.released).setWait tid pc)
  | rejected {tid id : ℕ} {e : Err} (env : Env) (hpc : s.waits tid = .checked id)
      (hcheck : waitCheck F s.phys (s.comms id).config.fd = some (.error e)) :
      StepOutcome (.resume tid env) {} (s.setWait tid (.leaving id (.error e)))
  | entered {tid id : ℕ} {mbufferid : ℤ} (env : Env) (hpc : s.waits tid = .checked id)
      (hcheck : waitCheck F s.phys (s.comms id).config.fd = some (.ok mbufferid)) :
      StepOutcome (.resume tid env) {}
        (s.setWait tid (.blocked id (s.comms id).config.fd mbufferid))
  | woken {tid id : ℕ} {fd mbufferid : ℤ} (env : Env)
      (hpc : s.waits tid = .blocked id fd mbufferid) :
      StepOutcome (.resume tid env) {}
        ({ s with phys := hwWait s.phys (portOf F fd).1 env }.setWait tid
          (.woken id fd mbufferid env.hwRet))
  | completed {tid id k : ℕ} {fd mbufferid ret : ℤ} {ans : Answer} {ph : Phys} (env : Env)
      (hpc : s.waits tid = .woken id fd mbufferid ret)
      (hget : mbufferGet F (s.phys.ports (portOf F fd)).mbufferpool mbufferid = some k)
      (ho : WaitOutcome F s.phys (portOf F fd).1 (portOf F fd).2 k ret (s.comms id).config ans ph) :
      StepOutcome (.resume tid env) { ans := some ans }
        (({ s with phys := ph }.setComm id
          { s.comms id with stats := (s.comms id).stats.add ans.stats }).setWait tid
            (.leaving id ans.ret))
  | left {tid id : ℕ} {ret : Except Err CommStatus} {o : Out} (env : Env)
      (hpc : s.waits tid = .leaving id ret) (hret : ret ≠ .ok .success) (hans : o.ans = none) :
      StepOutcome (.resume tid env) o ((s.setComm id (s.comms id).released).setWait tid .idle)
  | succeeded {tid id : ℕ} {o : Out} {pc : WaitPc} (env : Env)
      (hpc : s.waits tid = .leaving id (.ok .success)) (hans : o.ans = none)
      (hnext : pc = .idle ∨ pc = .resetting id) :
      StepOutcome (.resume tid env) o
        (({ s with counters := s.counters.operated (s.comms id) }.setComm id
          (s.comms id).succeeded.released).setWait tid pc)
  | reset {tid id : ℕ} (env : Env) (hpc : s.waits tid = .resetting id) (cfg : Config)
      (hcfg : cfg = (s.comms id).config ∨
        (s.comms id).resource.isReadable = true ∧ cfg = { (s.comms id).config with remoteAddr := -1 }) :
      StepOutcome (.resume tid env) { ret := some (.ok 0) }
        ((s.setComm id { s.comms id with config := cfg }).setWait tid .idle)

variable {F s} {t : State} {o : Out}

theorem validComm_cast {id : ℤ} (h : ¬ (!validComm F id) = true) :
    id.toNat < F.commMax ∧ (id.toNat : ℤ) = id := by
  simp only [validComm, Bool.not_eq_true', Bool.not_eq_false, decide_eq_true_eq] at h
  omega

theorem doVAlloc_cases {loc rem port : ℤ} {ty : CommType}
    (h : doVAlloc F s loc rem port ty = .ok (o, t)) :
    (t = s ∧ o.ans = none) ∨ ∃ fd ph, AllocOutcome F s.phys loc rem port ty (.ok fd) ph ∧ o = {} ∧
      t = { s with phys := ph, master := .opened ty (newConfig F loc rem port fd ty) } := by
  unfold doVAlloc at h
  split at h
  · rename_i e ph hal
    have ho := activeAlloc_cases hal
    cases ho
    cases h
    exact .inl ⟨rfl, rfl⟩
  · rename_i fd ph hal
    cases h
    exact .inr ⟨fd, ph, activeAlloc_cases hal, rfl, rfl⟩

theorem kernelCreate_cases {loc port : ℤ} (hidle : s.master = .idle)
    (h : kernelCreate F s loc port = .ok (o, t)) :
    StepOutcome F s (.call (.create loc port)) o t := by
  unfold kernelCreate at h
  split at h
  · cases h; exact .quiet _ _ rfl
  split at h
  · cases h; exact .quiet _ _ rfl
  rename_i hport
  split at h
  · cases h; exact .quiet _ _ rfl
  rename_i hloc
  rcases doVAlloc_cases h with ⟨rfl, hans⟩ | ⟨fd, ph, ho, rfl, rfl⟩
  · exact .quiet _ _ hans
  · exact .opened hidle (.inl ⟨rfl, rfl⟩) (by simpa using hloc) (by simpa using hport) (by simp) ho

theorem kernelOpen_cases {loc rem port : ℤ} (hidle : s.master = .idle)
    (h : kernelOpen F s loc rem port = .ok (o, t)) :
    StepOutcome F s (.call (.open loc rem port)) o t := by
  have halloc : ∀ l, F.nodeIsLocal l = true → validPort F port = true → validNode F rem = true →
      doVAlloc F s l rem port .output = .ok (o, t) →
      StepOutcome F s (.call (.open loc rem port)) o t := by
    intro l hl hp hr h
    rcases doVAlloc_cases h with ⟨rfl, hans⟩ | ⟨fd, ph, ho, rfl, rfl⟩
    · exact .quiet _ _ hans
    · exact .opened hidle (.inr ⟨loc, rfl, rfl⟩) hl hp (fun _ => hr) ho
  unfold kernelOpen at h
  split at h
  · split at h
    · cases h; exact .quiet _ _ rfl
    rename_i hrem
    split at h
    · cases h; exact .quiet _ _ rfl
    rename_i hport
    exact halloc F.node F.nodeIsLocal_node (by simpa using hport) (by simpa using hrem) h
  · split at h
    · cases h; exact .quiet _ _ rfl
    split at h
    · cases h; exact .quiet _ _ rfl
    rename_i hrem
    split at h
    · cases h; exact .quiet _ _ rfl
    rename_i hport
    split at h
    · cases h; exact .quiet _ _ rfl
    rename_i hloc
    exact halloc loc (by simpa using hloc) (by simpa using hport) (by simpa using hrem) h

theorem kernelFree_cases {id : ℤ} {ty : CommType} {c : KernelCall} (hidle : s.master = .idle)
    (hcall : (c = .unlink id ∧ ty = .input) ∨ (c = .close id ∧ ty = .output))
    (h : kernelFree F s id ty = .ok (o, t)) : StepOutcome F s (.call c) o t := by
  unfold kernelFree at h
  split at h
  · cases h; exact .quiet _ _ rfl
  rename_i hid
  obtain ⟨hlt, hcast⟩ := validComm_cast hid
  rw [← hcast] at hcall
  unfold communicatorFree at h
  dsimp only at h
  split at h
  · cases h; exact .quiet _ _ rfl
  rename_i hused
  split at h
  · cases h; exact .quiet _ _ rfl
  rename_i hfits
  split at h
  · cases h; exact .quiet _ _ rfl
  rename_i hbusy
  split at h
  · cases h
  · rename_i e ph hrel
    obtain ⟨-, ho⟩ := activeRelease_cases hrel
    cases ho
    cases h
    exact .quiet _ _ rfl
  · rename_i ph hrel
    obtain ⟨hv, ho⟩ := activeRelease_cases hrel
    cases h
    exact .freed hidle hcall hlt (by simpa using hused) (by simpa using hfits)
      (by simpa using hbusy) hv ho

theorem kernelAllow_cases {id rem port : ℤ} (hidle : s.master = .idle)
    (h : kernelAllow F s id rem port = .ok (o, t)) :
    StepOutcome F s (.call (.allow id rem port)) o t := by
  unfold kernelAllow at h
  split at h
  · cases h; exact .quiet _ _ rfl
  rename_i hkind
  split at h
  · cases h; exact .quiet _ _ rfl
  rename_i hid
  obtain ⟨hlt, hcast⟩ := validComm_cast hid
  split at h
  · cases h; exact .quiet _ _ rfl
  split at h
  · cases h; exact .quiet _ _ rfl
  unfold doVportalAllow at h
  dsimp only at h
  split at h
  · cases h; exact .quiet _ _ rfl
  rename_i hused
  split at h
  · cases h; exact .quiet _ _ rfl
  rename_i hread
  split at h
  · cases h; exact .quiet _ _ rfl
  rename_i hall
  cases h
  have ho : StepOutcome F s (.call (.allow id.toNat rem port)) _ _ :=
    .granted hidle hkind hlt (by simpa using hused) (by simpa using hread) (by simpa using hall)
  rw [hcast] at ho
  exact ho

theorem kernelTransfer_cases {id : ℤ} {buffer size : ℕ} {ty : CommType} {c : KernelCall}
    (hidle : s.master = .idle)
    (hcall : (c = .aread id buffer size ∧ ty = .input) ∨ (c = .awrite id buffer size ∧ ty = .output))
    (h : kernelTransfer F s id buffer size ty = .ok (o, t)) : StepOutcome F s (.call c) o t := by
  unfold kernelTransfer at h
  split at h
  · cases h; exact .quiet _ _ rfl
  rename_i hid
  obtain ⟨hlt, hcast⟩ := validComm_cast hid
  rw [← hcast] at hcall
  split at h
  · cases h; exact .quiet _ _ rfl
  rename_i hsize
  split at h
  · cases h; exact .quiet _ _ rfl
  split at h
  · cases h; exact .quiet _ _ rfl
  dsimp only at h
  split at h
  · rename_i hkind
    cases h
    exact .noted hidle hcall hlt (by omega) (by omega) (.inr ⟨rfl, rfl, hkind⟩)
  · cases h
    exact .noted hidle hcall hlt (by omega) (by omega) (.inl rfl)

theorem kernelIoctl_cases {id : ℤ} {req : Option Request} (hidle : s.master = .idle)
    (h : kernelIoctl F s id req = .ok (o, t)) : StepOutcome F s (.call (.ioctl id req)) o t := by
  unfold kernelIoctl at h
  split at h
  · cases h; exact .quiet _ _ rfl
  rename_i hid
  obtain ⟨hlt, hcast⟩ := validComm_cast hid
  split at h
  · cases h; exact .quiet _ _ rfl
  rename_i req
  unfold communicatorIoctl at h
  dsimp only at h
  split at h
  · cases h; exact .quiet _ _ rfl
  rename_i hused
  split at h
  · cases h; exact .quiet _ _ rfl
  rename_i hbusy
  split at h
  · split at h <;> cases h <;> exact .quiet _ _ rfl
  · rename_i node port
    cases h
    have ho : StepOutcome F s (.call (.ioctl id.toNat (some (.setRemote node port)))) _ _ :=
      .remoteSet hidle hlt (by simpa using hused) (by simpa using hbusy)
    rw [hcast] at ho
    exact ho
  · cases h; exact .quiet _ _ rfl

theorem kernelCall_cases {c : KernelCall} (hidle : s.master = .idle)
    (h : kernelCall F s c = .ok (o, t)) : StepOutcome F s (.call c) o t := by
  cases c with
  | create loc port => exact kernelCreate_cases hidle h
  | «open» loc rem port => exact kernelOpen_cases hidle h
  | unlink id => exact kernelFree_cases hidle (.inl ⟨rfl, rfl⟩) h
  | close id => exact kernelFree_cases hidle (.inr ⟨rfl, rfl⟩) h
  | allow id rem port => exact kernelAllow_cases hidle h
  | aread id buffer size => exact kernelTransfer_cases hidle (.inl ⟨rfl, rfl⟩) h
  | awrite id buffer size => exact kernelTransfer_cases hidle (.inr ⟨rfl, rfl⟩) h
  | ioctl id req => exact kernelIoctl_cases hidle h

/-! ### The later sections -/

theorem doComm_cases {cfg : Config} {env : Env} {ans : Answer} {ph : Phys}
    (h : doComm F s cfg.fd cfg env = some (ans, ph)) :
    CommOutcome F s cfg env s.doComm ans ph := by
  unfold doComm at h
  split at h
  · rename_i hd
    rw [hd]
    obtain ⟨hv, ho⟩ := activeAread_cases h
    exact .aread hv ho
  · rename_i hd
    rw [hd]
    obtain ⟨hv, ho⟩ := activeAwrite_cases h
    exact .awrite hv ho

theorem communicatorOperate_cases {ty : CommType} {id : ℕ} {env : Env}
    (hpc : s.master = .operating ty id)
    (h : communicatorOperate F { s with master := .idle } id ty env = .ok (o, t)) :
    StepOutcome F s (.master env) o t := by
  unfold communicatorOperate at h
  dsimp only at h
  split at h
  · cases h; exact .denied env _ hpc
  rename_i hused
  split at h
  · cases h; exact .denied env _ hpc
  rename_i hfits
  split at h
  · cases h; exact .denied env _ hpc
  split at h
  · cases h; exact .denied env _ hpc
  rename_i hbusy
  split at h
  · cases h
  rename_i ans ph hcomm
  have ho : CommOutcome F s (s.comms id).config env s.doComm ans ph := doComm_cases hcomm
  split at h
  · rename_i e he
    cases h
    exact .failed hpc (by simpa using hused) (by simpa using hfits) (by simpa using hbusy) ho he
  · rename_i status hst
    cases h
    exact .operated hpc (by simpa using hused) (by simpa using hfits) (by simpa using hbusy) ho hst

theorem masterStep_cases {env : Env} (h : masterStep F s env = .ok (o, t)) :
    StepOutcome F s (.master env) o t := by
  unfold masterStep at h
  split at h
  · cases h; exact .quiet _ _ rfl
  · rename_i ty cfg hpc
    unfold communicatorAlloc at h
    split at h
    · rename_i id u hal
      split at hal
      · rename_i i hi
        obtain ⟨hu, hlt, -⟩ := List.find?_range_eq_some.mp hi
        cases hal
        cases h
        exact .allocated env hpc (List.mem_range.mp hlt) (by simpa using hu)
      · cases hal
    · rename_i hal
      split at hal
      · cases hal
      · rename_i hnone
        cases h
        exact .exhausted env hpc fun i hi => by simpa using List.find?_range_eq_none.mp hnone i hi
  · rename_i ty id hpc
    cases h
    exact .counted env hpc
  · rename_i ty fd hpc
    split at h
    · cases h
    · cases h
    · rename_i ph hrel
      obtain ⟨hv, ho⟩ := activeRelease_cases hrel
      cases h
      exact .rolledBack env hpc hv ho
  · rename_i id hpc
    cases h
    exact .allowed env hpc
  · rename_i ty id hpc
    exact communicatorOperate_cases hpc h

/-- After `communicator_wait` a thread is done, or resets the filter after a success. -/
theorem waitReturns_cases {tid id : ℕ} {ret : Except Err CommStatus}
    (h : waitReturns F s tid id ret = .ok (o, t)) :
    o.ans = none ∧ (t = s.setWait tid .idle ∨ ret = .ok .success ∧ t = s.setWait tid (.resetting id)) := by
  unfold waitReturns at h
  split at h
  · cases h; exact ⟨rfl, .inl rfl⟩
  · split at h
    · cases h; exact ⟨rfl, .inr ⟨rfl, rfl⟩⟩
    · cases h; exact ⟨rfl, .inl rfl⟩
  · cases h; exact ⟨rfl, .inl rfl⟩
  · cases h; exact ⟨rfl, .inl rfl⟩

theorem kernelWait_cases {tid : ℕ} {id : ℤ} (hpc : s.waits tid = .idle)
    (h : kernelWait F s tid id = .ok (o, t)) : StepOutcome F s (.wait tid id) o t := by
  unfold kernelWait at h
  split at h
  · cases h; exact .quiet _ _ rfl
  rename_i hid
  obtain ⟨hlt, hcast⟩ := validComm_cast hid
  unfold communicatorWait at h
  dsimp only at h
  split at h
  · cases h; exact .quiet _ _ rfl
  rename_i hused
  split at h
  · cases h; exact .quiet _ _ rfl
  rename_i hbusy
  rw [← hcast]
  split at h
  · rename_i hfin
    obtain ⟨hans, hnext⟩ := waitReturns_cases h
    rcases hnext with rfl | ⟨-, rfl⟩
    · exact .collected hpc hlt (by simpa using hused) (by simpa using hbusy) hfin hans (.inl rfl)
    · exact .collected hpc hlt (by simpa using hused) (by simpa using hbusy) hfin hans (.inr rfl)
  · rename_i hfin
    cases h
    exact .checked hpc hlt (by simpa using hused) (by simpa using hbusy) (by simpa using hfin)

theorem waitStep_cases {tid : ℕ} {env : Env} (h : waitStep F s tid env = .ok (o, t)) :
    StepOutcome F s (.resume tid env) o t := by
  unfold waitStep at h
  split at h
  · cases h; exact .quiet _ _ rfl
  · rename_i id hpc
    unfold waitEnter at h
    dsimp only at h
    split at h
    · cases h
    · rename_i e hc
      cases h
      exact .rejected env hpc hc
    · rename_i mbufferid hc
      cases h
      exact .entered env hpc hc
  · rename_i id fd mbufferid hpc
    cases h
    exact .woken env hpc
  · rename_i id fd mbufferid ret hpc
    unfold waitFinish at h
    dsimp only at h
    split at h
    · cases h
    · rename_i ans ph hw
      obtain ⟨k, hget, ho⟩ := waitComplete_cases hw
      cases h
      exact .completed env hpc hget ho
  · rename_i id ret hpc
    unfold waitLeave at h
    dsimp only at h
    split at h
    · obtain ⟨hans, hnext⟩ := waitReturns_cases h
      rcases hnext with rfl | ⟨-, rfl⟩
      · exact .succeeded env hpc hans (.inl rfl)
      · exact .succeeded env hpc hans (.inr rfl)
    · rename_i hret
      obtain ⟨hans, hnext⟩ := waitReturns_cases h
      rcases hnext with rfl | ⟨he, -⟩
      · exact .left env hpc hret hans
      · exact absurd he hret
  · rename_i id hpc
    unfold waitReset at h
    cases h
    split
    · exact .reset env hpc _ (.inr ⟨‹_›, rfl⟩)
    · exact .reset env hpc _ (.inl rfl)

theorem steps_cases {a : Act} (h : steps F s a o t) : StepOutcome F s a o t := by
  unfold steps step at h
  split at h
  · split at h
    · exact kernelCall_cases ‹_› h
    · cases h; exact .quiet _ _ rfl
  · exact masterStep_cases h
  · split at h
    · exact kernelWait_cases ‹_› h
    · cases h; exact .quiet _ _ rfl
  · exact waitStep_cases h

def Act.thread : Act → Option ℕ
  | .call _ => none
  | .master _ => none
  | .wait tid _ => some tid
  | .resume tid _ => some tid

theorem waits_of_step {act : Act} {o : Out} (hs : steps F s act o t) (tid : ℕ)
    (ht : act.thread ≠ some tid) : t.waits tid = s.waits tid := by
  cases steps_cases hs with
  | checked | collected | rejected | entered | woken | completed | left | succeeded | reset =>
    have hne : tid ≠ _ := fun heq => ht (congrArg some heq.symm)
    simp [Function.update_of_ne hne]
  | _ => rfl

/-- What a thread does that is back from the hardware. -/
theorem waitOutcome_of_woken {tid id : ℕ} {env : Env} {fd m ret : ℤ} {ans : Answer}
    (hs : steps F s (.resume tid env) o t) (hpc : s.waits tid = .woken id fd m ret)
    (hans : o.ans = some ans) :
    ∃ k, mbufferGet F (s.phys.ports (portOf F fd)).mbufferpool m = some k ∧
      WaitOutcome F s.phys (portOf F fd).1 (portOf F fd).2 k ret (s.comms id).config ans t.phys := by
  cases steps_cases hs with
  | completed _ hpc' hget ho =>
    rw [hpc] at hpc'
    cases hpc'
    cases hans
    exact ⟨_, hget, ho⟩
  | quiet _ _ hno | left _ _ _ hno | succeeded _ _ hno => rw [hno] at hans; cases hans
  | rejected | entered | woken | reset => cases hans

end Nanvix.Noc
