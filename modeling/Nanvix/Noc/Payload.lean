import Nanvix.Noc.Kernel

/-! Payload bytes and control. No decision of a facility depends on the payload of a
message: a state in which all payloads are blank goes through the same steps with the
same answers, up to the payloads again. So two runs of the same calls that differ in
payloads stay in lockstep. -/

namespace Nanvix.Noc

open Nanvix.Lib

@[reducible] def Message.blank (m : Message) : Message := ⟨m.header, []⟩

@[reducible] def Mbuffer.blank (m : Mbuffer) : Mbuffer := { m with message := m.message.blank }

@[reducible] def Phys.blank (s : Phys) : Phys := { s with mbuffers := fun k => (s.mbuffers k).blank }

/-- What a user writes and what arrives from the hardware are payloads. -/
@[reducible] def Env.blank (env : Env) : Env :=
  { env with arrived := env.arrived.blank, mem := fun _ => 0 }

def Answer.blank (x : Answer) : Answer :=
  { x with copied := x.copied.map fun c => (c.1, []), sent := x.sent.map Message.blank }

/-- A call on an active with the payloads of its answer and its state blank. -/
def blankCall (r : Answer × Phys) : Answer × Phys := (r.1.blank, r.2.blank)

theorem Answer.blank_blank (x : Answer) : x.blank.blank = x.blank := by
  simp [Answer.blank, Function.comp_def]

theorem blankCall_blankCall (r : Answer × Phys) : blankCall (blankCall r) = blankCall r := by
  simp only [blankCall, Answer.blank_blank]

variable {F : Facility} {s : Phys} {a p k : ℕ} {cfg : Config} {env : Env}

/-! ### Updates of mbuffers -/

theorem setMbuffer_blank (m : Mbuffer) : (s.setMbuffer k m).blank = s.blank.setMbuffer k m.blank :=
  congrArg (fun f => { s with mbuffers := f }) (Function.comp_update Mbuffer.blank s.mbuffers k m)

theorem lend_blank (l : UInt64) : s.blank.lend a k l = (s.lend a k l).blank := by
  have h := setMbuffer_blank (s := s) (k := k) { s.mbuffers k with latency := l }
  exact congrArg (fun u : Phys => (u.setActive a
    { s.actives a with resource := { (s.actives a).resource with busy := true } }).setLent a (some k)) h.symm

theorem addLatency_blank (l : UInt64) : s.blank.addLatency k l = (s.addLatency k l).blank :=
  (setMbuffer_blank { s.mbuffers k with latency := (s.mbuffers k).latency + l }).symm

theorem releaseMbuffer_blank (keep : Bool) :
    s.blank.releaseMbuffer k keep = (s.releaseMbuffer k keep).blank := by
  cases keep with
  | true =>
    have h := setMbuffer_blank (s := s) (k := k)
      { s.mbuffers k with age := s.age, resource := { (s.mbuffers k).resource with busy := true } }
    exact congrArg (fun u : Phys => { u with age := s.age + 1 }) h.symm
  | false => exact (setMbuffer_blank (s.mbuffers k).discarded).symm

theorem mbufferAlloc_blank (P : Pool) :
    mbufferAlloc F P s.blank = ((mbufferAlloc F P s).1, (mbufferAlloc F P s).2.blank) := by
  have hfind : ((List.range (P.nmbuffers F)).find? fun i => !(s.blank.mbuffers (P.base F + i)).resource.used) =
      (List.range (P.nmbuffers F)).find? fun i => !(s.mbuffers (P.base F + i)).resource.used := rfl
  unfold mbufferAlloc
  rw [hfind]
  cases (List.range (P.nmbuffers F)).find? fun i => !(s.mbuffers (P.base F + i)).resource.used with
  | none => rfl
  | some i => exact congrArg (Prod.mk _) (setMbuffer_blank (s.mbuffers (P.base F + i)).allocated).symm

theorem mbufferRelease_blank (P : Option Pool) (id : ℤ) (keep : Bool) :
    mbufferRelease F P id keep s.blank =
      (mbufferRelease F P id keep s).map fun r => (r.1, r.2.blank) := by
  unfold mbufferRelease
  cases mbufferGet F P id with
  | none => rfl
  | some k =>
    dsimp only
    rw [releaseMbuffer_blank]
    split_ifs <;> rfl

theorem mbufferSearch_blank (P : Pool) (dest src : ℤ) :
    mbufferSearch F P dest src s.blank = mbufferSearch F P dest src s := rfl

/-! ### Ports -/

theorem activeAlloc_blank (loc rem portid : ℤ) (ty : CommType) :
    activeAlloc F s.blank loc rem portid ty =
      ((activeAlloc F s loc rem portid ty).1, (activeAlloc F s loc rem portid ty).2.blank) := by
  have hsearch : activeSearch F s.blank loc rem ty = activeSearch F s loc rem ty := rfl
  have hchoose : ∀ i, choosePort F s.blank i portid ty = choosePort F s i portid ty := fun _ => rfl
  simp only [activeAlloc, hsearch, hchoose]
  cases activeSearch F s loc rem ty with
  | error e => rfl
  | ok i =>
    dsimp only
    cases choosePort F s i portid ty with
    | error e => rfl
    | ok q =>
      dsimp only
      split_ifs <;> rfl

theorem activeRelease_blank (id : ℤ) :
    activeRelease F s.blank id = (activeRelease F s id).map fun r => (r.1, r.2.blank) := by
  unfold activeRelease
  dsimp only
  rw [mbufferSearch_blank]
  split_ifs <;> rfl

/-! ### Reading -/

theorem clearSender_blank (m : Mbuffer) :
    clearSender F s.blank m.blank = (clearSender F s m).map Phys.blank := by
  unfold clearSender
  split_ifs <;> rfl

theorem areadStored_blank (P : Pool) (i : ℕ) :
    areadStored F s.blank P i cfg env.blank = (areadStored F s P i cfg env).map blankCall := by
  unfold areadStored
  cases mbufferGet F (some P) i with
  | none => rfl
  | some j =>
    dsimp only
    rw [clearSender_blank]
    cases clearSender F s (s.mbuffers j) with
    | none => rfl
    | some u =>
      dsimp only [Option.map_some]
      rw [mbufferRelease_blank]
      rcases mbufferRelease F (some P) i false u with _ | ⟨_ | _, t⟩
      · rfl
      · rfl
      · simp [blankCall, Answer.blank]

theorem areadSubmit_blank (remote : ℤ) :
    areadSubmit F s.blank a p remote env.blank = (areadSubmit F s a p remote env).map blankCall := by
  unfold areadSubmit
  dsimp only
  by_cases hbusy : (s.actives a).resource.busy = true
  · rw [if_pos hbusy, if_pos hbusy]
    rfl
  rw [if_neg hbusy, if_neg hbusy]
  have hallow : doAllow F (s.actives a) remote env.blank = doAllow F (s.actives a) remote env := rfl
  rw [hallow]
  cases doAllow F (s.actives a) remote env with
  | error e => rfl
  | ok _ =>
    have halloc := mbufferAlloc_blank (F := F) (s := s.allow a remote) .principal
    change mbufferAlloc F .principal (s.blank.allow a remote) = _ at halloc
    rw [halloc]
    rcases mbufferAlloc F .principal (s.allow a remote) with ⟨_ | j, u⟩
    · rfl
    · have hattach : u.blank.attach (a, p) j = (u.attach (a, p) j).blank := rfl
      dsimp only
      rw [hattach, mbufferRelease_blank]
      split_ifs
      · rcases mbufferRelease F (some .principal) j false (u.attach (a, p) j) with _ | ⟨_ | _, t⟩ <;> rfl
      · exact congrArg (fun t => some (_, t)) (lend_blank (s := (u.attach (a, p) j).disallow a) _)

theorem activeAread_blank (id : ℤ) :
    activeAread F s.blank id cfg env.blank = (activeAread F s id cfg env).map blankCall := by
  unfold activeAread
  split_ifs
  · rfl
  dsimp only
  rw [mbufferSearch_blank]
  split_ifs
  · rfl
  · split
    · exact areadStored_blank _ _
    · rfl
  · split
    · exact areadStored_blank _ _
    · exact areadSubmit_blank _

/-! ### Writing -/

theorem doRequestOperation_blank :
    doRequestOperation s.blank a p = (doRequestOperation s a p).map Phys.blank := by
  unfold doRequestOperation
  dsimp only
  split_ifs <;> rfl

theorem awriteSubmit_blank :
    awriteSubmit s.blank a p k env.blank = blankCall (awriteSubmit s a p k env) := by
  unfold awriteSubmit
  dsimp only
  have hreq : (if (s.ports (a, p)).requested then .ok s.blank else doRequestOperation s.blank a p) =
      (if (s.ports (a, p)).requested then .ok s else doRequestOperation s a p).map Phys.blank := by
    rw [doRequestOperation_blank]
    split_ifs <;> rfl
  rw [hreq]
  cases (if (s.ports (a, p)).requested then .ok s else doRequestOperation s a p) with
  | error e => rfl
  | ok u =>
    have hturn : doRequestVerify u.blank a p = doRequestVerify u a p := rfl
    dsimp only [Except.map]
    rw [hturn]
    split_ifs
    · rfl
    · rfl
    · rfl
    · exact congrArg (Prod.mk _) (lend_blank _)

theorem awriteForward_blank :
    (awriteForward F s.blank a p cfg env.blank).map blankCall =
      (awriteForward F s a p cfg env).map blankCall := by
  unfold awriteForward
  split_ifs
  · rfl
  rw [doRequestOperation_blank]
  cases doRequestOperation s a p with
  | error e => rfl
  | ok u =>
    dsimp only [Except.map]
    rw [mbufferAlloc_blank]
    rcases mbufferAlloc F .aux u with ⟨_ | i, v⟩
    · rfl
    · dsimp only
      cases mbufferGet F (some .aux) i with
      | none => rfl
      | some j =>
        dsimp only
        split <;> rename_i hx <;> split <;> rename_i hy <;>
          replace hx := congrArg (Option.map fun r => (r.1, r.2.blank)) hx <;>
          replace hy := congrArg (Option.map fun r => (r.1, r.2.blank)) hy <;>
          rw [← mbufferRelease_blank, setMbuffer_blank] at hx hy <;>
          have hxy := hx.symm.trans hy
        · cases hxy
        · cases hxy
        · simp only [Option.map_some, Option.some.injEq, Prod.mk.injEq] at hxy
          exact congrArg (fun t => some (_, t)) hxy.2

theorem awriteRemote_blank :
    (awriteRemote F s.blank a p cfg env.blank).map blankCall =
      (awriteRemote F s a p cfg env).map blankCall := by
  unfold awriteRemote
  dsimp only
  split_ifs
  · rw [mbufferAlloc_blank]
    rcases mbufferAlloc F .principal s with ⟨_ | i, v⟩
    · rfl
    · dsimp only [Option.map_some]
      rw [← awriteSubmit_blank, ← awriteSubmit_blank]
      have hfill : ∀ l, (v.blank.setMbuffer i ((v.mbuffers i).blank.filled F cfg
          (readMem env.blank.mem cfg.buffer cfg.size) l)).blank =
          (v.setMbuffer i ((v.mbuffers i).filled F cfg (readMem env.mem cfg.buffer cfg.size) l)).blank :=
        fun l => (setMbuffer_blank _).trans (setMbuffer_blank (s := v) (k := i)
          ((v.mbuffers i).filled F cfg (readMem env.mem cfg.buffer cfg.size) l)).symm
      exact congrArg (fun u : Phys => some (awriteSubmit (u.attach (a, p) i) a p i env.blank)) (hfill _)
  · cases mbufferGet F (s.ports (a, p)).mbufferpool (s.ports (a, p)).mbufferid with
    | none => rfl
    | some j =>
      dsimp only [Option.map_some]
      rw [awriteSubmit_blank, blankCall_blankCall]

theorem activeAwrite_blank (id : ℤ) :
    (activeAwrite F s.blank id cfg env.blank).map blankCall =
      (activeAwrite F s id cfg env).map blankCall := by
  unfold activeAwrite
  dsimp only
  split_ifs
  · rfl
  · rfl
  · exact awriteForward_blank
  · exact awriteRemote_blank

/-! ### Waiting -/

theorem hwWait_blank : hwWait s.blank a env.blank = (hwWait s a env).blank := by
  unfold hwWait
  cases s.lent a with
  | none => rfl
  | some j =>
    dsimp only
    split_ifs
    · exact (setMbuffer_blank { s.mbuffers j with message := env.arrived }).symm
    · rfl

theorem waitReceive_blank :
    waitReceive F s.blank a k cfg env.blank =
      ((waitReceive F s a k cfg env).1.blank, (waitReceive F s a k cfg env).2) := by
  unfold waitReceive
  dsimp only
  split_ifs <;> simp [Answer.blank]

theorem waitRelease_blank (mbufferid : ℤ) (keep : Bool) (ans : Answer) :
    waitRelease F s.blank a p mbufferid keep ans.blank =
      (waitRelease F s a p mbufferid keep ans).map blankCall := by
  unfold waitRelease
  rw [mbufferRelease_blank]
  rcases mbufferRelease F (s.ports (a, p)).mbufferpool mbufferid keep s with _ | ⟨r, t⟩ <;> rfl

theorem doRequestComplete_blank :
    doRequestComplete s.blank a p = (doRequestComplete s a p).map Phys.blank := by
  unfold doRequestComplete
  dsimp only
  split_ifs <;> rfl

theorem waitComplete_blank (id mbufferid ret : ℤ) :
    waitComplete F s.blank id mbufferid ret cfg env.blank =
      (waitComplete F s id mbufferid ret cfg env).map blankCall := by
  unfold waitComplete
  dsimp only
  by_cases hret : ret = 0
  · rw [if_pos hret, if_pos hret]
    cases mbufferGet F (s.ports (portOf F id)).mbufferpool mbufferid with
    | none => rfl
    | some j =>
      dsimp only
      rw [addLatency_blank, waitReceive_blank, doRequestComplete_blank]
      generalize s.addLatency j (computeLatency s.clockError (env.clock 0) (env.clock 1)) = u
      split_ifs
      · exact waitRelease_blank _ _ _
      · cases doRequestComplete u (portOf F id).1 (portOf F id).2 with
        | error e => rfl
        | ok v => exact waitRelease_blank _ _ { ret := .ok .success, stats := ⟨cfg.size, (v.mbuffers j).latency⟩ }
      · exact waitRelease_blank _ _ { ret := .ok .success, stats := ⟨cfg.size, (u.mbuffers j).latency⟩ }
  · rw [if_neg hret, if_neg hret]
    exact waitRelease_blank mbufferid false { ret := .error (.hw ret) }

/-! ### Communicators -/

def Out.blank (o : Out) : Out := { o with ans := o.ans.map Answer.blank }

@[reducible] def State.blank (s : State) : State := { s with phys := s.phys.blank }

def blankResult (r : Result) : Result := r.map fun x => (x.1.blank, x.2.blank)

def Act.blank : Act → Act
  | .master env => .master env.blank
  | .resume tid env => .resume tid env.blank
  | act => act

theorem blankResult_blankResult (r : Result) : blankResult (blankResult r) = blankResult r := by
  rcases r with e | ⟨o, t⟩
  · rfl
  · simp [blankResult, Except.map, Out.blank, Function.comp_def, Answer.blank_blank]

section Sections
variable {s : State} {id tid : ℕ}

theorem doVAlloc_blank (loc rem port : ℤ) (ty : CommType) :
    doVAlloc F s.blank loc rem port ty = blankResult (doVAlloc F s loc rem port ty) := by
  unfold doVAlloc
  rw [activeAlloc_blank]
  rcases activeAlloc F s.phys loc rem port ty with ⟨_ | fd, ph⟩ <;> rfl

theorem communicatorFree_blank (ty : CommType) :
    communicatorFree F s.blank id ty = blankResult (communicatorFree F s id ty) := by
  unfold communicatorFree
  dsimp only
  rw [activeRelease_blank]
  split_ifs
  · rfl
  · rfl
  · rfl
  · rcases activeRelease F s.phys (s.comms id).config.fd with _ | ⟨_ | _, ph⟩ <;> rfl

theorem kernelFree_blank (c : ℤ) (ty : CommType) :
    kernelFree F s.blank c ty = blankResult (kernelFree F s c ty) := by
  unfold kernelFree
  split_ifs
  · rfl
  · exact communicatorFree_blank ty

theorem kernelTransfer_blank (c : ℤ) (buffer size : ℕ) (ty : CommType) :
    kernelTransfer F s.blank c buffer size ty = blankResult (kernelTransfer F s c buffer size ty) := by
  unfold kernelTransfer
  split_ifs
  · rfl
  · rfl
  · rfl
  · rfl
  · dsimp only
    split <;> rfl

theorem communicatorIoctl_blank (req : Request) :
    communicatorIoctl F s.blank id req = blankResult (communicatorIoctl F s id req) := by
  unfold communicatorIoctl
  dsimp only
  split_ifs
  · rfl
  · rfl
  · cases req with
    | get what addr =>
      dsimp only
      split_ifs
      · cases what <;> rfl
      · rfl
    | setRemote node port => rfl
    | unknown => rfl

theorem kernelCall_blank (c : KernelCall) :
    kernelCall F s.blank c = blankResult (kernelCall F s c) := by
  cases c with
  | create loc port =>
    show kernelCreate F s.blank loc port = blankResult (kernelCreate F s loc port)
    unfold kernelCreate
    split_ifs <;> first | rfl | exact doVAlloc_blank _ _ _ _
  | «open» loc rem port =>
    show kernelOpen F s.blank loc rem port = blankResult (kernelOpen F s loc rem port)
    unfold kernelOpen
    split <;> split_ifs <;> first | rfl | exact doVAlloc_blank _ _ _ _
  | unlink c => exact kernelFree_blank c .input
  | close c => exact kernelFree_blank c .output
  | allow c rem port =>
    show kernelAllow F s.blank c rem port = blankResult (kernelAllow F s c rem port)
    unfold kernelAllow doVportalAllow
    split
    · rfl
    · dsimp only
      split_ifs <;> rfl
  | aread c buffer size => exact kernelTransfer_blank c buffer size .input
  | awrite c buffer size => exact kernelTransfer_blank c buffer size .output
  | ioctl c req =>
    show kernelIoctl F s.blank c req = blankResult (kernelIoctl F s c req)
    unfold kernelIoctl
    split_ifs
    · rfl
    · cases req with
      | none => rfl
      | some req => exact communicatorIoctl_blank req

theorem doComm_blank (fd : ℤ) :
    (doComm F s.blank fd cfg env.blank).map blankCall = (doComm F s fd cfg env).map blankCall := by
  unfold doComm
  dsimp only
  split
  · rw [activeAread_blank, Option.map_map]
    congr 1
    funext r
    exact blankCall_blankCall r
  · exact activeAwrite_blank fd

theorem communicatorOperate_blank (ty : CommType) :
    blankResult (communicatorOperate F s.blank id ty env.blank) =
      blankResult (communicatorOperate F s id ty env) := by
  unfold communicatorOperate
  dsimp only
  have hcall : (doComm F s.blank (s.comms id).config.fd (s.comms id).config env.blank).map blankCall =
      (doComm F s (s.comms id).config.fd (s.comms id).config env).map blankCall := doComm_blank _
  split_ifs
  · rfl
  · rfl
  · rfl
  · rfl
  · rcases hx : doComm F s.blank (s.comms id).config.fd (s.comms id).config env.blank with _ | ⟨ans', ph'⟩ <;>
      rcases hy : doComm F s (s.comms id).config.fd (s.comms id).config env with _ | ⟨ans, ph⟩ <;>
      rw [hx, hy] at hcall
    · cases hcall
    · cases hcall
    · obtain ⟨hans, hph⟩ := Prod.mk.inj (Option.some.inj hcall)
      dsimp only at hans hph ⊢
      have hret : ans'.blank.ret = ans.blank.ret := by rw [hans]
      have hstats : ans'.blank.stats = ans.blank.stats := by rw [hans]
      simp only [Answer.blank] at hret hstats
      rw [hret, hstats]
      cases ans.ret with
      | error e =>
        simp only [blankResult, Except.map, Out.blank, Option.map_some, hans]
        exact congrArg (fun ph => (Except.ok (_, { s with phys := ph }) : Result)) hph
      | ok st =>
        simp only [blankResult, Except.map, Out.blank, Option.map_some, hans]
        exact congrArg (fun ph => (Except.ok (_, ({ s with phys := ph } : State).setComm id
          ((s.comms id).operated st ans.stats)) : Result)) hph

theorem waitReturns_blank (ret : Except Err CommStatus) :
    waitReturns F s.blank tid id ret = blankResult (waitReturns F s tid id ret) := by
  unfold waitReturns
  split
  · rfl
  · split <;> rfl
  · rfl
  · rfl

theorem waitStep_blank : waitStep F s.blank tid env.blank = blankResult (waitStep F s tid env) := by
  unfold waitStep
  dsimp only
  cases s.waits tid with
  | idle => rfl
  | checked c =>
    have hcheck : waitCheck F s.phys.blank (s.comms c).config.fd = waitCheck F s.phys (s.comms c).config.fd :=
      rfl
    dsimp only [waitEnter]
    rw [hcheck]
    rcases waitCheck F s.phys (s.comms c).config.fd with _ | _ | m <;> rfl
  | blocked c fd m =>
    dsimp only [waitBlock]
    rw [hwWait_blank]
    rfl
  | woken c fd m ret =>
    dsimp only [waitFinish]
    rw [waitComplete_blank]
    rcases waitComplete F s.phys fd m ret (s.comms c).config env with _ | ⟨ans, ph⟩ <;> rfl
  | leaving c ret =>
    dsimp only [waitLeave]
    split
    · exact waitReturns_blank (s := { s with counters := s.counters.operated (s.comms c) }.setComm c
        (s.comms c).succeeded.released) _
    · exact waitReturns_blank (s := s.setComm c (s.comms c).released) _
  | resetting c => rfl

theorem communicatorWait_blank :
    communicatorWait F s.blank tid id = blankResult (communicatorWait F s tid id) := by
  unfold communicatorWait
  dsimp only
  split_ifs
  · rfl
  · rfl
  · exact waitReturns_blank (s := s.setComm id { s.comms id with finished := false }.released) _
  · rfl

theorem masterStep_blank :
    blankResult (masterStep F s.blank env.blank) = blankResult (masterStep F s env) := by
  unfold masterStep
  dsimp only
  cases s.master with
  | idle => rfl
  | opened ty cfg =>
    dsimp only [communicatorAlloc]
    cases (List.range F.commMax).find? fun i => !(s.comms i).resource.used <;> rfl
  | counting ty c => rfl
  | rollback ty fd =>
    dsimp only
    rw [activeRelease_blank]
    rcases activeRelease F s.phys fd with _ | ⟨_ | _, ph⟩ <;> rfl
  | allowing c => rfl
  | operating ty c => exact communicatorOperate_blank (s := { s with master := .idle }) ty

theorem step_wait_idle {tid : ℕ} {c : ℤ} (h : s.waits tid = .idle) :
    step F s (.wait tid c) = kernelWait F s tid c := by
  rw [step, h]

theorem step_wait_busy {tid : ℕ} {c : ℤ} (h : s.waits tid ≠ .idle) :
    step F s (.wait tid c) = continues s := by
  rw [step]
  cases hw : s.waits tid with
  | idle => exact absurd hw h
  | _ => rfl

/-- A step does the same whatever the payloads are. -/
theorem step_blank (act : Act) :
    blankResult (step F s.blank act.blank) = blankResult (step F s act) := by
  cases act with
  | call c =>
    show blankResult (if s.master = .idle then kernelCall F s.blank c else continues s.blank) =
      blankResult (if s.master = .idle then kernelCall F s c else continues s)
    split_ifs
    · rw [kernelCall_blank, blankResult_blankResult]
    · rfl
  | master env => exact masterStep_blank
  | wait tid c =>
    have hblank : s.blank.waits = s.waits := rfl
    show blankResult (step F s.blank (.wait tid c)) = blankResult (step F s (.wait tid c))
    by_cases hidle : s.waits tid = .idle
    · rw [step_wait_idle hidle, step_wait_idle (hblank ▸ hidle)]
      unfold kernelWait
      split_ifs
      · rfl
      · rw [communicatorWait_blank, blankResult_blankResult]
    · rw [step_wait_busy hidle, step_wait_busy (hblank ▸ hidle)]
      rfl
  | resume tid env =>
    show blankResult (waitStep F s.blank tid env.blank) = blankResult (waitStep F s tid env)
    rw [waitStep_blank, blankResult_blankResult]

end Sections

/-! ### Runs -/

/-- One step of each of two runs in lockstep. -/
theorem steps_blank {e e' : Event State Act Out} (h : steps F e.pre e.act e.out e.post)
    (h' : steps F e'.pre e'.act e'.out e'.post) (hpre : e.pre.blank = e'.pre.blank)
    (hact : e.act.blank = e'.act.blank) :
    e.out.blank = e'.out.blank ∧ e.post.blank = e'.post.blank := by
  have hs := step_blank (F := F) (s := e.pre) e.act
  rw [hpre, hact, step_blank, h, h'] at hs
  obtain ⟨hout, hpost⟩ := Prod.mk.inj (Except.ok.inj hs)
  exact ⟨hout.symm, hpost.symm⟩

/-- Two runs of the same calls are in the same state but for the payloads. -/
theorem run_blank {s u u' : State} {tr tr' : List (Event State Act Out)} (h : Run (steps F) s tr u)
    (h' : Run (steps F) s tr' u')
    (hacts : tr.map (fun e => e.act.blank) = tr'.map (fun e => e.act.blank)) : u.blank = u'.blank :=
  h.lockstep State.blank Act.blank (fun _ _ he he' hpre hact => (steps_blank he he' hpre hact).2) h' rfl
    hacts

end Nanvix.Noc
