import Nanvix.Noc.Flight

/-! The assertions of the facility. While no two waits on one communicator overlap,
none of them fails, every operation is completed by one wait, and the mbuffer of an
operation in the hardware is released once. Two overlapping waits are enough to
break an assertion. -/

namespace Nanvix.Noc

open Nanvix.Lib Function

variable {F : Facility} {ph : Phys} {s t : State} {c a p k : ℕ} {id : ℤ} {cfg : Config} {env : Env}

/-! ### The calls on an active return -/

theorem activeRelease_returns (hv : activeValidCall F id = true) : activeRelease F ph id ≠ none := by
  unfold activeRelease
  simp only [hv, Bool.not_true, Bool.false_eq_true, if_false]
  split
  · simp
  split
  · simp
  split <;> simp

theorem areadStored_returns (hw : Wired F ph) {P : Pool} {i : ℕ} (hi : i < P.nmbuffers F)
    (hused : (ph.mbuffers (P.base F + i)).resource.used = true) :
    areadStored F ph P i cfg env ≠ none := by
  obtain ⟨u, hu, -, -⟩ := hw.clearSender (P.base F + i)
  have hused' : (u.mbuffers (P.base F + i)).resource.used = true := by
    rw [(clearSender_mbuffers hu).1]
    exact hused
  simp [areadStored, mbufferGet_index P hi, hu, mbufferRelease, hused']

theorem areadSubmit_returns (a p : ℕ) (rem : ℤ) : areadSubmit F ph a p rem env ≠ none := by
  unfold areadSubmit
  dsimp only
  split
  · simp
  split
  · simp
  split
  · simp
  rename_i k u hal
  obtain ⟨hk, -, rfl⟩ := mbufferAlloc_ok hal
  simp only [Pool.nmbuffers] at hk
  split
  · simp [mbufferRelease, mbufferGet_principal hk, Pool.base, Mbuffer.allocated]
  · simp

theorem activeAread_returns (hv : activeValidCall F id = true) (hw : Wired F ph) :
    activeAread F ph id cfg env ≠ none := by
  unfold activeAread
  simp only [hv, Bool.not_true, Bool.false_eq_true, if_false]
  split
  · simp
  split
  · rename_i i hfound
    obtain ⟨hi, hc, -⟩ := mbufferSearch_some hfound
    simp only [candidate, Bool.and_eq_true] at hc
    exact areadStored_returns hw hi hc.1.1.1
  · split
    · simp
    · exact areadSubmit_returns _ _ _

theorem awriteForward_returns (a p : ℕ) : awriteForward F ph a p cfg env ≠ none := by
  unfold awriteForward
  split
  · simp
  split
  · simp
  split
  · simp
  rename_i i u hal
  obtain ⟨hi, -, rfl⟩ := mbufferAlloc_ok hal
  simp [mbufferGet_index _ hi, mbufferRelease, Mbuffer.filled, Mbuffer.allocated]

theorem activeAwrite_returns (hv : activeValidCall F id = true) (ho : Owned F ph) :
    activeAwrite F ph id cfg env ≠ none := by
  unfold activeAwrite
  simp only [hv, Bool.not_true, Bool.false_eq_true, if_false]
  split
  · simp
  split
  · exact awriteForward_returns _ _
  · unfold awriteRemote
    dsimp only
    split
    · split <;> simp
    · rename_i hatt
      obtain ⟨k, hk, he, hpool, -⟩ := ho.entry (portOf F id) (by simpa using hatt)
      simp [hpool, he, mbufferGet_principal hk]

/-- The last section of `active_wait` on the port on loan. -/
theorem waitComplete_returns (ho : Owned F ph) {fd ret : ℤ} {cfg : Config}
    (hl : OnLoan ph (portOf F fd).1 (portOf F fd).2 k) :
    waitComplete F ph fd k ret cfg env ≠ none := by
  obtain ⟨j, hj, he, hpool, -⟩ := ho.entry (portOf F fd) (by rw [hl.attached]; omega)
  obtain rfl : k = j := by exact_mod_cast hl.attached.symm.trans he
  have hget := mbufferGet_principal hj
  have hrel : ∀ (u : Phys) (keep : Bool) (ans : Answer),
      (u.ports (portOf F fd)).mbufferpool = some .principal →
      waitRelease F u (portOf F fd).1 (portOf F fd).2 k keep ans ≠ none := by
    intro u keep ans hu
    cases hused : (u.mbuffers k).resource.used <;>
      simp [waitRelease, mbufferRelease, hu, hget, hused]
  unfold waitComplete
  generalize hap : portOf F fd = ap at *
  obtain ⟨a, p⟩ := ap
  dsimp only
  split
  · simp only [hpool, hget]
    split
    · exact hrel _ _ _ hpool
    split
    · rename_i hwrite
      have hturn := (doRequestVerify_iff.mp (hl.turn hwrite)).2
      simp only [doRequestComplete, addLatency_actives, hturn, ne_eq, not_true_eq_false, if_false]
      exact hrel _ _ _ (by simpa using hpool)
    · exact hrel _ _ _ hpool
  · exact hrel _ _ _ hpool

/-! ### No assertion fails -/

theorem Flight.doComm_returns (h : Flight F s) (hu : (s.comms c).resource.used = true) :
    doComm F s (s.comms c).config.fd cfg env ≠ none := by
  obtain ⟨ty, a, p, -, hb, -⟩ := h.port hu
  unfold doComm
  split
  · exact activeAread_returns hb.validCall h.wired
  · exact activeAwrite_returns hb.validCall h.owned

theorem Flight.operate_no_kassert (h : Flight F s) {ty : CommType} :
    communicatorOperate F { s with master := .idle } c ty env ≠ .error .kassert := by
  unfold communicatorOperate
  dsimp only
  split
  · simp [returns]
  rename_i hu
  split
  · simp [returns]
  split
  · simp [returns]
  split
  · simp [returns]
  split
  · rename_i hnone
    exact absurd hnone (h.doComm_returns (by simpa using hu))
  split <;> simp

theorem Flight.free_no_kassert (h : Flight F s) {ty : CommType} :
    communicatorFree F s c ty ≠ .error .kassert := by
  unfold communicatorFree
  dsimp only
  split
  · simp [returns]
  rename_i hu
  split
  · simp [returns]
  split
  · simp [returns]
  split
  · rename_i hnone
    obtain ⟨ty', a, p, -, hb, -⟩ := h.port (c := c) (by simpa using hu)
    exact absurd hnone (activeRelease_returns hb.validCall)
  · simp [returns]
  · simp [returns]

theorem returns_no_panic (r : Except Err ℤ) (s : State) (e : Panic) : returns r s ≠ .error e := by
  simp [returns]

theorem continues_no_panic (s : State) (e : Panic) : continues s ≠ .error e := by simp [continues]

theorem doVAlloc_no_panic (loc rem port : ℤ) (ty : CommType) (e : Panic) :
    doVAlloc F s loc rem port ty ≠ .error e := by
  unfold doVAlloc
  split
  · exact returns_no_panic _ _ _
  · exact continues_no_panic _ _

theorem kernelTransfer_no_panic (id : ℤ) (buffer size : ℕ) (ty : CommType) (e : Panic) :
    kernelTransfer F s id buffer size ty ≠ .error e := by
  unfold kernelTransfer
  split
  · exact returns_no_panic _ _ _
  split
  · exact returns_no_panic _ _ _
  split
  · exact returns_no_panic _ _ _
  split
  · exact returns_no_panic _ _ _
  dsimp only
  split <;> exact continues_no_panic _ _

theorem communicatorIoctl_no_panic (c : ℕ) (req : Request) (e : Panic) :
    communicatorIoctl F s c req ≠ .error e := by
  unfold communicatorIoctl
  dsimp only
  split
  · exact returns_no_panic _ _ _
  split
  · exact returns_no_panic _ _ _
  split
  · split <;> exact returns_no_panic _ _ _
  · exact returns_no_panic _ _ _
  · exact returns_no_panic _ _ _

theorem doVportalAllow_no_panic (c : ℕ) (rem port : ℤ) (e : Panic) :
    doVportalAllow F s c rem port ≠ .error e := by
  unfold doVportalAllow
  dsimp only
  split_ifs <;> exact returns_no_panic _ _ _

theorem Flight.kernelFree_no_kassert (h : Flight F s) (id : ℤ) (ty : CommType) :
    kernelFree F s id ty ≠ .error .kassert := by
  unfold kernelFree
  split
  · exact returns_no_panic _ _ _
  · exact h.free_no_kassert

theorem Flight.call_no_kassert (h : Flight F s) (k : KernelCall) :
    kernelCall F s k ≠ .error .kassert := by
  cases k with
  | create loc port =>
    show kernelCreate F s loc port ≠ _
    unfold kernelCreate
    split_ifs <;> first | exact doVAlloc_no_panic _ _ _ _ _ | exact returns_no_panic _ _ _
  | «open» loc rem port =>
    show kernelOpen F s loc rem port ≠ _
    unfold kernelOpen
    split <;> split_ifs <;>
      first | exact doVAlloc_no_panic _ _ _ _ _ | exact returns_no_panic _ _ _
  | unlink id => exact h.kernelFree_no_kassert id .input
  | close id => exact h.kernelFree_no_kassert id .output
  | allow id rem port =>
    show kernelAllow F s id rem port ≠ _
    unfold kernelAllow
    split
    · exact continues_no_panic _ _
    · split_ifs <;> first | exact doVportalAllow_no_panic _ _ _ _ | exact returns_no_panic _ _ _
  | aread id buffer size => exact kernelTransfer_no_panic id buffer size .input _
  | awrite id buffer size => exact kernelTransfer_no_panic id buffer size .output _
  | ioctl id req =>
    show kernelIoctl F s id req ≠ _
    unfold kernelIoctl
    split
    · exact returns_no_panic _ _ _
    split
    · exact returns_no_panic _ _ _
    · exact communicatorIoctl_no_panic _ _ _

theorem Flight.master_no_kassert (h : Flight F s) : masterStep F s env ≠ .error .kassert := by
  unfold masterStep
  split
  · simp [continues]
  · split <;> simp [continues]
  · simp [returns]
  · rename_i ty fd hpc
    obtain ⟨⟨a, p, hb⟩, -⟩ := h.accounts.opening ty fd (by rw [hpc]; rfl)
    split
    · rename_i hnone
      exact absurd hnone (activeRelease_returns hb.validCall)
    · simp
    · simp [returns]
  · simp [continues]
  · exact h.operate_no_kassert

theorem waitReturns_no_kassert {tid : ℕ} {ret : Except Err CommStatus} :
    waitReturns F s tid c ret ≠ .error .kassert := by
  unfold waitReturns
  split
  · simp [returns]
  · split <;> simp [returns, continues]
  · simp [returns]
  · simp [returns]

theorem Flight.resume_no_kassert (h : Flight F s) {tid : ℕ} :
    waitStep F s tid env ≠ .error .kassert := by
  have hp := h.placed tid
  unfold waitStep
  split
  · simp [continues]
  · rename_i id hpc
    rw [hpc] at hp
    obtain ⟨k, -, hok⟩ := h.waitCheck hp
    simp [waitEnter, hok, continues]
  · simp [waitBlock, continues]
  · rename_i id fd m ret hpc
    rw [hpc] at hp
    obtain ⟨-, -, k, rfl, hk⟩ := hp
    unfold waitFinish
    dsimp only
    split
    · rename_i hnone
      exact absurd hnone (waitComplete_returns h.owned hk)
    · simp
  · unfold waitLeave
    dsimp only
    split <;> exact waitReturns_no_kassert
  · simp [waitReset, returns]

theorem kernelWait_no_panic (tid : ℕ) (id : ℤ) : kernelWait F s tid id ≠ .error .kassert := by
  unfold kernelWait communicatorWait
  dsimp only
  split_ifs
  · exact returns_no_panic _ _ _
  · exact returns_no_panic _ _ _
  · exact returns_no_panic _ _ _
  · exact waitReturns_no_kassert
  · exact continues_no_panic _ _

/-- A step from a state in which flights and loans agree never fails an assertion. -/
theorem Flight.no_kassert (h : Flight F s) (act : Act) : Noc.step F s act ≠ .error .kassert := by
  unfold Noc.step
  split
  · split
    · exact h.call_no_kassert _
    · exact continues_no_panic _ _
  · exact h.master_no_kassert
  · split
    · exact kernelWait_no_panic _ _
    · exact continues_no_panic _ _
  · exact h.resume_no_kassert

/-! ### One flight on a busy active -/

def PortInFlight (F : Facility) (s : State) (a p : ℕ) : Prop :=
  ∃ c, InFlight s c ∧ portOf F (s.comms c).config.fd = (a, p)

theorem Flight.onLoan (h : Flight F s) (hf : PortInFlight F s a p) : ∃ k, OnLoan s.phys a p k := by
  obtain ⟨c, hc, hport⟩ := hf
  obtain ⟨k, hk⟩ := h.flight c hc
  rw [hport] at hk
  exact ⟨k, hk⟩

/-- While waits do not overlap, an active is busy exactly when one of its ports has an
operation in flight. That port is in use, owns the mbuffer lent to the hardware and has
the turn on an output active, so that a wait neither fails an assertion nor finds its
operation gone. -/
theorem busy_active_has_one_flight {tr : List (Event State Act Out)} (h : Runs F tr s)
    (hn : ∀ e ∈ tr, NoOverlap e) :
    (∀ a, (s.phys.actives a).resource.busy = true ↔ ∃! p, PortInFlight F s a p) ∧
      (∀ a p, PortInFlight F s a p →
        (s.phys.ports (a, p)).resource.used = true ∧
        (∃ k : ℕ, s.phys.lent a = some k ∧ (s.phys.ports (a, p)).mbufferid = k ∧
          (s.phys.mbuffers k).resource.used = true) ∧
        ((s.phys.actives a).resource.isWritable = true →
          (s.phys.actives a).requests.fifo (s.phys.actives a).requests.tail = p ∧
          doRequestComplete s.phys a p = .ok (s.phys.complete a p))) ∧
      (∀ c, InFlight s c → ∃ m, waitCheck F s.phys (s.comms c).config.fd = some (.ok m)) ∧
      (∀ tid c, s.waits tid = .checked c → InFlight s c) ∧
      ∀ tid env, step F s (.resume tid env) ≠ .error .kassert := by
  have hfl := flight_runs h hn
  refine ⟨fun a => ⟨fun hb => ?_, ?_⟩, fun a p hf => ⟨?_, ?_, fun hw => ?_⟩, fun c hc => ?_,
    fun tid c hpc => ?_, fun tid env => hfl.no_kassert _⟩
  · obtain ⟨c, hc, rfl⟩ := hfl.loan a (by rw [← hfl.wired.busy, hb])
    have hf : PortInFlight F s (portOf F (s.comms c).config.fd).1 (portOf F (s.comms c).config.fd).2 :=
      ⟨c, hc, rfl⟩
    refine ⟨_, hf, fun q hq => ?_⟩
    obtain ⟨k, hk⟩ := hfl.onLoan hf
    obtain ⟨j, hj⟩ := hfl.onLoan hq
    exact hj.unique hfl.owned hk
  · rintro ⟨p, hp, -⟩
    obtain ⟨k, hk⟩ := hfl.onLoan hp
    rw [hfl.wired.busy, hk.lent]
    rfl
  · obtain ⟨c, hc, hport⟩ := hf
    obtain ⟨ty, a', p', -, hb, hport'⟩ := hfl.port hc.used
    cases hport.symm.trans hport'
    exact hb.used
  · obtain ⟨k, hk⟩ := hfl.onLoan hf
    exact ⟨k, hk.lent, hk.attached, (hfl.owned.lent a k hk.lent).1⟩
  · obtain ⟨k, hk⟩ := hfl.onLoan hf
    have hturn := (doRequestVerify_iff.mp (hk.turn hw)).2
    exact ⟨hturn, by simp [doRequestComplete, hturn]⟩
  · obtain ⟨k, -, hk⟩ := hfl.waitCheck hc
    exact ⟨k, hk⟩
  · have := hfl.placed tid
    rwa [hpc] at this

/-! ### Runs of one thread -/

theorem idle_of_no_act {tr : List (Event State Act Out)} (h : Runs F tr s) {tid : ℕ}
    (hno : ∀ a ∈ tr.map (·.act), a.thread ≠ some tid) : s.waits tid = .idle := by
  obtain ⟨s₀, h₀, hrun⟩ := h
  refine hrun.invariant (P := fun e => e.act.thread ≠ some tid) (I := fun s => s.waits tid = .idle) ?_
    (fun e he => hno e.act (List.mem_map_of_mem he)) fun e hs hthread hi => ?_
  · obtain ⟨ph, -, rfl⟩ := h₀
    rfl
  · rw [waits_of_step hs tid hthread]
    exact hi

/-- With a single thread no waits overlap. -/
theorem noOverlap_of_one_thread {tr : List (Event State Act Out)} (h : Runs F tr s)
    (hone : ∀ a ∈ tr.map (·.act), a.thread = none ∨ a.thread = some 0) : ∀ e ∈ tr, NoOverlap e := by
  intro e he tid id hact hpc tid' c hc
  obtain ⟨l, r, rfl⟩ := List.append_of_mem he
  obtain ⟨s₀, h₀, hrun⟩ := h
  have hothers : ∀ tid, tid ≠ 0 → e.pre.waits tid = .idle := by
    intro tid ht
    refine idle_of_no_act ⟨s₀, h₀, (Run.at_event hrun).1⟩ fun a ha => ?_
    rcases hone a (by rw [List.map_append]; exact List.mem_append_left _ ha) with hth | hth <;> rw [hth]
    · simp
    · simpa using Ne.symm ht
  by_cases ht : tid' = 0
  · have htid : tid = 0 := by
      rcases hone e.act (List.mem_map_of_mem he) with hth | hth <;> rw [hact] at hth
      · cases hth
      · exact Option.some.inj hth
    rw [ht, ← htid, hpc] at hc
    cases hc
  · rw [hothers tid' ht] at hc
    cases hc

def remoteWrite : List Act := wholeOpen (.open 0 1 0) ++ [.call (.awrite 0 64 1), .master {}]

theorem busy_active_has_one_flight_sent : ∃ tr s, Runs quadMailbox tr s ∧ (∀ e ∈ tr, NoOverlap e) ∧
    (s.phys.actives 2).resource.busy = true ∧ ∃! p, PortInFlight quadMailbox s 2 p := by
  obtain ⟨tr, s, hrun, hacts, hbusy⟩ := exists_runs_of_exec quadBoot_boot remoteWrite
    (fun r => (r.2.phys.actives 2).resource.busy = true) (by decide +kernel)
  have hn := noOverlap_of_one_thread hrun (by rw [hacts]; decide)
  exact ⟨tr, s, hrun, hn, hbusy, ((busy_active_has_one_flight hrun hn).1 2).mp hbusy⟩

/-! ### One wait for every operation -/

/-- A thread that has gone through `active_wait` on communicator `c`. -/
def WaitPc.isLeaving (c : ℕ) : WaitPc → Bool
  | .leaving d _ => d == c
  | _ => false

/-- The event of a read or write on communicator `c` that has succeeded. -/
def startsOp (c : ℕ) (e : Event State Act Out) : Bool :=
  match e.act, e.pre.master, e.out.ans with
  | .master _, .operating _ d, some ans => d == c && ans.ret.isOk
  | _, _, _ => false

/-- The event by which a wait gives communicator `c` back: the first section of a wait that
finds the operation finished, or the last section of any other wait. -/
def endsOp (c : ℕ) (e : Event State Act Out) : Bool :=
  match e.act with
  | .wait _ id => decide (id = c) && (e.pre.comms c).resource.busy && !(e.post.comms c).resource.busy
  | .resume tid _ => (e.pre.waits tid).isLeaving c && !(e.post.waits tid).isLeaving c
  | _ => false

/-- An event that starts or ends no operation on a communicator leaves it busy or idle. -/
theorem balance_of_same {c : ℕ} {e : Event State Act Out} (hs : startsOp c e = false)
    (he : endsOp c e = false)
    (hbusy : (e.post.comms c).resource.busy = (e.pre.comms c).resource.busy) :
    (startsOp c e).toNat + (e.pre.comms c).resource.busy.toNat =
      (endsOp c e).toNat + (e.post.comms c).resource.busy.toNat := by
  rw [hs, he, hbusy]

theorem startsOp_of_ans {c : ℕ} {e : Event State Act Out} (h : e.out.ans = none) :
    startsOp c e = false := by
  unfold startsOp
  split
  · rename_i hans
    rw [h] at hans
    cases hans
  · rfl

/-- A communicator is busy from the start of an operation to the end of one wait. -/
theorem Flight.balance {e : Event State Act Out} (h : Flight F e.pre)
    (hs : steps F e.pre e.act e.out e.post) (c : ℕ) :
    (startsOp c e).toNat + (e.pre.comms c).resource.busy.toNat =
      (endsOp c e).toNat + (e.post.comms c).resource.busy.toNat := by
  obtain ⟨s, act, o, t⟩ := e
  dsimp only at h hs ⊢
  cases steps_cases hs with
  | quiet _ _ hans =>
    refine balance_of_same (startsOp_of_ans hans) ?_ rfl
    cases act <;> simp [endsOp]
  | opened | exhausted | counted | rolledBack => exact balance_of_same (startsOp_of_ans rfl) rfl rfl
  | @allocated ty cfg id env hpc hid hfree =>
    refine balance_of_same (startsOp_of_ans rfl) rfl ?_
    by_cases hc : c = id
    · subst hc
      have hidle : (s.comms c).resource.busy = false := by
        by_contra hb
        rw [(h.tidy c).1 (by simpa using hb)] at hfree
        cases hfree
      simp [hidle, Communicator.fresh]
    · simp [update_of_ne hc]
  | @freed call id ty ph hidle hcall hid hused hfits hbusy hv ho =>
    refine balance_of_same rfl rfl ?_
    by_cases hc : c = id <;> simp [hc]
  | @granted id rem port hidle hkind hid hused hread hall =>
    refine balance_of_same rfl rfl ?_
    by_cases hc : c = id <;> simp [hc]
  | @noted call id buffer size ty pc hidle hcall hid hsize hmax hpc =>
    refine balance_of_same rfl rfl ?_
    by_cases hc : c = id <;> simp [hc, State.note]
  | @remoteSet id node port hidle hid hused hbusy =>
    refine balance_of_same rfl rfl ?_
    by_cases hc : c = id <;> simp [hc]
  | @allowed id env hpc =>
    refine balance_of_same (startsOp_of_ans rfl) rfl ?_
    by_cases hc : c = id <;> simp [hc]
  | denied env e hpc => exact balance_of_same (startsOp_of_ans rfl) rfl rfl
  | failed hpc hused hfits hbusy ho hret =>
    refine balance_of_same ?_ rfl rfl
    simp [startsOp, hpc, hret, Except.isOk, Except.toBool]
  | @operated ty id env ans ph status hpc hused hfits hbusy ho hret =>
    by_cases hc : c = id
    · subst hc
      simp [startsOp, endsOp, hpc, hret, hbusy, Except.isOk, Except.toBool, Communicator.operated]
    · refine balance_of_same ?_ rfl ?_
      · simp [startsOp, hpc, Ne.symm hc]
      · simp [update_of_ne hc]
  | checked => refine balance_of_same rfl ?_ rfl; simp [endsOp]
  | @collected tid id o pc hpc hid hused hbusy hfin hans hnext =>
    by_cases hc : c = id
    · subst hc
      simp [startsOp, endsOp, hbusy, Communicator.released]
    · refine balance_of_same rfl ?_ ?_
      · have hne : (id : ℤ) ≠ c := by exact_mod_cast Ne.symm hc
        simp [endsOp, hne]
      · simp [update_of_ne hc]
  | rejected env hpc hcheck => refine balance_of_same rfl ?_ rfl; simp [endsOp, hpc, WaitPc.isLeaving]
  | entered env hpc hcheck => refine balance_of_same rfl ?_ rfl; simp [endsOp, hpc, WaitPc.isLeaving]
  | woken env hpc => refine balance_of_same rfl ?_ rfl; simp [endsOp, hpc, WaitPc.isLeaving]
  | @completed tid id k fd m ret ans ph env hpc hget ho =>
    refine balance_of_same rfl ?_ ?_
    · simp [endsOp, hpc, WaitPc.isLeaving]
    · by_cases hc : c = id <;> simp [hc]
  | @left tid id ret o env hpc hret hans =>
    have hp := h.placed tid
    rw [hpc] at hp
    by_cases hc : c = id
    · subst hc
      simp [startsOp, endsOp, hpc, hp.2.1, WaitPc.isLeaving, Communicator.released]
    · refine balance_of_same rfl ?_ ?_
      · simp [endsOp, hpc, WaitPc.isLeaving, Ne.symm hc]
      · simp [update_of_ne hc]
  | @succeeded tid id o pc env hpc hans hnext =>
    have hp := h.placed tid
    rw [hpc] at hp
    have hpc' : pc.isLeaving c = false := by rcases hnext with rfl | rfl <;> rfl
    by_cases hc : c = id
    · subst hc
      have hat : (s.waits tid).isLeaving c = true := by rw [hpc]; simp [WaitPc.isLeaving]
      simp [startsOp, endsOp, hat, hp.2.1, hpc', Communicator.released]
    · refine balance_of_same rfl ?_ ?_
      · simp [endsOp, hpc, WaitPc.isLeaving, Ne.symm hc]
      · simp [update_of_ne hc]
  | @reset tid id env hpc cfg hcfg =>
    refine balance_of_same rfl ?_ ?_
    · simp [endsOp, hpc, WaitPc.isLeaving]
    · by_cases hc : c = id <;> simp [hc]

/-- Over a run, every operation but the one under way has been ended by one wait. -/
theorem ops_balanced {s₀ : State} {tr : List (Event State Act Out)} (h₀ : Flight F s₀)
    (hrun : Run (steps F) s₀ tr s) (hn : ∀ e ∈ tr, NoOverlap e) (c : ℕ)
    (hidle : (s₀.comms c).resource.busy = false) :
    tr.countP (startsOp c) = tr.countP (endsOp c) + (s.comms c).resource.busy.toNat := by
  induction hrun with
  | nil => simp [hidle]
  | @snoc tr t a o u hr hs ih =>
    have hn' : ∀ e ∈ tr, NoOverlap e := fun e he => hn e (List.mem_append_left _ he)
    have ht : Flight F t := hr.invariant h₀ hn' fun e hs hn hi => hi.step hs hn
    have hb := ht.balance (e := ⟨t, a, o, u⟩) hs c
    have := ih hn'
    simp only [List.countP_append, List.countP_singleton]
    cases hst : startsOp c ⟨t, a, o, u⟩ <;> cases hen : endsOp c ⟨t, a, o, u⟩ <;>
      simp only [hst, hen, Bool.toNat_true, Bool.toNat_false] at hb ⊢ <;> simp <;> omega

/-! ### One release for every loan -/

variable {ans : Answer} {ret : ℤ}

/-- The end of `active_wait` releases the mbuffer it is called with. -/
theorem WaitOutcome.released {u : Phys} (hused : (ph.mbuffers k).resource.used = true)
    (ho : WaitOutcome F ph a p k ret cfg ans u) :
    (u.mbuffers k).resource.used = false ∨ (u.mbuffers k).kept = true := by
  have hdrop : ∀ (v : Phys) (keep : Bool), (v.mbuffers k).resource.used = true →
      ((v.dropMbuffer k keep).mbuffers k).resource.used = false ∨
        ((v.dropMbuffer k keep).mbuffers k).kept = true := by
    intro v keep hv
    unfold Phys.dropMbuffer
    rw [if_pos hv]
    cases keep with
    | false => left; simp [Phys.releaseMbuffer, Mbuffer.discarded]
    | true => right; simp [Phys.releaseMbuffer, Mbuffer.kept, hv]
  have hlat : ∀ l, ((ph.addLatency k l).mbuffers k).resource.used = true := fun l => by
    simpa [Phys.addLatency] using hused
  cases ho with
  | failed hret => exact hdrop ph false hused
  | consumed hret hread hcheck l l' => exact hdrop _ false (hlat l)
  | ignored hret hread hcheck keep hkeep l => exact hdrop _ keep (hlat l)
  | written hret hwrite hturn l => exact hdrop ((ph.addLatency k l).complete a p) false (hlat l)
  | plain hret hread hwrite l => exact hdrop _ false (hlat l)

/-- The last section of `active_wait` on a communicator of active `a` has ended the loan
of mbuffer `k` and released it. -/
def EndsLoan (F : Facility) (a k : ℕ) (e : Event State Act Out) : Prop :=
  ∃ tid env c fd m ret, e.act = .resume tid env ∧ e.pre.waits tid = .woken c fd m ret ∧
    (portOf F fd).1 = a ∧ e.post.phys.lent a = none ∧
    ((e.post.phys.mbuffers k).resource.used = false ∨ (e.post.phys.mbuffers k).kept = true)

/-- A successful read or write on a communicator of active `a` has begun a loan. -/
def BeginsLoan (F : Facility) (a : ℕ) (e : Event State Act Out) : Prop :=
  ∃ c, startsOp c e = true ∧ (portOf F (e.pre.comms c).config.fd).1 = a

/-- What an event can do to the loan of an active. -/
theorem Flight.loan_step {e : Event State Act Out} (h : Flight F e.pre)
    (hs : steps F e.pre e.act e.out e.post) (a : ℕ) :
    e.post.phys.lent a = e.pre.phys.lent a ∨
      (∃ k, e.pre.phys.lent a = some k ∧ EndsLoan F a k e) ∨
      (e.pre.phys.lent a = none ∧ BeginsLoan F a e) := by
  obtain ⟨s, act, o, t⟩ := e
  dsimp only at h hs ⊢
  cases steps_cases hs with
  | opened hidle hcall hlocal hport hrem ho => cases ho; exact .inl rfl
  | rolledBack env hpc hv ho => cases ho; exact .inl rfl
  | freed hidle hcall hid hused hfits hbusy hv ho => cases ho; exact .inl rfl
  | failed hpc hused hfits hbusy ho hret =>
    obtain ⟨-, -, hst⟩ := h.operate hpc hused hfits ho
    exact .inl (congrFun (hst.other (by simp [hret])) a)
  | @operated ty id env ans ph status hpc hused hfits hbusy ho hret =>
    obtain ⟨-, -, hst⟩ := h.operate hpc hused hfits ho
    by_cases hok : status = .success
    · obtain ⟨hnone, -, hother⟩ := hst.success (by rw [hret, hok])
      by_cases ha : a = (portOf F (s.comms id).config.fd).1
      · refine .inr (.inr ⟨by rw [ha]; exact hnone, id, ?_, ha.symm⟩)
        simp [startsOp, hpc, hret, Except.isOk, Except.toBool]
      · exact .inl (hother a ha)
    · exact .inl (congrFun (hst.other (by simp [hret, hok])) a)
  | woken env hpc => exact .inl (congrFun hwWait_lent a)
  | @completed tid id k fd m ret ans ph env hpc hget ho =>
    obtain ⟨-, -, hk⟩ := h.woken_loan hpc hget
    obtain ⟨-, hlent, -⟩ := h.wired.wait hk ho
    by_cases ha : a = (portOf F fd).1
    · subst ha
      refine .inr (.inl ⟨k, hk.lent, tid, env, id, fd, m, ret, rfl, hpc, rfl, ?_, ?_⟩)
      · change ph.lent _ = none
        rw [hlent, update_self]
      · exact ho.released (h.owned.lent _ k hk.lent).1
    · refine .inl ?_
      change ph.lent a = _
      rw [hlent, update_of_ne ha]
  | _ => exact .inl rfl

/-- While waits do not overlap: no assertion fails, every operation that a read or write has
started is ended by one wait, and an mbuffer lent to the hardware stays in use until the
wait of its operation releases it. -/
theorem operations_complete_once {tr : List (Event State Act Out)} (h : Runs F tr s)
    (hn : ∀ e ∈ tr, NoOverlap e) :
    (∀ act, step F s act ≠ .error .kassert) ∧
      (∀ c, tr.countP (startsOp c) = tr.countP (endsOp c) + (s.comms c).resource.busy.toNat) ∧
      ∀ e ∈ tr, ∀ a, (∀ k, e.pre.phys.lent a = some k →
          (e.pre.phys.mbuffers k).resource.used = true ∧ (e.pre.phys.mbuffers k).kept = false ∧
          (e.post.phys.lent a = some k ∨ EndsLoan F a k e)) ∧
        (e.pre.phys.lent a = none → e.post.phys.lent a ≠ none → BeginsLoan F a e) := by
  obtain ⟨s₀, h₀, hrun⟩ := h
  have hinit := flight_init h₀
  have hidle : ∀ c, (s₀.comms c).resource.busy = false := by
    obtain ⟨ph, -, rfl⟩ := h₀
    exact fun _ => rfl
  refine ⟨(flight_runs ⟨s₀, h₀, hrun⟩ hn).no_kassert, fun c => ops_balanced hinit hrun hn c (hidle c),
    fun e he a => ?_⟩
  obtain ⟨hpre, hs⟩ := flight_event ⟨s₀, h₀, hrun⟩ hn he
  have hstep := hpre.loan_step hs a
  refine ⟨fun k hk => ?_, fun hnone hsome => ?_⟩
  · obtain ⟨hused, hbusy, -⟩ := hpre.owned.lent a k hk
    refine ⟨hused, by simp [Mbuffer.kept, hbusy], ?_⟩
    rcases hstep with hsame | ⟨j, hj, hends⟩ | ⟨hnone, -⟩
    · exact .inl (hsame.trans hk)
    · obtain rfl := Option.some.inj (hj.symm.trans hk)
      exact .inr hends
    · rw [hk] at hnone
      cases hnone
  · rcases hstep with hsame | ⟨j, hj, -⟩ | ⟨-, hbegins⟩
    · exact absurd (hsame.trans hnone) hsome
    · rw [hj] at hnone
      cases hnone
    · exact hbegins

def wholeWait (tid : ℕ) : List Act :=
  [.wait tid 0, .resume tid {}, .resume tid {}, .resume tid {}, .resume tid {}, .resume tid {}]

theorem operations_complete_once_written : ∃ tr s, Runs quadMailbox tr s ∧
    (∀ e ∈ tr, NoOverlap e) ∧ tr.countP (startsOp 0) = 1 ∧ tr.countP (endsOp 0) = 1 := by
  obtain ⟨tr, s, hrun, hacts, hstart, hidle⟩ := exists_runs_of_exec quadBoot_boot
    (remoteWrite ++ wholeWait 0)
    (fun r => r.1.countP (startsOp 0) = 1 ∧ (r.2.comms 0).resource.busy = false) (by decide +kernel)
  have hn := noOverlap_of_one_thread hrun (by rw [hacts]; decide)
  refine ⟨tr, s, hrun, hn, hstart, ?_⟩
  have hbal := (operations_complete_once hrun hn).2.1 0
  dsimp only at hstart hidle
  rw [hstart, hidle] at hbal
  exact hbal.symm

/-- Two threads wait for one write; the first one is done before the second one comes back
from the hardware. -/
def overlappingWaits : List Act :=
  remoteWrite ++ [.wait 0 0, .resume 0 {}, .wait 1 0, .resume 1 {}, .resume 0 {}, .resume 0 {},
    .resume 1 {}]

/-- The second thread finds the port without a pool. -/
theorem overlapping_waits_fail_assertion : ∃ tr s, Runs quadMailbox tr s ∧
    tr.map (·.act) = overlappingWaits ∧
    (s.phys.ports (portOf quadMailbox (s.comms 0).config.fd)).mbufferpool = none ∧
    step quadMailbox s (.resume 1 {}) = .error .kassert := by
  obtain ⟨tr, s, hrun, hacts, hpool, hfail⟩ := exists_runs_of_exec quadBoot_boot overlappingWaits
    (fun r => (r.2.phys.ports (portOf quadMailbox (r.2.comms 0).config.fd)).mbufferpool = none ∧
      (match step quadMailbox r.2 (.resume 1 {}) with
        | .error e => some e
        | .ok _ => none) = some .kassert) (by decide +kernel)
  refine ⟨tr, s, hrun, hacts, hpool, ?_⟩
  dsimp only at hfail
  cases hstep : step quadMailbox s (.resume 1 {}) with
  | error e =>
    rw [hstep] at hfail
    rw [Option.some.inj hfail]
  | ok r =>
    rw [hstep] at hfail
    cases hfail

end Nanvix.Noc
