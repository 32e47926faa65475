import Nanvix.Noc.Aim
import Nanvix.Noc.Delivery

/-! Finding the input active. A read notes the peer it names in the remote of the input active, and
only its last step takes it back: a read that finds no free mbuffer, or that the hardware refuses,
leaves the peer there. `active_search` looks for the remote -1, so that from then on no mailbox and
no portal can be created until another read gets through. -/

namespace Nanvix.Noc

open Nanvix.Lib

/-- A read on the port of `cfg` that names a peer goes to the hardware and does not get through. -/
structure Strands (F : Facility) (s : Phys) (cfg : Config) (env : Env) : Prop where
  port : (s.ports (portOf F cfg.fd)).resource.used = true
  none_stored : mbufferSearch F (readPool F cfg.remoteAddr) cfg.localAddr cfg.remoteAddr s = none
  distant : F.nodeIsLocal (getActid F cfg.remoteAddr) = false
  idle : (s.actives (portOf F cfg.fd).1).resource.busy = false
  allowed : doAllow F (s.actives (portOf F cfg.fd).1) (getActid F cfg.remoteAddr) env = .ok ()
  peer : getActid F cfg.remoteAddr ≠ -1
  fails : (∀ k < F.mbufferMax, (s.mbuffers k).resource.used = true) ∨ env.hwRet < 0

/-- The event is the last section of such a read. -/
def StrandsPeer (F : Facility) (e : Event State Act Out) : Prop :=
  ∃ env c, e.act = .master env ∧ e.pre.master = .operating .input c ∧
    (e.pre.comms c).resource.used = true ∧ (e.pre.comms c).resource.isReadable = true ∧
    (e.pre.comms c).allowed = true ∧ (e.pre.comms c).resource.busy = false ∧
    Strands F e.pre.phys (e.pre.comms c).config env

variable {F : Facility} {s t u : Phys} {a p k : ℕ} {cfg : Config} {env : Env} {ans : Answer}

/-! ### Remotes -/

theorem SubmitOutcome.remote (ho : SubmitOutcome s a p k ans t) (b : ℕ) :
    (t.actives b).remote = (s.actives b).remote := by
  have hreg : ∀ {u : Phys}, Registered s a p u → (u.actives b).remote = (s.actives b).remote := by
    intro u hr
    cases hr with
    | already => rfl
    | now => simp
  cases ho with
  | full => rfl
  | waiting hr => exact hreg hr
  | sent hr hturn hidle l => rw [lend_remote, hreg hr]

theorem AwriteOutcome.remote (ho : AwriteOutcome F s a p cfg env ans t) (b : ℕ) :
    (t.actives b).remote = (s.actives b).remote := by
  cases ho with
  | refused => rfl
  | starved | forwarded => simp
  | fresh k hport hremote hdet hk hfree hsub => exact hsub.remote b
  | retried k hport hatt hget hsub => exact hsub.remote b

theorem WaitOutcome.remote {ret : ℤ} (ho : WaitOutcome F s a p k ret cfg ans t) (b : ℕ) :
    (t.actives b).remote = (s.actives b).remote := by
  cases ho <;> simp

theorem areadStored_remote {P : Pool} {i : ℕ} (h : areadStored F s P i cfg env = some (ans, t)) (b : ℕ) :
    (t.actives b).remote = (s.actives b).remote := by
  unfold areadStored at h
  split at h
  · cases h
  dsimp only at h
  split at h
  · cases h
  rename_i u hclear
  have hu := clearSender_remote hclear b
  split at h
  · rename_i v hrel
    cases h
    unfold mbufferRelease at hrel
    split at hrel
    · cases hrel
    split at hrel
    · cases hrel
      simpa using hu
    · cases hrel
  · cases h

/-- The second half of a read gives the remote of its active back unless it fails there. -/
theorem areadSubmit_remote {remote : ℤ} (h : areadSubmit F s a p remote env = some (ans, t))
    (hpre : (s.actives a).remote = -1) :
    (t.actives a).remote ≠ -1 ↔ (s.actives a).resource.busy = false ∧
      doAllow F (s.actives a) remote env = .ok () ∧ remote ≠ -1 ∧
      ((∀ k < F.mbufferMax, (s.mbuffers k).resource.used = true) ∨ env.hwRet < 0) := by
  unfold areadSubmit at h
  dsimp only at h
  split at h
  · rename_i hbusy
    cases h
    simp [hpre, hbusy]
  rename_i hbusy
  have hidle : (s.actives a).resource.busy = false := by simpa using hbusy
  split at h
  · rename_i e hallow
    cases h
    simp [hpre, hallow]
  rename_i hallow
  have hrest : ∀ {Q : Prop}, ((s.actives a).resource.busy = false ∧
      doAllow F (s.actives a) remote env = .ok () ∧ remote ≠ -1 ∧ Q) ↔ remote ≠ -1 ∧ Q := by
    simp [hidle, hallow]
  rw [hrest]
  split at h
  · rename_i hal
    obtain ⟨-, rfl, hfull⟩ := mbufferAlloc_error hal
    cases h
    simp only [Pool.base, Pool.nmbuffers, Nat.zero_add] at hfull
    have hrem : ((s.allow a remote).actives a).remote = remote := by simp [Phys.allow]
    rw [hrem]
    exact ⟨fun hne => ⟨hne, .inl hfull⟩, And.left⟩
  rename_i k u hal
  obtain ⟨hk, hfree, rfl⟩ := mbufferAlloc_ok hal
  simp only [Pool.base, Pool.nmbuffers, Nat.zero_add] at hk hfree h
  have hsome : ¬ ∀ k < F.mbufferMax, (s.mbuffers k).resource.used = true := by
    intro hfull
    have hused : (s.mbuffers k).resource.used = false := hfree
    rw [hfull k hk] at hused
    cases hused
  split at h
  · rename_i hhw
    split at h
    · rename_i hrel
      simp only [mbufferRelease, mbufferGet_principal hk] at hrel
      split at hrel
      · cases hrel
        cases h
        simp [Phys.detach, Phys.attach, Phys.allow, hhw]
      · cases hrel
    · cases h
  · rename_i hhw
    cases h
    have hrem : (((((s.allow a remote).setMbuffer k (s.mbuffers k).allocated).attach (a, p) k).disallow
        a).actives a).remote = -1 := by simp [Phys.disallow]
    simp [hrem, hsome, hhw]

/-- A read gives the remote of its active back exactly if it does not strand. -/
theorem activeAread_remote (h : activeAread F s cfg.fd cfg env = some (ans, t))
    (hpre : (s.actives (portOf F cfg.fd).1).remote = -1) :
    (t.actives (portOf F cfg.fd).1).remote = -1 ↔ ¬ Strands F s cfg env := by
  unfold activeAread at h
  split at h
  · cases h
  dsimp only at h
  split at h
  · rename_i hport
    cases h
    refine iff_of_true hpre fun hst => ?_
    simp [hst.port] at hport
  rename_i hport
  split at h
  · rename_i i hfound
    refine iff_of_true (by rw [areadStored_remote h, hpre]) fun hst => ?_
    have hnone := hst.none_stored
    unfold readPool at hnone
    rw [hnone] at hfound
    cases hfound
  rename_i hnone
  split at h
  · rename_i hlocal
    cases h
    refine iff_of_true hpre fun hst => ?_
    rw [hst.distant] at hlocal
    cases hlocal
  rename_i hlocal
  rw [← not_iff_not, not_not]
  refine (areadSubmit_remote h hpre).trans ⟨?_, ?_⟩
  · rintro ⟨hidle, hallow, hpeer, hfails⟩
    exact ⟨by simpa using hport, hnone, by simpa using hlocal, hidle, hallow, hpeer, hfails⟩
  · exact fun hst => ⟨hst.idle, hst.allowed, hst.peer, hst.fails⟩

/-! ### Runs -/

section Runs
variable {s : State} {tr : List (Event State Act Out)} {e : Event State Act Out} {ty : CommType} {c : ℕ}

/-- A read that passes the checks of `communicator_operate` makes its call. -/
theorem aread_of_operating (hs : steps F e.pre e.act e.out e.post) (haim : Aimed F e.pre)
    (hact : e.act = .master env) (hpc : e.pre.master = .operating .input c)
    (hused : (e.pre.comms c).resource.used = true) (hread : (e.pre.comms c).resource.isReadable = true)
    (hall : (e.pre.comms c).allowed = true) (hbusy : (e.pre.comms c).resource.busy = false) :
    ∃ ans, activeAread F e.pre.phys (e.pre.comms c).config.fd (e.pre.comms c).config env =
      some (ans, e.post.phys) := by
  obtain ⟨s, act, o, t⟩ := e
  dsimp only at *
  subst hact
  have hdo : s.doComm = .input := haim.dispatched.eq hpc
  have h : communicatorOperate F { s with master := .idle } c .input env = .ok (o, t) := by
    have hm : masterStep F s env = .ok (o, t) := hs
    rwa [masterStep, hpc] at hm
  simp only [communicatorOperate, hused, Communicator.fits, hread, hall, hbusy, Bool.not_true,
    Bool.false_eq_true, if_false, Bool.and_false, doComm, hdo] at h
  split at h
  · cases h
  rename_i ans ph hcall
  refine ⟨ans, ?_⟩
  split at h <;>
  · cases h
    exact hcall

/-- The port of an input communicator is on the input active. -/
theorem Accounts.input_port (h : Accounts F s) (hu : (s.comms c).resource.used = true)
    (hr : (s.comms c).resource.isReadable = true) : (portOf F (s.comms c).config.fd).1 = 0 := by
  obtain ⟨-, ty, a, p, hfits, hb, -⟩ := h.comm c hu
  obtain rfl : ty = .input := fits_unique hfits hr
  rw [hb.portOf_eq]
  exact hb.input_iff.mp rfl

/-- A stranded peer is still there after the event. -/
theorem StrandsPeer.remote (h : StrandsPeer F e) (hs : steps F e.pre e.act e.out e.post)
    (hacc : Accounts F e.pre) (haim : Aimed F e.pre) (hpre : (e.pre.phys.actives 0).remote = -1) :
    (e.post.phys.actives 0).remote ≠ -1 := by
  obtain ⟨env, c, hact, hpc, hused, hread, hall, hbusy, hst⟩ := h
  obtain ⟨ans, hcall⟩ := aread_of_operating hs haim hact hpc hused hread hall hbusy
  have hport := hacc.input_port hused hread
  have hiff := activeAread_remote hcall (by rw [hport]; exact hpre)
  rw [hport] at hiff
  exact fun hpost => hiff.mp hpost hst

/-- The remote of the input active stays -1 in every step that strands no peer. -/
theorem remote_of_step (hs : steps F e.pre e.act e.out e.post) (hacc : Accounts F e.pre)
    (haim : Aimed F e.pre) (hno : ¬ StrandsPeer F e) (hpre : (e.pre.phys.actives 0).remote = -1) :
    (e.post.phys.actives 0).remote = -1 := by
  -- the call that `communicator_operate` makes
  have hop : ∀ {ty c env ans}, Operates ty c env ans e → (e.pre.comms c).resource.used = true →
      (e.pre.comms c).fits ty = true → CommOutcome F e.pre (e.pre.comms c).config env e.pre.doComm ans
        e.post.phys → (e.post.phys.actives 0).remote = -1 := by
    intro ty c env ans hop hused hfits ho
    have hdo : e.pre.doComm = ty := haim.dispatched.eq hop.master
    obtain ⟨hall, hbusy, hcall⟩ := hop.call hs
    rw [hdo] at ho
    cases ho with
    | aread hv ho =>
      have hport := hacc.input_port hused hfits
      rw [doComm, hdo] at hcall
      have hiff := activeAread_remote hcall (by rw [hport]; exact hpre)
      rw [hport] at hiff
      exact hiff.mpr fun hst => hno ⟨env, c, hop.act, hop.master, hused, hfits, hall rfl, hbusy, hst⟩
    | awrite hv ho => rw [ho.remote, hpre]
  obtain ⟨s, act, o, t⟩ := e
  dsimp only at hs hpre hop ⊢
  cases steps_cases hs with
  | opened hidle hcall hlocal hport hrem ho => cases ho; simpa using hpre
  | rolledBack env hpc hv ho => cases ho; simpa using hpre
  | freed hidle hcall hid hused hfits hbusy hv ho => cases ho; simpa using hpre
  | failed hpc hused hfits hbusy ho hret => exact hop ⟨rfl, hpc, rfl⟩ hused hfits ho
  | operated hpc hused hfits hbusy ho hret => exact hop ⟨rfl, hpc, rfl⟩ hused hfits ho
  | woken => simpa using hpre
  | completed env hpc hget ho => simpa using (ho.remote 0).trans hpre
  | _ => exact hpre

/-- A run without such reads keeps the remote at -1, and a run with one does not. -/
theorem remote_iff (h : Runs F tr s) :
    (∀ e ∈ tr, (e.post.phys.actives 0).remote = -1) ↔ ∀ e ∈ tr, ¬ StrandsPeer F e := by
  have hinv : ∀ e ∈ tr, Accounts F e.pre ∧ Aimed F e.pre := by
    intro e he
    obtain ⟨s₀, h₀, hrun⟩ := h
    obtain ⟨l, r, rfl⟩ := List.append_of_mem he
    have hpre : Runs F l e.pre := ⟨s₀, h₀, hrun.at_event.1⟩
    exact ⟨accounts_runs hpre, aimed_runs hpre⟩
  obtain ⟨s₀, h₀, hrun⟩ := h
  have hinit : (s₀.phys.actives 0).remote = -1 := by
    obtain ⟨ph, hb, rfl⟩ := h₀
    obtain ⟨hwfd, c, rfl⟩ := hb.eq_bootState
    rfl
  constructor
  · intro hall e he hst
    have hpre : (e.pre.phys.actives 0).remote = -1 := by
      obtain ⟨l, r, rfl⟩ := List.append_of_mem he
      rcases hrun.at_event.1.eq_or_exists_post with heq | ⟨x, hx, heq⟩
      · rw [heq, hinit]
      · rw [← heq]
        exact hall x (by simp [hx])
    exact hst.remote (hrun.step_of_mem he) (hinv e he).1 (hinv e he).2 hpre (hall e he)
  · intro hno
    have hP : ∀ e ∈ tr, Accounts F e.pre ∧ Aimed F e.pre ∧ ¬ StrandsPeer F e := fun e he =>
      ⟨(hinv e he).1, (hinv e he).2, hno e he⟩
    exact fun e he => (hrun.invariant_of_mem (I := fun s => (s.phys.actives 0).remote = -1) hinit hP
      (fun e hs hP hi => remote_of_step hs hP.1 hP.2.1 hP.2.2 hi) he).2

/-- With the remote at -1, `active_search` finds the input active of the node. -/
theorem activeSearch_input {ph : Phys} (hset : Setup F ph) (hrem : (ph.actives 0).remote = -1) :
    activeSearch F ph F.node (-1) .input = .ok 0 := by
  have hused : (ph.actives 0).resource.used = true := hset.used_iff.mpr (Nat.zero_le _)
  have hread : (ph.actives 0).resource.isReadable = true := hset.readable_iff.mpr rfl
  have hmatch : activeMatches (ph.actives 0) F.node (-1) .input = true := by
    simp [activeMatches, hused, hread, hset.localNode hused, hrem]
  have hpos : 0 < F.hwMax := Nat.zero_lt_of_lt F.nodesNum_lt
  have hfind : (List.range F.hwMax).find? (fun i => activeMatches (ph.actives i) F.node (-1) .input) =
      some 0 := List.find?_range_eq_some.mpr ⟨hmatch, List.mem_range.mpr hpos, fun j hj => by omega⟩
  simp [activeSearch, hfind]

def Refuses (F : Facility) (s : State) (a : Act) : Prop :=
  ∃ o t, step F s a = .ok (o, t) ∧ o.ret = some (.error .EBUSY)

/-- The master core is past the first section of a create or open call. -/
def MasterPc.creating : MasterPc → Bool
  | .opened .. | .counting .. | .rollback .. => true
  | _ => false

/-- A free port of the node is taken by the first section of a create call. -/
theorem create_not_refused {port : ℤ} (hset : Setup F s.phys) (hrem : (s.phys.actives 0).remote = -1)
    (hfree : (s.phys.ports (0, port.toNat)).resource.used = false) :
    ¬ Refuses F s (.call (.create F.node port)) := by
  rintro ⟨o, t, hstep, hret⟩
  unfold step at hstep
  dsimp only at hstep
  split at hstep
  · unfold kernelCall kernelCreate at hstep
    dsimp only at hstep
    split at hstep
    · cases hstep; cases hret
    split at hstep
    · cases hstep; cases hret
    rename_i hport
    simp only [validPort, Bool.not_eq_true', Bool.not_eq_false, decide_eq_true_eq] at hport
    split at hstep
    · cases hstep
      cases hk : F.kind <;> simp [hk] at hret
    · simp only [doVAlloc, activeAlloc, activeSearch_input hset hrem, choosePort, if_pos hport, hfree,
        Bool.false_eq_true, if_false] at hstep
      cases hstep
      cases hret
  · cases hstep
    cases hret

/-- The later sections of a create call give it a communicator or answer that there is none. -/
theorem creating_not_refused (hpc : s.master.creating = true) (env : Env) :
    ¬ Refuses F s (.master env) := by
  rintro ⟨o, t, hstep, hret⟩
  change masterStep F s env = .ok (o, t) at hstep
  unfold masterStep at hstep
  cases hm : s.master with
  | idle | allowing | operating => simp [hm, MasterPc.creating] at hpc
  | opened ty cfg =>
    simp only [hm] at hstep
    split at hstep <;>
    · cases hstep
      cases hret
  | counting ty id =>
    simp only [hm] at hstep
    cases hstep
    cases hret
  | rollback ty fd =>
    simp only [hm] at hstep
    split at hstep
    · cases hstep
    · cases hstep
    · cases hstep
      cases hret

end Runs

/-- The remote of the input active is -1 in every state of a run exactly if no read of the run strands
the peer it names. While it is -1, `active_search` finds the active, and no create call on a free port
of the node is refused with `-EBUSY`. -/
theorem input_active_found_iff {tr : List (Event State Act Out)} {s : State} (h : Runs F tr s) :
    ((∀ e ∈ tr, (e.post.phys.actives 0).remote = -1) ↔ ∀ e ∈ tr, ¬ StrandsPeer F e) ∧
    ((s.phys.actives 0).remote = -1 → activeSearch F s.phys F.node (-1) .input = .ok 0 ∧
      (∀ port : ℤ, (s.phys.ports (0, port.toNat)).resource.used = false →
        ¬ Refuses F s (.call (.create F.node port))) ∧
      (s.master.creating = true → ∀ env, ¬ Refuses F s (.master env))) := by
  refine ⟨remote_iff h, fun hrem => ?_⟩
  have hset := (accounts_runs h).setup
  exact ⟨activeSearch_input hset hrem, fun port hfree => create_not_refused hset hrem hfree,
    creating_not_refused⟩

/-- A mailbox is created, is to read from port 2 of node 1 only, and reads. -/
def filteredRead (env : Env) : List Act :=
  wholeOpen (.create 0 3) ++ [.call (.ioctl 0 (some (.setRemote 1 2))), .call (.aread 0 64 1),
    .master {}, .master env]

/-- The hardware takes the read: another mailbox can be created. -/
theorem input_active_found_iff_taken : ∃ tr s, Runs quadMailbox tr s ∧
    tr.map (·.act) = filteredRead {} ∧ (∀ e ∈ tr, ¬ StrandsPeer quadMailbox e) ∧
    (s.phys.ports (0, 4)).resource.used = false ∧ ¬ Refuses quadMailbox s (.call (.create 0 4)) := by
  obtain ⟨tr, s, hrun, hacts, hall, hrem, hfree⟩ := exists_runs_of_exec quadBoot_boot (filteredRead {})
    (fun r => (∀ e ∈ r.1, (e.post.phys.actives 0).remote = -1) ∧ (r.2.phys.actives 0).remote = -1 ∧
      (r.2.phys.ports (0, 4)).resource.used = false) (by decide +kernel)
  obtain ⟨hiff, hfound⟩ := input_active_found_iff hrun
  exact ⟨tr, s, hrun, hacts, hiff.mp hall, hfree, (hfound hrem).2.1 4 hfree⟩

/-- The hardware refuses the read: its peer stays in the active, and a mailbox on a free port cannot
be created any more. -/
theorem not_input_active_found : ∃ tr s, Runs quadMailbox tr s ∧
    tr.map (·.act) = filteredRead { hwRet := -5 } ∧ (s.phys.actives 0).remote = 1 ∧
    activeSearch quadMailbox s.phys 0 (-1) .input = .error .EBUSY ∧
    (s.phys.ports (0, 4)).resource.used = false ∧ Refuses quadMailbox s (.call (.create 0 4)) := by
  obtain ⟨tr, s, hrun, hacts, hrem, hsearch, hfree, hany⟩ := exists_runs_of_exec quadBoot_boot
    (filteredRead { hwRet := -5 })
    (fun r => (r.2.phys.actives 0).remote = 1 ∧
      activeSearch quadMailbox r.2.phys 0 (-1) .input = .error .EBUSY ∧
      (r.2.phys.ports (0, 4)).resource.used = false ∧
      ((step quadMailbox r.2 (.call (.create 0 4))).toOption.any fun x =>
        decide (x.1.ret = some (.error .EBUSY))) = true) (by decide +kernel)
  obtain ⟨⟨o, t⟩, hstep, hret⟩ := (Option.any_eq_true _ _).mp hany
  exact ⟨tr, s, hrun, hacts, hrem, hsearch, hfree, o, t, steps_of_toOption hstep, of_decide_eq_true hret⟩

end Nanvix.Noc
