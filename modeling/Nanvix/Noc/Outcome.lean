import Nanvix.Noc.Active

/-! What each call on an active can do. Every call gets one relation whose
constructors are the ways it ends, with the guards met on the way and the state
it leaves behind written with the named updates; the invariants of the facility
are proved over these relations and never unfold the calls. -/

namespace Nanvix.Noc

section Outcomes
variable (F : Facility) (s : Phys)

inductive AllocOutcome (loc rem portid : ℤ) (ty : CommType) : Except Err ℤ → Phys → Prop
  | refused (e : Err) : AllocOutcome loc rem portid ty (.error e) s
  | opened {a p : ℕ} (ha : a < F.hwMax) (hmatch : activeMatches (s.actives a) loc rem ty = true)
      (hp : p < F.portNr) (hin : ty = .input → portid = p)
      (hfree : (s.ports (a, p)).resource.used = false) :
      AllocOutcome loc rem portid ty (.ok (laddressCompose F a p)) (s.openPort a p)

inductive ReleaseOutcome (a p : ℕ) : Except Err Unit → Phys → Prop
  | refused (e : Err) : ReleaseOutcome a p (.error e) s
  | closed (hact : (s.actives a).resource.used = true)
      (hport : (s.ports (a, p)).resource.used = true)
      (hempty : (s.actives a).resource.isReadable = true →
        mbufferSearch F .principal (laddressCompose F (s.actives a).localNode p) (-1) s = none) :
      ReleaseOutcome a p (.ok ()) (s.closePort a p)

/-- The pool that a reader with the given filter searches. -/
def readPool (remoteAddr : ℤ) : Pool :=
  if F.nodeIsLocal (getActid F remoteAddr) then .aux else .principal

/-- The answer of a read that found entry `k` stored. -/
def storedAnswer (k : ℕ) (cfg : Config) (env : Env) : Answer where
  ret := .ok .received
  stats := ⟨cfg.size,
    (s.mbuffers k).latency + computeLatency s.clockError (env.clock 0) (env.clock 1)⟩
  copied := some (cfg.buffer, (s.mbuffers k).message.data.take cfg.size)

/-- A fresh mbuffer of the principal pool, attached to a port. -/
def Phys.allocate (s : Phys) (k : ℕ) : Phys := s.setMbuffer k (s.mbuffers k).allocated

inductive AreadOutcome (a p : ℕ) (cfg : Config) (env : Env) : Answer → Phys → Prop
  | refused (e : Err) : AreadOutcome a p cfg env { ret := .error e } s
  | stored (i : ℕ) {t : Phys} (hport : (s.ports (a, p)).resource.used = true)
      (hfound : mbufferSearch F (readPool F cfg.remoteAddr) cfg.localAddr cfg.remoteAddr s = some i)
      (hclear : clearSender F s (s.mbuffers ((readPool F cfg.remoteAddr).base F + i)) = some t) :
      AreadOutcome a p cfg env (storedAnswer s ((readPool F cfg.remoteAddr).base F + i) cfg env)
        (t.releaseMbuffer ((readPool F cfg.remoteAddr).base F + i) false)
  | exhausted (hidle : (s.actives a).resource.busy = false) :
      AreadOutcome a p cfg env { ret := .error .EBUSY } (s.allow a (getActid F cfg.remoteAddr))
  | failed (k : ℕ) (hidle : (s.actives a).resource.busy = false) (hk : k < F.mbufferMax)
      (hfree : (s.mbuffers k).resource.used = false) :
      AreadOutcome a p cfg env { ret := .error (.hw env.hwRet) }
        (((((s.allow a (getActid F cfg.remoteAddr)).allocate k).attach (a, p) k).releaseMbuffer k
          false).detach (a, p))
  | submitted (k : ℕ) (hport : (s.ports (a, p)).resource.used = true)
      (hidle : (s.actives a).resource.busy = false) (hk : k < F.mbufferMax)
      (hfree : (s.mbuffers k).resource.used = false) (latency : UInt64) :
      AreadOutcome a p cfg env { ret := .ok .success }
        (((((s.allow a (getActid F cfg.remoteAddr)).allocate k).attach (a, p) k).disallow a).lend a k
          latency)

/-- Port `p` stands in the FIFO, on its own account or since this call. -/
inductive Registered (a p : ℕ) : Phys → Prop
  | already (hreq : (s.ports (a, p)).requested = true) : Registered a p s
  | now (hreq : (s.ports (a, p)).requested = false)
      (hroom : (s.actives a).requests.nelements ≠ (s.actives a).requests.maxCapacity) :
      Registered a p (s.register a p)

/-- The ways the second half of a write through the network ends. -/
inductive SubmitOutcome (a p k : ℕ) : Answer → Phys → Prop
  | full (hreq : (s.ports (a, p)).requested = false)
      (hfull : (s.actives a).requests.nelements = (s.actives a).requests.maxCapacity) :
      SubmitOutcome a p k { ret := .error .EBUSY } s
  | waiting {t : Phys} (hreg : Registered s a p t) (e : Err) :
      SubmitOutcome a p k { ret := .error e } t
  | sent {t : Phys} (hreg : Registered s a p t) (hturn : doRequestVerify t a p = true)
      (hidle : (s.actives a).resource.busy = false) (latency : UInt64) :
      SubmitOutcome a p k { ret := .ok .success, sent := some (s.mbuffers k).message }
        (t.lend a k latency)

/-- The mbuffer of a message that is written to the local node. -/
def forwardedMbuffer (a p k : ℕ) (cfg : Config) (env : Env) : Mbuffer :=
  { (s.mbuffers k).allocated.filled F cfg (readMem env.mem cfg.buffer cfg.size)
      (computeLatency s.clockError (env.clock 0) (env.clock 1)) with
    actid := a, portid := p }

/-- Entry `k` with the message of a call in it, attached to a port. -/
def Phys.prepare (s : Phys) (a p k : ℕ) (cfg : Config) (env : Env) : Phys :=
  (s.setMbuffer k ((s.mbuffers k).allocated.filled F cfg (readMem env.mem cfg.buffer cfg.size)
    (computeLatency s.clockError (env.clock 0) (env.clock 1)))).attach (a, p) k

inductive AwriteOutcome (a p : ℕ) (cfg : Config) (env : Env) : Answer → Phys → Prop
  | refused (e : Err) : AwriteOutcome a p cfg env { ret := .error e } s
  | starved (hport : (s.ports (a, p)).resource.used = true)
      (hdet : (s.ports (a, p)).mbufferid < 0)
      (hlocal : F.nodeIsLocal (s.actives a).remote = true)
      (hreq : (s.ports (a, p)).requested = false)
      (hroom : (s.actives a).requests.nelements ≠ (s.actives a).requests.maxCapacity) :
      AwriteOutcome a p cfg env { ret := .error .EBUSY } (s.register a p)
  | forwarded (k : ℕ) (hport : (s.ports (a, p)).resource.used = true)
      (hdet : (s.ports (a, p)).mbufferid < 0)
      (hlocal : F.nodeIsLocal (s.actives a).remote = true)
      (hreq : (s.ports (a, p)).requested = false)
      (hroom : (s.actives a).requests.nelements ≠ (s.actives a).requests.maxCapacity)
      (hlow : F.mbufferMax - F.auxMax ≤ k) (hk : k < F.mbufferMax)
      (hfree : (s.mbuffers k).resource.used = false) :
      AwriteOutcome a p cfg env
        { ret := .ok .received
          stats := ⟨cfg.size, computeLatency s.clockError (env.clock 0) (env.clock 1)⟩ }
        (((s.register a p).setMbuffer k (forwardedMbuffer F s a p k cfg env)).releaseMbuffer k true)
  | fresh (k : ℕ) {ans : Answer} {t : Phys} (hport : (s.ports (a, p)).resource.used = true)
      (hremote : F.nodeIsLocal (s.actives a).remote = false)
      (hdet : (s.ports (a, p)).mbufferid < 0) (hk : k < F.mbufferMax)
      (hfree : (s.mbuffers k).resource.used = false)
      (hsub : SubmitOutcome (s.prepare F a p k cfg env) a p k ans t) :
      AwriteOutcome a p cfg env ans t
  | retried (k : ℕ) {ans : Answer} {t : Phys} (hport : (s.ports (a, p)).resource.used = true)
      (hatt : 0 ≤ (s.ports (a, p)).mbufferid)
      (hget : mbufferGet F (s.ports (a, p)).mbufferpool (s.ports (a, p)).mbufferid = some k)
      (hsub : SubmitOutcome s a p k ans t) : AwriteOutcome a p cfg env ans t

/-- `mbuffer_release` with its result ignored. -/
def Phys.dropMbuffer (s : Phys) (k : ℕ) (keep : Bool) : Phys :=
  if (s.mbuffers k).resource.used then s.releaseMbuffer k keep else s

/-- The ways the last section of `active_wait` ends; `k` is the entry that the
number read in the first section names now. -/
inductive WaitOutcome (a p k : ℕ) (ret : ℤ) (cfg : Config) : Answer → Phys → Prop
  | failed (hret : ret ≠ 0) :
      WaitOutcome a p k ret cfg { ret := .error (.hw ret) } ((s.dropMbuffer k false).settle a p)
  | consumed (hret : ret = 0) (hread : (s.actives a).resource.isReadable = true)
      (hcheck : headerCheck F (s.mbuffers k).message.header cfg = true) (l l' : UInt64) :
      WaitOutcome a p k ret cfg
        { ret := .ok .success
          stats := ⟨cfg.size, (s.mbuffers k).latency + l + l'⟩
          copied := some (cfg.buffer, (s.mbuffers k).message.data.take cfg.size) }
        (((s.addLatency k l).dropMbuffer k false).settle a p)
  | ignored (hret : ret = 0) (hread : (s.actives a).resource.isReadable = true)
      (hcheck : headerCheck F (s.mbuffers k).message.header cfg = false) (keep : Bool)
      (hkeep : 0 ≤ getPortid F (s.mbuffers k).message.header.dest →
        getPortid F (s.mbuffers k).message.header.dest < F.portNr →
        keep = (s.ports (a, (getPortid F (s.mbuffers k).message.header.dest).toNat)).resource.used)
      (l : UInt64) :
      WaitOutcome a p k ret cfg { ret := .ok .again }
        (((s.addLatency k l).dropMbuffer k keep).settle a p)
  | written (hret : ret = 0) (hwrite : (s.actives a).resource.isWritable = true)
      (hturn : (s.actives a).requests.fifo (s.actives a).requests.tail = p) (l : UInt64) :
      WaitOutcome a p k ret cfg
        { ret := .ok .success, stats := ⟨cfg.size, (s.mbuffers k).latency + l⟩ }
        ((((s.addLatency k l).complete a p).dropMbuffer k false).settle a p)
  | plain (hret : ret = 0) (hread : (s.actives a).resource.isReadable = false)
      (hwrite : (s.actives a).resource.isWritable = false) (l : UInt64) :
      WaitOutcome a p k ret cfg
        { ret := .ok .success, stats := ⟨cfg.size, (s.mbuffers k).latency + l⟩ }
        (((s.addLatency k l).dropMbuffer k false).settle a p)

end Outcomes

variable {F : Facility} {s t : Phys} {id : ℤ} {a p : ℕ} {cfg : Config} {env : Env} {ans : Answer}

/-! ### Ports -/

theorem activeSearch_ok {loc rem : ℤ} {ty : CommType} (h : activeSearch F s loc rem ty = .ok a) :
    a < F.hwMax ∧ activeMatches (s.actives a) loc rem ty = true := by
  unfold activeSearch at h
  split at h
  · rename_i i hi
    obtain ⟨hm, hlt, -⟩ := List.find?_range_eq_some.mp hi
    cases h
    exact ⟨List.mem_range.mp hlt, hm⟩
  · cases h

theorem portpoolChoosePort_ok (h : portpoolChoosePort F s a = .ok p) :
    p < F.portNr ∧ (s.ports (a, p)).resource.used = false := by
  unfold portpoolChoosePort at h
  split at h
  · split at h
    · rename_i i hi
      obtain ⟨hu, hlt, -⟩ := List.find?_range_eq_some.mp hi
      cases h
      exact ⟨List.mem_range.mp hlt, by simpa using hu⟩
    · cases h
  · cases h

theorem activeAlloc_cases {loc rem portid : ℤ} {ty : CommType} {r : Except Err ℤ}
    (h : activeAlloc F s loc rem portid ty = (r, t)) :
    AllocOutcome F s loc rem portid ty r t := by
  unfold activeAlloc at h
  split at h
  · cases h; exact .refused _
  rename_i a hsearch
  obtain ⟨ha, hm⟩ := activeSearch_ok hsearch
  split at h
  · cases h; exact .refused _
  rename_i p hchosen
  -- an output port is chosen free, an input port is the one asked for
  have hp : p < F.portNr ∧ (ty = .input → portid = p) := by
    cases ty with
    | output => exact ⟨(portpoolChoosePort_ok hchosen).1, by simp⟩
    | input =>
      simp only [choosePort] at hchosen
      split at hchosen
      · cases hchosen; omega
      · cases hchosen
  split at h
  · cases h; exact .refused _
  · rename_i hu
    cases h
    exact .opened ha hm hp.1 hp.2 (by simpa using hu)

theorem activeRelease_cases {r : Except Err Unit} (h : activeRelease F s id = some (r, t)) :
    activeValidCall F id = true ∧
      ReleaseOutcome F s (portOf F id).1 (portOf F id).2 r t := by
  unfold activeRelease at h
  split at h
  · cases h
  rename_i hv
  have hv' : activeValidCall F id = true := by simpa using hv
  refine ⟨hv', ?_⟩
  dsimp only [portOf] at h ⊢
  have hport : ((getPortid F id).toNat : ℤ) = getPortid F id := by
    simp only [activeValidCall, Bool.and_eq_true, decide_eq_true_eq] at hv'
    omega
  split at h
  · cases h; exact .refused _
  rename_i hact
  split at h
  · cases h; exact .refused _
  rename_i hempty
  split at h
  · rename_i hu
    cases h
    refine .closed (by simpa using hact) hu fun hr => ?_
    rw [hport]
    simpa [hr] using hempty
  · cases h; exact .refused _

/-! ### Reading -/

theorem clearSender_mbuffers {m : Mbuffer} (h : clearSender F s m = some t) :
    t.mbuffers = s.mbuffers ∧ t.lent = s.lent ∧ t.age = s.age ∧ t.clockError = s.clockError := by
  unfold clearSender at h
  split at h
  · split at h
    · cases h; exact ⟨rfl, rfl, rfl, rfl⟩
    · cases h
  · cases h; exact ⟨rfl, rfl, rfl, rfl⟩

theorem areadSubmit_cases (hport : (s.ports (a, p)).resource.used = true)
    (h : areadSubmit F s a p (getActid F cfg.remoteAddr) env = some (ans, t)) :
    AreadOutcome F s a p cfg env ans t := by
  unfold areadSubmit at h
  dsimp only at h
  split at h
  · cases h; exact .refused _
  rename_i hbusy
  have hidle : (s.actives a).resource.busy = false := by simpa using hbusy
  split at h
  · cases h; exact .refused _
  split at h
  · rename_i hal
    obtain ⟨rfl, rfl, -⟩ := mbufferAlloc_error hal
    cases h
    exact .exhausted hidle
  rename_i k u hal
  obtain ⟨hk, hfree, rfl⟩ := mbufferAlloc_ok hal
  simp only [Pool.base, Pool.nmbuffers, Nat.zero_add] at hk hfree h
  split at h
  · split at h
    · rename_i hrel
      simp only [mbufferRelease, mbufferGet_principal hk] at hrel
      split at hrel
      · cases hrel
        cases h
        exact .failed k hidle hk hfree
      · cases hrel
    · cases h
  · cases h
    exact .submitted k hport hidle hk hfree _

theorem activeAread_cases (h : activeAread F s id cfg env = some (ans, t)) :
    activeValidCall F id = true ∧
      AreadOutcome F s (portOf F id).1 (portOf F id).2 cfg env ans t := by
  unfold activeAread at h
  split at h
  · cases h
  rename_i hv
  refine ⟨by simpa using hv, ?_⟩
  dsimp only at h
  split at h
  · cases h; exact .refused _
  rename_i hport
  have hport' : (s.ports ((portOf F id).1, (portOf F id).2)).resource.used = true := by
    simpa using hport
  split at h
  · rename_i i hfound
    change mbufferSearch F (readPool F cfg.remoteAddr) _ _ s = some i at hfound
    change areadStored F s (readPool F cfg.remoteAddr) i cfg env = _ at h
    unfold areadStored at h
    obtain ⟨hi, hc, -⟩ := mbufferSearch_some hfound
    simp only [mbufferGet_index _ hi] at h
    split at h
    · cases h
    rename_i u hclear
    have hu := clearSender_mbuffers hclear
    have hused : (u.mbuffers ((readPool F cfg.remoteAddr).base F + i)).resource.used = true := by
      rw [hu.1]
      simp only [candidate, Bool.and_eq_true] at hc
      exact hc.1.1.1
    simp only [mbufferRelease, mbufferGet_index _ hi, hused, if_true] at h
    cases h
    have hclock : (u.releaseMbuffer ((readPool F cfg.remoteAddr).base F + i) false).clockError =
        s.clockError := hu.2.2.2
    rw [hclock]
    exact AreadOutcome.stored i hport' hfound hclear
  · split at h
    · cases h; exact .refused _
    · exact areadSubmit_cases hport' h

/-! ### Writing -/

theorem doRequestOperation_cases :
    ((s.actives a).requests.nelements = (s.actives a).requests.maxCapacity ∧
        doRequestOperation s a p = .error .EBUSY) ∨
      ((s.actives a).requests.nelements ≠ (s.actives a).requests.maxCapacity ∧
        doRequestOperation s a p = .ok (s.register a p)) := by
  unfold doRequestOperation
  dsimp only
  split
  · exact .inl ⟨‹_›, rfl⟩
  · exact .inr ⟨‹_›, rfl⟩

/-- The step that makes sure the port is registered before its turn is checked. -/
theorem registered_cases :
    ((s.ports (a, p)).requested = false ∧
        (s.actives a).requests.nelements = (s.actives a).requests.maxCapacity ∧
        (if (s.ports (a, p)).requested then .ok s else doRequestOperation s a p) =
          .error .EBUSY) ∨
      ∃ t, Registered s a p t ∧ (t.actives a).resource = (s.actives a).resource ∧
        t.mbuffers = s.mbuffers ∧ t.clockError = s.clockError ∧
        (if (s.ports (a, p)).requested then .ok s else doRequestOperation s a p) = .ok t := by
  by_cases hreq : (s.ports (a, p)).requested = true
  · exact .inr ⟨s, .already hreq, rfl, rfl, rfl, by simp [hreq]⟩
  have hreq' : (s.ports (a, p)).requested = false := by simpa using hreq
  rcases doRequestOperation_cases (s := s) (a := a) (p := p) with ⟨hfull, he⟩ | ⟨hroom, he⟩
  · exact .inl ⟨hreq', hfull, by simp [hreq', he]⟩
  · exact .inr ⟨_, .now hreq' hroom, by simp [Phys.register], rfl, rfl, by simp [hreq', he]⟩

theorem awriteSubmit_cases (k : ℕ) (h : awriteSubmit s a p k env = (ans, t)) :
    SubmitOutcome s a p k ans t := by
  unfold awriteSubmit at h
  dsimp only at h
  rcases registered_cases (s := s) (a := a) (p := p) with
    ⟨hreq, hfull, he⟩ | ⟨u, hreg, hres, hmb, hclk, he⟩
  · rw [he] at h
    cases h
    exact .full hreq hfull
  · rw [he] at h
    dsimp only at h
    split at h
    · cases h; exact .waiting hreg _
    rename_i hturn
    split at h
    · cases h; exact .waiting hreg _
    rename_i hidle
    split at h
    · cases h; exact .waiting hreg _
    · cases h
      rw [hmb]
      exact .sent hreg (by simpa using hturn) (by rw [← hres]; simpa using hidle) _

theorem awriteForward_cases (hport : (s.ports (a, p)).resource.used = true)
    (hdet : (s.ports (a, p)).mbufferid < 0) (hlocal : F.nodeIsLocal (s.actives a).remote = true)
    (h : awriteForward F s a p cfg env = some (ans, t)) : AwriteOutcome F s a p cfg env ans t := by
  unfold awriteForward at h
  split at h
  · cases h; exact .refused _
  rename_i hreq
  have hreq' : (s.ports (a, p)).requested = false := by simpa using hreq
  rcases doRequestOperation_cases (s := s) (a := a) (p := p) with ⟨-, he⟩ | ⟨hroom, he⟩
  · rw [he] at h
    cases h
    exact .refused _
  rw [he] at h
  dsimp only at h
  split at h
  · rename_i hal
    obtain ⟨rfl, rfl, -⟩ := mbufferAlloc_error hal
    cases h
    exact .starved hport hdet hlocal hreq' hroom
  rename_i i u hal
  obtain ⟨hi, hfree, rfl⟩ := mbufferAlloc_ok hal
  simp only [mbufferGet_index _ hi, mbufferRelease] at h
  have hk : Pool.aux.base F + i < F.mbufferMax := Pool.index_lt .aux hi
  have hlow : F.mbufferMax - F.auxMax ≤ Pool.aux.base F + i := Nat.le_add_right _ _
  rw [if_pos (by simp [Mbuffer.filled, Mbuffer.allocated])] at h
  cases h
  have hst : AwriteOutcome F s a p cfg env _ _ :=
    .forwarded _ hport hdet hlocal hreq' hroom hlow hk hfree
  simpa [Phys.setMbuffer, forwardedMbuffer] using hst

theorem awriteRemote_cases (hport : (s.ports (a, p)).resource.used = true)
    (hway : (s.ports (a, p)).mbufferid < 0 → F.nodeIsLocal (s.actives a).remote = false)
    (h : awriteRemote F s a p cfg env = some (ans, t)) : AwriteOutcome F s a p cfg env ans t := by
  unfold awriteRemote at h
  dsimp only at h
  split at h
  · rename_i hdet
    split at h
    · rename_i hal
      obtain ⟨rfl, rfl, -⟩ := mbufferAlloc_error hal
      cases h
      exact .refused _
    rename_i k u hal
    obtain ⟨hk, hfree, rfl⟩ := mbufferAlloc_ok hal
    simp only [Pool.base, Pool.nmbuffers, Nat.zero_add] at hk hfree h
    have hsub : awriteSubmit (s.prepare F a p k cfg env) a p k env = (ans, t) := by
      simpa [Phys.setMbuffer, Phys.prepare] using h
    exact .fresh k hport (hway hdet) hdet hk hfree (awriteSubmit_cases k hsub)
  · rename_i hatt
    split at h
    · cases h
    rename_i k hget
    exact .retried k hport (by omega) hget (awriteSubmit_cases k (Option.some.inj h))

theorem activeAwrite_cases (h : activeAwrite F s id cfg env = some (ans, t)) :
    activeValidCall F id = true ∧
      AwriteOutcome F s (portOf F id).1 (portOf F id).2 cfg env ans t := by
  unfold activeAwrite at h
  split at h
  · cases h
  rename_i hv
  refine ⟨by simpa using hv, ?_⟩
  dsimp only at h
  split at h
  · cases h; exact .refused _
  rename_i hport
  have hport' : (s.ports ((portOf F id).1, (portOf F id).2)).resource.used = true := by
    simpa using hport
  split at h
  · rename_i hfwd
    simp only [Bool.and_eq_true, decide_eq_true_eq] at hfwd
    exact awriteForward_cases hport' hfwd.2 hfwd.1 h
  · rename_i hfwd
    refine awriteRemote_cases hport' (fun hdet => ?_) h
    simpa [hdet] using hfwd

/-! ### Waiting -/

theorem waitCheck_ok {mbufferid : ℤ} (h : waitCheck F s id = some (.ok mbufferid)) :
    activeValidCall F id = true ∧ (s.ports (portOf F id)).resource.used = true ∧
      (s.actives (portOf F id).1).resource.busy = true ∧
      mbufferid = (s.ports (portOf F id)).mbufferid ∧ 0 ≤ mbufferid ∧
      ((s.actives (portOf F id).1).resource.isWritable = true →
        doRequestVerify s (portOf F id).1 (portOf F id).2 = true) := by
  unfold waitCheck at h
  split at h
  · cases h
  rename_i hv
  dsimp only at h
  split at h
  · cases h
  split at h
  · cases h
  split at h
  · cases h
  split at h
  · cases h
  · cases h
    simp_all

theorem waitRelease_eq {mbufferid : ℤ} {k : ℕ} (keep : Bool)
    (hget : mbufferGet F (s.ports (a, p)).mbufferpool mbufferid = some k) :
    waitRelease F s a p mbufferid keep ans = some (ans, (s.dropMbuffer k keep).settle a p) := by
  unfold waitRelease mbufferRelease Phys.dropMbuffer
  rw [hget]
  by_cases hu : (s.mbuffers k).resource.used = true <;> simp [hu]

theorem waitReceive_cases (s : Phys) (a k : ℕ) (cfg : Config) (env : Env) :
    (headerCheck F (s.mbuffers k).message.header cfg = true ∧
        waitReceive F s a k cfg env =
          ({ ret := .ok .success
             stats := ⟨cfg.size, (s.mbuffers k).latency +
               computeLatency s.clockError (env.clock 2) (env.clock 3)⟩
             copied := some (cfg.buffer, (s.mbuffers k).message.data.take cfg.size) }, false)) ∨
      ∃ keep, headerCheck F (s.mbuffers k).message.header cfg = false ∧
        waitReceive F s a k cfg env = ({ ret := .ok .again }, keep) ∧
        (0 ≤ getPortid F (s.mbuffers k).message.header.dest →
          getPortid F (s.mbuffers k).message.header.dest < F.portNr →
          keep =
            (s.ports (a, (getPortid F (s.mbuffers k).message.header.dest).toNat)).resource.used) := by
  unfold waitReceive
  dsimp only
  split
  · exact .inl ⟨‹_›, rfl⟩
  · rename_i hc
    exact .inr ⟨_, by simpa using hc, rfl, fun h₀ h₁ => if_pos ⟨h₀, h₁⟩⟩

theorem waitComplete_cases {mbufferid ret : ℤ}
    (h : waitComplete F s id mbufferid ret cfg env = some (ans, t)) :
    ∃ k, mbufferGet F (s.ports (portOf F id)).mbufferpool mbufferid = some k ∧
      WaitOutcome F s (portOf F id).1 (portOf F id).2 k ret cfg ans t := by
  unfold waitComplete at h
  generalize portOf F id = ap at h ⊢
  obtain ⟨a, p⟩ := ap
  dsimp only at h ⊢
  cases hget : mbufferGet F (s.ports (a, p)).mbufferpool mbufferid with
  | none => simp [waitRelease, mbufferRelease, hget] at h
  | some k =>
    refine ⟨k, rfl, ?_⟩
    rw [hget] at h
    dsimp only at h
    set l := computeLatency s.clockError (env.clock 0) (env.clock 1)
    have hlat : ((s.addLatency k l).mbuffers k).latency = (s.mbuffers k).latency + l := by
      simp [Phys.addLatency]
    split at h
    · rename_i hret
      split at h
      · rename_i hread
        rw [waitRelease_eq (s := s.addLatency k l) _ hget] at h
        rcases waitReceive_cases (F := F) (s.addLatency k l) a k cfg env with
          ⟨hc, he⟩ | ⟨keep, hc, he, hkeep⟩
        · rw [he] at h
          simp only [Phys.addLatency, Phys.setMbuffer_mbuffers, Function.update_self] at hc h
          cases h
          exact .consumed hret hread hc l _
        · rw [he] at h
          simp only [Phys.addLatency, Phys.setMbuffer_mbuffers, Function.update_self] at hc h hkeep
          cases h
          exact .ignored hret hread hc keep hkeep l
      split at h
      · rename_i hread hwrite
        unfold doRequestComplete at h
        dsimp only at h
        split at h
        · cases h
        rename_i u hturn
        split at hturn
        · cases hturn
        rename_i hturn'
        cases hturn
        rw [waitRelease_eq (s := (s.addLatency k l).complete a p) (k := k) _ (by
          simpa [Phys.complete, Phys.addLatency] using hget), complete_mbuffers, hlat] at h
        cases h
        exact .written hret hwrite (by simpa [Phys.addLatency] using hturn') l
      · rename_i hread hwrite
        rw [waitRelease_eq (s := s.addLatency k l) _ hget, hlat] at h
        cases h
        exact .plain hret (by simpa using hread) (by simpa using hwrite) l
    · rename_i hret
      rw [waitRelease_eq false hget] at h
      cases h
      exact .failed hret

end Nanvix.Noc
