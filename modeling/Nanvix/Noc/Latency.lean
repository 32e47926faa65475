import Mathlib.Algebra.Order.BigOperators.Group.List
import Nanvix.Noc.Delivery
import Nanvix.Noc.Interference
import Nanvix.Noc.Messages

/-! The latency in the statistics of a communicator. The calls on an active read the clock before
and after what they measure, take the clock error off the difference and add the rest up, in the
statistics at once or in the mbuffer until the wait is through. The clock error was measured at
boot, and it is subtracted modulo `2 ^ 64` from intervals that may be shorter; and a read that finds
its message stored adds the latency that another operation has left in the mbuffer. So the
statistics keep to the time that the operations took if and only if no interval is shorter than the
clock error and no stored message brings more than the clock error along. -/

namespace Nanvix.Noc

open Nanvix.Lib Function

/-! ### What an event measures -/

def worksFor (e : Event State Act Out) : Option ℕ :=
  match e.act with
  | .master _ => e.pre.master.target
  | .resume tid _ => (e.pre.waits tid).comm
  | _ => none

/-- A write has copied its message: the port had no mbuffer, and now the message is on its way to
the reader or in the mbuffer of the port. -/
def freshCopy (s t : Phys) (ap : ℕ × ℕ) (ret : Except Err CommStatus) : Bool :=
  decide ((s.ports ap).mbufferid < 0 ∧ (ret = .ok .received ∨ 0 ≤ (t.ports ap).mbufferid))

variable (F : Facility)

/-- The readings of the clock that an event hands to `ACTIVE_COMPUTE_LATENCY`. -/
def sections (e : Event State Act Out) : List (UInt64 × UInt64) :=
  match e.act, e.out.ans with
  | .master env, some ans =>
    match e.pre.master with
    -- a stored message is copied, or the hardware takes the read
    | .operating .input _ => if ans.ret.isOk then [(env.clock 0, env.clock 1)] else []
    | .operating .output c =>
      (if freshCopy e.pre.phys e.post.phys (portOf F (e.pre.comms c).config.fd) ans.ret then
        [(env.clock 0, env.clock 1)] else []) ++
      if ans.ret = .ok .success then [(env.clock 2, env.clock 3)] else []
    | _ => []
  | .resume tid env, some ans =>
    match e.pre.waits tid with
    | .woken _ fd _ ret =>
      if ret = 0 then
        -- a message for this reader is also copied
        (env.clock 0, env.clock 1) ::
          if (e.pre.phys.actives (portOf F fd).1).resource.isReadable ∧ ans.ret = .ok .success then
            [(env.clock 2, env.clock 3)] else []
      else []
    | _ => []
  | _, _ => []

/-- The latency that a stored message brings to the read that returns it. -/
def handed (e : Event State Act Out) : UInt64 :=
  match operation e with
  | some (.input, c, ans) =>
    let cfg := (e.pre.comms c).config
    match ans.ret, mbufferSearch F (readPool F cfg.remoteAddr) cfg.localAddr cfg.remoteAddr e.pre.phys with
    | .ok .received, some i => (e.pre.phys.mbuffers ((readPool F cfg.remoteAddr).base F + i)).latency
    | _, _ => 0
  | _ => 0

/-- The clock time that an event has measured for communicator `c`. -/
def spent (c : ℕ) (e : Event State Act Out) : ℕ :=
  if worksFor e = some c then ((sections F e).map fun x => (x.2 - x.1).toNat).sum else 0

def elapsed (c : ℕ) (tr : List (Event State Act Out)) : ℕ := (tr.map (spent F c)).sum

/-- No interval is shorter than the clock error, and no stored message brings more along. -/
def Calibrated (e : Event State Act Out) : Prop :=
  ∀ x ∈ sections F e, e.pre.phys.clockError ≤ x.2 - x.1 ∧ handed F e ≤ e.pre.phys.clockError

/-- Adding what a stored message and the section bring does not wrap the latency around. -/
def AddsUp (e : Event State Act Out) : Prop :=
  ∀ c ∈ worksFor e, ∀ x ∈ sections F e, (e.pre.comms c).stats.latency.toNat + (handed F e).toNat +
    (computeLatency e.pre.phys.clockError x.1 x.2).toNat < 2 ^ 64

/-- Over every stretch that starts with no operation of a communicator in flight its latency grows by at
most the clock time of its operations. -/
def KeepsToTime (tr : List (Event State Act Out)) : Prop :=
  ∀ l w r s₁ s₂ c, tr = l ++ w ++ r → Run (steps F) s₁ w s₂ → ¬ InFlight s₁ c →
    (s₂.comms c).stats.latency.toNat ≤ (s₁.comms c).stats.latency.toNat + elapsed F c w

instance : DecidablePred (Calibrated F) := fun e => List.decidableBAll (fun _ => _ ∧ _) (sections F e)

instance : DecidablePred (AddsUp F) := fun e =>
  @Option.decidableForallMem _ _ (fun _ => List.decidableBAll (fun _ => _ < _) (sections F e)) (worksFor e)

variable {F}

theorem computeLatency_le_iff {ce t1 t2 : UInt64} :
    computeLatency ce t1 t2 ≤ t2 - t1 ↔ ce ≤ t2 - t1 := by
  unfold computeLatency
  generalize t2 - t1 = x
  have hx := x.toNat_lt
  have hce := ce.toNat_lt
  rw [UInt64.le_iff_toNat_le, UInt64.le_iff_toNat_le, UInt64.toNat_sub]
  omega

/-- What a stored message brings fits into the interval of its reader if and only if it fits into
the clock error. -/
theorem handed_add_le_iff {ce t1 t2 m : UInt64} :
    m.toNat + (computeLatency ce t1 t2).toNat ≤ (t2 - t1).toNat ↔ ce ≤ t2 - t1 ∧ m ≤ ce := by
  unfold computeLatency
  generalize t2 - t1 = x
  have hx := x.toNat_lt
  have hce := ce.toNat_lt
  rw [UInt64.le_iff_toNat_le, UInt64.le_iff_toNat_le, UInt64.toNat_sub]
  omega

theorem toNat_add_le (x y : UInt64) : (x + y).toNat ≤ x.toNat + y.toNat := by
  rw [UInt64.toNat_add]
  exact Nat.mod_le _ _

theorem elapsed_append (c : ℕ) (l r : List (Event State Act Out)) :
    elapsed F c (l ++ r) = elapsed F c l + elapsed F c r := by
  rw [elapsed, List.map_append, List.sum_append]
  rfl

theorem elapsed_singleton (c : ℕ) (e : Event State Act Out) : elapsed F c [e] = spent F c e := by
  simp [elapsed]

section Calls
variable {s t : Phys} {id : ℤ} {a p k j : ℕ} {cfg : Config} {env : Env} {ans : Answer}

/-! ### What the calls measure -/

theorem areadSubmit_lend {rem : ℤ} (h : areadSubmit F s a p rem env = some (ans, t))
    (hret : ans.ret = .ok .success) :
    ans.stats = {} ∧
      ∃ u k, t = Phys.lend u a k (computeLatency s.clockError (env.clock 0) (env.clock 1)) := by
  unfold areadSubmit at h
  dsimp only at h
  split at h
  · cases h; cases hret
  split at h
  · cases h; cases hret
  split at h
  · cases h; cases hret
  rename_i k u hal
  obtain ⟨-, -, rfl⟩ := mbufferAlloc_ok hal
  split at h
  · split at h
    · cases h; cases hret
    · cases h
  · cases h
    exact ⟨rfl, _, _, rfl⟩

/-- A read that the hardware takes puts its time into the mbuffer it lends. -/
theorem activeAread_lend (h : activeAread F s id cfg env = some (ans, t))
    (hret : ans.ret = .ok .success) :
    ans.stats = {} ∧ ∃ u k, t = Phys.lend u (portOf F id).1 k
      (computeLatency s.clockError (env.clock 0) (env.clock 1)) := by
  unfold activeAread at h
  split at h
  · cases h
  dsimp only at h
  split at h
  · cases h; cases hret
  split at h
  · -- a stored message is received, not submitted
    unfold areadStored at h
    split at h
    · cases h
    dsimp only at h
    split at h
    · cases h
    split at h
    · cases h; cases hret
    · cases h
  split at h
  · cases h; cases hret
  · exact areadSubmit_lend h hret

/-- A read that finds its message stored adds what the message brings to its own time. -/
theorem AreadOutcome.received (ho : AreadOutcome F s a p cfg env ans t)
    (hret : ans.ret = .ok .received) :
    ∃ i, mbufferSearch F (readPool F cfg.remoteAddr) cfg.localAddr cfg.remoteAddr s = some i ∧
      ans.stats.latency = (s.mbuffers ((readPool F cfg.remoteAddr).base F + i)).latency +
        computeLatency s.clockError (env.clock 0) (env.clock 1) := by
  cases ho with
  | stored i hport hfound hclear => exact ⟨i, hfound, rfl⟩
  | _ => cases hret

theorem awriteSubmit_lend (h : awriteSubmit s a p k env = (ans, t)) (hret : ans.ret = .ok .success) :
    ans.stats = {} ∧
      ∃ u, t = Phys.lend u a k (computeLatency s.clockError (env.clock 2) (env.clock 3)) := by
  unfold awriteSubmit at h
  dsimp only at h
  rcases registered_cases (s := s) (a := a) (p := p) with ⟨-, -, he⟩ | ⟨u, -, -, -, hclk, he⟩
  · rw [he] at h
    cases h; cases hret
  rw [he] at h
  dsimp only at h
  split at h
  · cases h; cases hret
  split at h
  · cases h; cases hret
  split at h
  · cases h; cases hret
  · cases h
    rw [hclk]
    exact ⟨rfl, u, rfl⟩

/-- A write that the hardware takes puts its time into the mbuffer it lends; the time of the copy is
forgotten. -/
theorem activeAwrite_lend (h : activeAwrite F s id cfg env = some (ans, t))
    (hret : ans.ret = .ok .success) :
    ans.stats = {} ∧ ∃ u k, t = Phys.lend u (portOf F id).1 k
      (computeLatency s.clockError (env.clock 2) (env.clock 3)) := by
  unfold activeAwrite at h
  split at h
  · cases h
  dsimp only at h
  split at h
  · cases h; cases hret
  rename_i hport
  split at h
  · rename_i hfwd
    simp only [Bool.and_eq_true, decide_eq_true_eq] at hfwd
    cases awriteForward_cases (by simpa using hport) hfwd.2 hfwd.1 h with
    | fresh k hport hremote => rw [hfwd.1] at hremote; cases hremote
    | retried k hport hatt => omega
    | _ => cases hret
  unfold awriteRemote at h
  dsimp only at h
  split at h
  · split at h
    · cases h; cases hret
    · rename_i k u hal
      obtain ⟨-, -, rfl⟩ := mbufferAlloc_ok hal
      obtain ⟨hstats, u, rfl⟩ := awriteSubmit_lend (Option.some.inj h) hret
      exact ⟨hstats, u, k, rfl⟩
  · split at h
    · cases h
    · rename_i k hget
      obtain ⟨hstats, u, rfl⟩ := awriteSubmit_lend (Option.some.inj h) hret
      exact ⟨hstats, u, k, rfl⟩

/-- A write to the node itself adds the time of its copy. -/
theorem AwriteOutcome.received (ho : AwriteOutcome F s a p cfg env ans t)
    (hret : ans.ret = .ok .received) :
    (s.ports (a, p)).mbufferid < 0 ∧
      ans.stats.latency = computeLatency s.clockError (env.clock 0) (env.clock 1) := by
  have hsub : ∀ {u k}, ¬ SubmitOutcome u a p k ans t := by
    intro u k hsub
    cases hsub <;> cases hret
  cases ho with
  | forwarded k hport hdet => exact ⟨hdet, rfl⟩
  | fresh k _ _ _ _ _ hs => exact absurd hs hsub
  | retried k _ _ _ hs => exact absurd hs hsub
  | _ => cases hret

theorem waitRelease_answer {mbufferid : ℤ} {keep : Bool} {ans' : Answer}
    (h : waitRelease F s a p mbufferid keep ans' = some (ans, t)) : ans = ans' := by
  unfold waitRelease at h
  split at h
  · cases h
  · cases h; rfl

/-- A wait that succeeds adds what its mbuffer holds and the time it has measured itself. -/
theorem waitComplete_measures {mbufferid ret : ℤ}
    (h : waitComplete F s id mbufferid ret cfg env = some (ans, t))
    (hget : mbufferGet F (s.ports (portOf F id)).mbufferpool mbufferid = some k) :
    ans.stats.latency = 0 ∨ ret = 0 ∧ ans.ret = .ok .success ∧
      ans.stats.latency = (s.mbuffers k).latency +
          computeLatency s.clockError (env.clock 0) (env.clock 1) +
        if (s.actives (portOf F id).1).resource.isReadable then
          computeLatency s.clockError (env.clock 2) (env.clock 3) else 0 := by
  unfold waitComplete at h
  generalize portOf F id = ap at h hget ⊢
  obtain ⟨a, p⟩ := ap
  dsimp only at h hget ⊢
  set l := computeLatency s.clockError (env.clock 0) (env.clock 1)
  have hlat : ((s.addLatency k l).mbuffers k).latency = (s.mbuffers k).latency + l := by
    simp [Phys.addLatency]
  split at h
  · rename_i hret
    rw [hget] at h
    dsimp only at h
    split at h
    · rename_i hread
      obtain rfl := waitRelease_answer h
      rcases waitReceive_cases (F := F) (s.addLatency k l) a k cfg env with ⟨-, he⟩ | ⟨keep, -, he, -⟩
      · rw [he]
        exact .inr ⟨hret, rfl, by simp [hlat, hread]⟩
      · rw [he]
        exact .inl rfl
    · rename_i hread
      split at h
      · split at h
        · cases h
        rename_i u hcomplete
        have hu : u.mbuffers = (s.addLatency k l).mbuffers := by
          unfold doRequestComplete at hcomplete
          dsimp only at hcomplete
          split at hcomplete
          · cases hcomplete
          · cases hcomplete; rfl
        obtain rfl := waitRelease_answer h
        exact .inr ⟨hret, rfl, by simp [hu, hlat, hread]⟩
      · obtain rfl := waitRelease_answer h
        exact .inr ⟨hret, rfl, by simp [hlat, hread]⟩
  · obtain rfl := waitRelease_answer h
    exact .inl rfl

/-! ### What the calls leave alone -/

theorem AreadOutcome.latency (ho : AreadOutcome F s a p cfg env ans t)
    (hj : (s.mbuffers j).held = true) : (t.mbuffers j).latency = (s.mbuffers j).latency := by
  have hne : ∀ {k}, (s.mbuffers k).held = false → j ≠ k := by
    rintro k hk rfl
    rw [hj] at hk
    cases hk
  cases ho with
  | refused e => rfl
  | exhausted hidle => rfl
  | failed k hidle hk hfree =>
    simp [Phys.detach, Phys.releaseMbuffer, Phys.attach, Phys.allocate, Phys.allow,
      update_of_ne (hne (not_held_of_unused hfree))]
  | submitted k hport hidle hk hfree l =>
    simp [Phys.lend, Phys.disallow, Phys.attach, Phys.allocate, Phys.allow,
      update_of_ne (hne (not_held_of_unused hfree))]
  | stored i hport hfound hclear =>
    obtain ⟨-, hc, -⟩ := mbufferSearch_some hfound
    simp only [candidate, Bool.and_eq_true] at hc
    have hk : j ≠ (readPool F cfg.remoteAddr).base F + i := hne (by simp [Mbuffer.held, hc.1.1.2])
    simp [Phys.releaseMbuffer, (clearSender_mbuffers hclear).1, update_of_ne hk]

theorem SubmitOutcome.latency (ho : SubmitOutcome s a p k ans t) (hj : j ≠ k) :
    (t.mbuffers j).latency = (s.mbuffers j).latency := by
  cases ho with
  | full hreq hfull => rfl
  | waiting hr e => rw [hr.mbuffers]
  | sent hr hturn hidle l => simp [Phys.lend, hr.mbuffers, update_of_ne hj]

theorem AwriteOutcome.latency (hown : Owned F s) (ho : AwriteOutcome F s a p cfg env ans t)
    (hj : (s.mbuffers j).held = true) (hport : (s.ports (a, p)).mbufferid ≠ j) :
    (t.mbuffers j).latency = (s.mbuffers j).latency := by
  have hne : ∀ {k}, (s.mbuffers k).resource.used = false → j ≠ k := by
    rintro k hk rfl
    rw [not_held_of_unused hk] at hj
    cases hj
  cases ho with
  | refused e => rfl
  | starved => rfl
  | forwarded k _ hdet hlocal hreq hroom hlow hk hfree =>
    simp [Phys.releaseMbuffer, update_of_ne (hne hfree)]
  | fresh k _ hremote hdet hk hfree hsub =>
    rw [hsub.latency (hne hfree)]
    simp [Phys.prepare, Phys.attach, update_of_ne (hne hfree)]
  | retried k _ hatt hget hsub =>
    refine hsub.latency ?_
    rintro rfl
    exact hport (hown.entry_eq hatt hget)

theorem hwWait_latency (j : ℕ) : ((hwWait s a env).mbuffers j).latency = (s.mbuffers j).latency := by
  unfold hwWait
  split
  · split
    · exact setMbuffer_frame (·.latency) (by rfl) j
    · rfl
  · rfl

theorem WaitOutcome.latency {ret : ℤ} (ho : WaitOutcome F s a p k ret cfg ans t) (hj : j ≠ k) :
    (t.mbuffers j).latency = (s.mbuffers j).latency := by
  cases ho <;>
    simp [Phys.settle, Phys.detach, dropMbuffer_of_ne hj, Phys.addLatency, Phys.complete,
      update_of_ne hj]

end Calls

/-! ### What the operations have cost so far -/

variable (F) in
/-- The statistics of communicator `c`, with what its operation in flight has put into the mbuffer,
come to at most `n`. -/
structure Charged (s : State) (c n : ℕ) : Prop where
  stats : (s.comms c).stats.latency.toNat ≤ n
  loan : InFlight s c → ∀ k, OnLoan s.phys (portOf F (s.comms c).config.fd).1
    (portOf F (s.comms c).config.fd).2 k →
      (s.comms c).stats.latency.toNat + (s.phys.mbuffers k).latency.toNat ≤ n

variable (F) in
/-- The operation of communicator `c` in flight keeps its mbuffer, with the latency in it. -/
def Undisturbed (s t : State) (c : ℕ) : Prop :=
  InFlight s c → ∀ k, OnLoan s.phys (portOf F (s.comms c).config.fd).1
    (portOf F (s.comms c).config.fd).2 k →
      OnLoan t.phys (portOf F (s.comms c).config.fd).1 (portOf F (s.comms c).config.fd).2 k ∧
        (t.phys.mbuffers k).latency = (s.phys.mbuffers k).latency

variable {s t : State} {c n : ℕ}

theorem Undisturbed.of_phys (hkeep : KeepsLoans s.phys t.phys)
    (hlat : ∀ k, (t.phys.mbuffers k).latency = (s.phys.mbuffers k).latency) : Undisturbed F s t c :=
  fun _ k hk => ⟨hkeep _ _ k hk, hlat k⟩

theorem Undisturbed.refl (h : t.phys = s.phys) : Undisturbed F s t c :=
  .of_phys (by rw [h]; exact .refl _) fun k => by rw [h]

/-- A step that does not work for the communicator leaves its bill alone. -/
theorem Charged.keep (h : Charged F s c n) (hf : Flight F s)
    (hact : (t.comms c).activity = (s.comms c).activity)
    (hstats : (t.comms c).stats = (s.comms c).stats)
    (hwaits : ∀ tid ret, s.waits tid = .leaving c ret → t.waits tid = .leaving c ret)
    (hphys : Undisturbed F s t c) : Charged F t c n where
  stats := by rw [hstats]; exact h.stats
  loan hfly k hk := by
    have hs : InFlight s c := hfly.back hact hwaits
    rw [activity_fd hact] at hk
    obtain ⟨j, hj⟩ := hf.flight c hs
    obtain ⟨hj', hlat⟩ := hphys hs j hj
    obtain rfl : j = k := Option.some.inj (hj'.lent.symm.trans hk.lent)
    rw [hstats, hlat]
    exact h.loan hs j hj

/-- A communicator with no operation in flight has only its statistics. -/
theorem Charged.of_not_inFlight (hnot : ¬ InFlight t c)
    (hstats : (t.comms c).stats.latency.toNat ≤ n) : Charged F t c n :=
  ⟨hstats, fun hfly => absurd hfly hnot⟩

theorem Charged.mono (h : Charged F s c n) {m : ℕ} (hm : n ≤ m) : Charged F s c m :=
  ⟨h.stats.trans hm, fun hfly k hk => (h.loan hfly k hk).trans hm⟩

/-- Two communicators in use have different ports. -/
theorem Flight.ports_differ (h : Flight F s) {d : ℕ} (hc : (s.comms c).resource.used = true)
    (hd : (s.comms d).resource.used = true) (hne : c ≠ d) :
    portOf F (s.comms c).config.fd ≠ portOf F (s.comms d).config.fd := by
  intro heq
  obtain ⟨ty, a, p, -, hb, hport⟩ := h.port hc
  obtain ⟨ty', a', p', -, hb', hport'⟩ := h.port hd
  obtain ⟨rfl, rfl⟩ := Prod.mk.inj (hport.symm.trans (heq.trans hport'))
  exact hne (h.accounts.comm_inj c d hc hd (hb.fd_eq.trans hb'.fd_eq.symm))

/-- A read or write for another communicator does not disturb an operation in flight. -/
theorem Flight.undisturbed_operate (h : Flight F s) {ty : CommType} {d : ℕ} {env : Env} {ans : Answer}
    {ph : Phys} (hpc : s.master = .operating ty d) (hu : (s.comms d).resource.used = true)
    (hfits : (s.comms d).fits ty = true) (ho : CommOutcome F s (s.comms d).config env s.doComm ans ph)
    (hphys : t.phys = ph) (hne : c ≠ d) : Undisturbed F s t c := by
  subst hphys
  intro hfly k hk
  obtain ⟨-, -, hst⟩ := h.operate hpc hu hfits ho
  refine ⟨hst.keeps _ _ k hk, ?_⟩
  have hheld := h.owned.held_of_lent hk.lent
  generalize s.doComm = ty' at ho
  cases ho with
  | aread hv ho => exact ho.latency hheld
  | awrite hv ho =>
    refine ho.latency h.owned hheld fun hport => h.ports_differ hfly.used hu hne ?_
    exact h.owned.inj _ _ (by rw [hk.attached]; omega) (hk.attached.trans hport.symm)

/-- A wait that completes for another communicator does not disturb an operation in flight. -/
theorem Flight.undisturbed_completed (h : Flight F s) {d tid k : ℕ} {fd m ret : ℤ} {ans : Answer}
    {ph : Phys} (hpc : s.waits tid = .woken d fd m ret)
    (hget : mbufferGet F (s.phys.ports (portOf F fd)).mbufferpool m = some k)
    (ho : WaitOutcome F s.phys (portOf F fd).1 (portOf F fd).2 k ret (s.comms d).config ans ph)
    (hphys : t.phys = ph) (hne : c ≠ d) : Undisturbed F s t c := by
  subst hphys
  intro hfly j hj
  obtain ⟨hfly', rfl, hk⟩ := h.woken_loan hpc hget
  have hact := h.actives_differ hfly' hfly hne
  refine ⟨(h.wired.wait hk ho).2.2 _ _ j hact hj, ho.latency ?_⟩
  rintro rfl
  exact hact ((h.owned.lent _ j hk.lent).2.2 _ hj.attached)

/-! ### One step -/

variable {e : Event State Act Out} {ty : CommType} {env : Env} {ans : Answer} {status : CommStatus}

theorem le_spent {x : UInt64 × UInt64} (hw : worksFor e = some c) (hx : x ∈ sections F e) :
    (x.2 - x.1).toNat ≤ spent F c e := by
  rw [spent, if_pos hw]
  exact List.le_sum_of_mem (List.mem_map_of_mem hx)

theorem Operates.worksFor (hop : Operates ty c env ans e) : worksFor e = some c := by
  simp only [Noc.worksFor, hop.act, hop.master, MasterPc.target]

theorem Operates.sections_input (hop : Operates .input c env ans e) (hret : ans.ret = .ok status) :
    sections F e = [(env.clock 0, env.clock 1)] := by
  simp [sections, hop.act, hop.answer, hop.master, hret, Except.isOk, Except.toBool]

theorem Operates.mem_sections_success (hop : Operates .output c env ans e)
    (hret : ans.ret = .ok .success) : (env.clock 2, env.clock 3) ∈ sections F e := by
  simp [sections, hop.act, hop.answer, hop.master, hret]

theorem Operates.mem_sections_received (hop : Operates .output c env ans e)
    (hret : ans.ret = .ok .received)
    (hport : (e.pre.phys.ports (portOf F (e.pre.comms c).config.fd)).mbufferid < 0) :
    (env.clock 0, env.clock 1) ∈ sections F e := by
  simp [sections, hop.act, hop.answer, hop.master, hret, freshCopy, hport]

theorem Operates.handed_received {i : ℕ} (hop : Operates .input c env ans e)
    (hret : ans.ret = .ok .received)
    (hfound : mbufferSearch F (readPool F (e.pre.comms c).config.remoteAddr)
      (e.pre.comms c).config.localAddr (e.pre.comms c).config.remoteAddr e.pre.phys = some i) :
    handed F e = (e.pre.phys.mbuffers
      ((readPool F (e.pre.comms c).config.remoteAddr).base F + i)).latency := by
  simp only [handed, hop.operation, hret, hfound]

theorem handed_cases (e : Event State Act Out) :
    handed F e = 0 ∨ ∃ c env ans, Operates .input c env ans e ∧ ans.ret = .ok .received := by
  unfold handed
  split
  · rename_i c ans hop
    obtain ⟨env, hop⟩ := operates_of_operation hop
    dsimp only
    split
    · rename_i hret _
      exact .inr ⟨c, env, ans, hop, hret⟩
    · exact .inl rfl
  · exact .inl rfl

theorem Operates.latency_eq (hop : Operates ty c env ans e) (hs : steps F e.pre e.act e.out e.post)
    (hret : ans.ret = .ok status) :
    (e.post.comms c).stats.latency = (e.pre.comms c).stats.latency + ans.stats.latency := by
  obtain ⟨s, act, o, t⟩ := e
  obtain ⟨rfl, hmaster, hans⟩ := hop
  dsimp only at hs hmaster hans ⊢
  cases steps_cases hs with
  | quiet _ _ hnone =>
    rw [hans] at hnone
    cases hnone
  | failed hpc hused hfits hbusy ho herr =>
    cases hans
    rw [herr] at hret
    cases hret
  | operated hpc =>
    cases hans
    cases hmaster.symm.trans hpc
    simp [Communicator.operated, Pstats.add]
  | _ => cases hans

/-- If the latency has grown by no more than the interval of a read, without wrapping around, what the
stored message brought has fitted into the clock error. -/
theorem calibrated_of_growth (hf : Flight F e.pre) (hs : steps F e.pre e.act e.out e.post) (hadd : AddsUp F e)
    (hle : ∀ x ∈ sections F e, computeLatency e.pre.phys.clockError x.1 x.2 ≤ x.2 - x.1)
    (hgrow : ∀ c, ¬ InFlight e.pre c →
      (e.post.comms c).stats.latency.toNat ≤ (e.pre.comms c).stats.latency.toNat + spent F c e) :
    Calibrated F e := by
  intro x hx
  apply handed_add_le_iff.mp
  rcases handed_cases (F := F) e with hzero | ⟨c, env, ans, hop, hret⟩
  · rw [hzero, UInt64.toNat_zero, Nat.zero_add]
    exact UInt64.le_iff_toNat_le.mp (hle x hx)
  · have hsec := hop.sections_input (F := F) hret
    have hsum := hadd c hop.worksFor x hx
    have hgrown := hgrow c (not_inFlight_of_idle (hop.call hs).2.1)
    obtain ⟨-, -, ho⟩ := hf.outcome hs hop
    cases ho with
    | aread hv ho =>
      obtain ⟨i, hfound, hlat⟩ := ho.received hret
      rw [← hop.handed_received hret hfound] at hlat
      rw [hsec, List.mem_singleton] at hx
      subst hx
      rw [hop.latency_eq hs hret, hlat, spent, if_pos hop.worksFor, hsec] at hgrown
      simp only [List.map_cons, List.map_nil, List.sum_singleton, UInt64.toNat_add] at hgrown hsum ⊢
      omega

/-- A contribution of a calibrated event is at most what the event has measured. -/
theorem Calibrated.contribution (hcal : Calibrated F e) (hw : worksFor e = some c) {t1 t2 : UInt64}
    (hx : (t1, t2) ∈ sections F e) :
    (computeLatency e.pre.phys.clockError t1 t2).toNat ≤ spent F c e :=
  (UInt64.le_iff_toNat_le.mp (computeLatency_le_iff.mpr (hcal _ hx).1)).trans (le_spent hw hx)

/-- An operation that the hardware takes owes its time to the mbuffer. -/
theorem Charged.lent (h : Charged F s c n) {u : Phys} {a k m : ℕ} {l : UInt64}
    (hphys : t.phys = u.lend a k l) (ha : (portOf F (t.comms c).config.fd).1 = a)
    (hstats : (t.comms c).stats.latency = (s.comms c).stats.latency) (hl : l.toNat ≤ m) :
    Charged F t c (n + m) where
  stats := by
    rw [hstats]
    exact h.stats.trans (Nat.le_add_right n m)
  loan _ j hj := by
    have hjk := hj.lent
    rw [ha, hphys, lend_lent, update_self] at hjk
    obtain rfl := Option.some.inj hjk
    have hlat : (t.phys.mbuffers k).latency = l := by simp [hphys, Phys.lend]
    rw [hstats, hlat]
    exact Nat.add_le_add h.stats hl

/-- A read or write adds at most the time it has measured. -/
theorem Charged.operated (h : Charged F e.pre c n) (hf : Flight F e.pre)
    (hs : steps F e.pre e.act e.out e.post) (hcal : Calibrated F e) (hop : Operates ty c env ans e)
    (hret : ans.ret = .ok status)
    (hpost : e.post.comms c = (e.pre.comms c).operated status ans.stats) :
    Charged F e.post c (n + spent F c e) := by
  have hw := hop.worksFor
  obtain ⟨hused, hfits, ho⟩ := hf.outcome hs hop
  obtain ⟨-, -, hcall⟩ := hop.call hs
  have hty : e.pre.doComm = ty := hf.dispatched.eq hop.master
  rw [doComm, hty] at hcall
  have hagain : ans.ret ≠ .ok .again :=
    (hf.operate hop.master hused hfits (by rw [hty]; exact ho)).2.2.not_again
  have hfd : (e.post.comms c).config.fd = (e.pre.comms c).config.fd := by rw [hpost]; rfl
  have hstats : (e.post.comms c).stats.latency = (e.pre.comms c).stats.latency + ans.stats.latency := by
    rw [hpost]; rfl
  -- a message that was there ends the operation, and the statistics have it all
  have hreceived : status = .received → ans.stats.latency.toNat ≤ spent F c e →
      Charged F e.post c (n + spent F c e) := by
    rintro rfl hle
    refine .of_not_inFlight (fun hfly => ?_) ?_
    · have := hfly.unfinished
      rw [hpost] at this
      simp [Communicator.operated] at this
    · rw [hstats]
      exact (toNat_add_le _ _).trans (Nat.add_le_add h.stats hle)
  cases ho with
  | aread hv ho =>
    have hsec := hop.sections_input (F := F) hret
    have hmem : (env.clock 0, env.clock 1) ∈ sections F e := by rw [hsec]; exact List.mem_singleton_self _
    cases status with
    | success =>
      obtain ⟨hzero, u, k, hphys⟩ := activeAread_lend hcall hret
      exact h.lent hphys (by rw [hfd]) (by rw [hstats, hzero]; exact UInt64.add_zero _)
        (hcal.contribution hw hmem)
    | received =>
      obtain ⟨i, hfound, hlat⟩ := ho.received hret
      have hfits := handed_add_le_iff.mpr (hcal _ hmem)
      rw [hop.handed_received hret hfound] at hfits
      refine hreceived rfl ?_
      rw [hlat]
      exact ((toNat_add_le _ _).trans hfits).trans (le_spent hw hmem)
    | again => exact absurd hret hagain
  | awrite hv ho =>
    cases status with
    | success =>
      obtain ⟨hzero, u, k, hphys⟩ := activeAwrite_lend hcall hret
      exact h.lent hphys (by rw [hfd]) (by rw [hstats, hzero]; exact UInt64.add_zero _)
        (hcal.contribution hw (hop.mem_sections_success hret))
    | received =>
      obtain ⟨hport, hlat⟩ := ho.received hret
      refine hreceived rfl ?_
      rw [hlat]
      exact hcal.contribution hw (hop.mem_sections_received hret hport)
    | again => exact absurd hret hagain

/-- The last section of `active_wait` behind a step. -/
theorem completes_of_steps {o : Out} {tid : ℕ} {fd m ret : ℤ} (hs : steps F s (.resume tid env) o t)
    (hpc : s.waits tid = .woken c fd m ret) :
    ∃ ans, waitComplete F s.phys fd m ret (s.comms c).config env = some (ans, t.phys) ∧
      o.ans = some ans ∧ (t.comms c).stats = (s.comms c).stats.add ans.stats ∧
      t.waits tid = .leaving c ans.ret := by
  have h : waitFinish F s tid c fd m ret env = .ok (o, t) := by
    have hw : waitStep F s tid env = .ok (o, t) := hs
    rwa [waitStep, hpc] at hw
  unfold waitFinish at h
  dsimp only at h
  split at h
  · cases h
  · rename_i ans ph hcall
    cases h
    exact ⟨ans, hcall, rfl, by simp, by simp⟩

/-- A wait that completes adds what the operation owes, and at most the time it has measured. -/
theorem Charged.completed (h : Charged F e.pre c n) (hf : Flight F e.pre)
    (hs : steps F e.pre e.act e.out e.post) (hcal : Calibrated F e) {tid : ℕ} {fd m ret : ℤ}
    (hact : e.act = .resume tid env) (hpc : e.pre.waits tid = .woken c fd m ret) :
    Charged F e.post c (n + spent F c e) := by
  rw [hact] at hs
  obtain ⟨ans, hcall, hout, hstats, hleft⟩ := completes_of_steps hs hpc
  obtain ⟨k, hget, -⟩ := waitComplete_cases hcall
  obtain ⟨hfly, rfl, hk⟩ := hf.woken_loan hpc hget
  have hw : worksFor e = some c := by simp only [worksFor, hact, hpc, WaitPc.comm]
  refine .of_not_inFlight (fun hfly' => hfly'.pending tid _ hleft) ?_
  rw [hstats]
  refine (toNat_add_le _ _).trans ?_
  rcases waitComplete_measures hcall hget with hzero | ⟨rfl, hret, hlat⟩
  · rw [hzero]
    exact h.stats.trans (Nat.le_add_right n _)
  have howed := h.loan hfly k hk
  have hle : ∀ t1 t2, (t1, t2) ∈ sections F e →
      (computeLatency e.pre.phys.clockError t1 t2).toNat ≤ (t2 - t1).toNat := fun _ _ hx =>
    UInt64.le_iff_toNat_le.mp (computeLatency_le_iff.mpr (hcal _ hx).1)
  rw [spent, if_pos hw, hlat]
  refine (Nat.add_le_add_left ((toNat_add_le _ _).trans (Nat.add_le_add_right (toNat_add_le _ _) _)) _).trans ?_
  by_cases hread : (e.pre.phys.actives (portOf F (e.pre.comms c).config.fd).1).resource.isReadable = true
  · have hsec : sections F e = [(env.clock 0, env.clock 1), (env.clock 2, env.clock 3)] := by
      simp [sections, hact, hout, hpc, hread, hret]
    have h₁ := hle (env.clock 0) (env.clock 1) (by simp [hsec])
    have h₂ := hle (env.clock 2) (env.clock 3) (by simp [hsec])
    rw [hsec, if_pos hread]
    simp only [List.map_cons, List.map_nil, List.sum_cons, List.sum_nil]
    omega
  · have hsec : sections F e = [(env.clock 0, env.clock 1)] := by
      simp [sections, hact, hout, hpc, hread]
    have h₁ := hle (env.clock 0) (env.clock 1) (by simp [hsec])
    rw [hsec, if_neg hread]
    simp only [List.map_cons, List.map_nil, List.sum_cons, List.sum_nil, UInt64.toNat_zero]
    omega

/-- One step adds at most the time it has measured for the communicator. -/
theorem Charged.step (h : Charged F e.pre c n) (hf : Flight F e.pre)
    (hs : steps F e.pre e.act e.out e.post) (hcal : Calibrated F e) :
    Charged F e.post c (n + spent F c e) := by
  have hoperated : ∀ {ty env ans status}, Operates ty c env ans e → ans.ret = .ok status →
      e.post.comms c = (e.pre.comms c).operated status ans.stats →
      Charged F e.post c (n + spent F c e) := h.operated hf hs hcal
  have hcompleted : ∀ {env tid fd m ret}, e.act = .resume tid env →
      e.pre.waits tid = .woken c fd m ret → Charged F e.post c (n + spent F c e) :=
    h.completed hf hs hcal
  have hmore : n ≤ n + spent F c e := Nat.le_add_right n _
  obtain ⟨s, act, o, t⟩ := e
  dsimp only at h hf hs hoperated hcompleted ⊢
  -- a communicator that is not busy afterwards and keeps its statistics
  have hidle : (t.comms c).resource.busy = false → (t.comms c).stats = (s.comms c).stats →
      Charged F t c (n + spent F c ⟨s, act, o, t⟩) := fun hbusy hstats =>
    .of_not_inFlight (not_inFlight_of_idle hbusy) (by rw [hstats]; exact h.stats.trans hmore)
  -- a step that is about another communicator
  have hother : t.comms c = s.comms c →
      (∀ tid ret, s.waits tid = .leaving c ret → t.waits tid = .leaving c ret) →
      Undisturbed F s t c → Charged F t c (n + spent F c ⟨s, act, o, t⟩) := fun hcomm hwaits hphys =>
    (h.keep hf (by rw [hcomm]) (by rw [hcomm]) hwaits hphys).mono hmore
  -- a step that changes neither the flight nor the statistics of a communicator
  have hset : ∀ {id x}, t.comms = update s.comms id x → x.activity = (s.comms id).activity →
      x.stats = (s.comms id).stats →
      (∀ tid ret, s.waits tid = .leaving c ret → t.waits tid = .leaving c ret) → t.phys = s.phys →
      Charged F t c (n + spent F c ⟨s, act, o, t⟩) := by
    intro id x hcomms hact hstats hwaits hphys
    refine (h.keep hf ?_ ?_ hwaits (.refl hphys)).mono hmore <;> rw [hcomms] <;>
      rcases eq_or_ne c id with rfl | hne
    · rwa [update_self]
    · rw [update_of_ne hne]
    · rwa [update_self]
    · rw [update_of_ne hne]
  cases steps_cases hs with
  | quiet => exact h.mono hmore
  | opened _ _ _ _ _ ho =>
    cases ho with
    | opened => exact hother rfl (fun _ _ hl => hl) (.of_phys .openPort fun _ => rfl)
  | @allocated ty cfg id env hpc hid hfree =>
    rcases eq_or_ne c id with rfl | hne
    · refine .of_not_inFlight (not_inFlight_of_idle ?_) ?_ <;> simp [Communicator.fresh]
    · exact hother (by simp [update_of_ne hne]) (fun _ _ hl => hl) (.refl rfl)
  | exhausted | counted | denied => exact hother rfl (fun _ _ hl => hl) (.refl rfl)
  | rolledBack env hpc hv ho =>
    cases ho with
    | closed => exact hother rfl (fun _ _ hl => hl) (.of_phys .closePort fun _ => rfl)
  | @freed call id ty ph hmaster hcall hid hused hfits hbusy hv ho =>
    rcases eq_or_ne c id with rfl | hne
    · exact hidle (by simpa using hbusy) (by simp)
    · cases ho with
      | closed =>
        exact hother (by simp [update_of_ne hne]) (fun _ _ hl => hl)
          (.of_phys .closePort fun _ => rfl)
  | granted | noted | remoteSet | allowed => exact hset rfl rfl rfl (fun _ _ hl => hl) rfl
  | @failed ty id env ans ph err hpc hused hfits hbusy ho hret =>
    rcases eq_or_ne c id with rfl | hne
    · exact hidle hbusy rfl
    · exact hother rfl (fun _ _ hl => hl) (hf.undisturbed_operate hpc hused hfits ho rfl hne)
  | @operated ty id env ans ph status hpc hused hfits hbusy ho hret =>
    rcases eq_or_ne c id with rfl | hne
    · exact hoperated ⟨rfl, hpc, rfl⟩ hret (by simp)
    · exact hother (by simp [update_of_ne hne]) (fun _ _ hl => hl)
        (hf.undisturbed_operate hpc hused hfits ho rfl hne)
  | checked hpc => exact hother rfl (fun _ _ => leaving_setWait rfl (by simp [hpc])) (.refl rfl)
  | @collected tid id o pc hpc hid hused hbusy hfin hans hnext =>
    rcases eq_or_ne c id with rfl | hne
    · apply hidle <;> simp [Communicator.released]
    · exact hother (by simp [update_of_ne hne])
        (fun _ _ => leaving_setWait rfl (by simp [hpc])) (.refl rfl)
  | rejected env hpc => exact hother rfl (fun _ _ => leaving_setWait rfl (by simp [hpc])) (.refl rfl)
  | entered env hpc => exact hother rfl (fun _ _ => leaving_setWait rfl (by simp [hpc])) (.refl rfl)
  | woken env hpc =>
    exact hother rfl (fun _ _ => leaving_setWait rfl (by simp [hpc]))
      (.of_phys .hwWait hwWait_latency)
  | @completed tid id k fd m ret ans ph env hpc hget ho =>
    rcases eq_or_ne c id with rfl | hne
    · exact hcompleted rfl hpc
    · exact hother (by simp [update_of_ne hne])
        (fun _ _ => leaving_setWait rfl (by simp [hpc])) (hf.undisturbed_completed hpc hget ho rfl hne)
  | @left tid id ret o env hpc hret hans =>
    rcases eq_or_ne c id with rfl | hne
    · apply hidle <;> simp [Communicator.released]
    · exact hother (by simp [update_of_ne hne])
        (fun _ _ => leaving_setWait rfl (by simp [hpc, hne.symm])) (.refl rfl)
  | @succeeded tid id o pc env hpc hans hnext =>
    rcases eq_or_ne c id with rfl | hne
    · apply hidle <;> simp [Communicator.released, Communicator.succeeded]
    · exact hother (by simp [update_of_ne hne])
        (fun _ _ => leaving_setWait rfl (by simp [hpc, hne.symm])) (.refl rfl)
  | reset env hpc cfg hcfg =>
    refine hset rfl ?_ rfl (fun _ _ => leaving_setWait rfl (by simp [hpc])) rfl
    rcases hcfg with rfl | ⟨-, rfl⟩ <;> rfl

/-! ### Runs -/

variable {tr : List (Event State Act Out)}

/-- The bill of a communicator over a stretch of a run. -/
theorem Charged.run (h : Charged F s c n) (hrun : Run (steps F) s tr t)
    (hcal : ∀ e ∈ tr, Flight F e.pre ∧ Calibrated F e) : Charged F t c (n + elapsed F c tr) := by
  refine hrun.past (P := fun _ e => Flight F e.pre ∧ Calibrated F e)
    (J := fun l u => Charged F u c (n + elapsed F c l)) h (fun l e r htr => hcal e (by simp [htr])) ?_
  intro l e hs ⟨hf, hc⟩ hl
  rw [elapsed_append, elapsed_singleton, ← Nat.add_assoc]
  exact hl.step hf hs hc

/-- Over a run in which the waits on a communicator do not overlap: every contribution is at most
the interval it was computed from, a read adds no more than its own interval even if its message was
stored, and the latency keeps to the clock time, if and only if every event is calibrated. While no
latency wraps around, the contributions and the clock time alone tell. -/
theorem latency_bounded_iff (h : Runs F tr s) (hn : ∀ e ∈ tr, NoOverlap e) :
    ((∀ e ∈ tr, ∀ x ∈ sections F e,
        computeLatency e.pre.phys.clockError x.1 x.2 ≤ x.2 - x.1 ∧
        (handed F e).toNat + (computeLatency e.pre.phys.clockError x.1 x.2).toNat ≤
          (x.2 - x.1).toNat) ∧ KeepsToTime F tr ↔ ∀ e ∈ tr, Calibrated F e) ∧
    ((∀ e ∈ tr, AddsUp F e) →
      ((∀ e ∈ tr, ∀ x ∈ sections F e, computeLatency e.pre.phys.clockError x.1 x.2 ≤ x.2 - x.1) ∧
        KeepsToTime F tr ↔ ∀ e ∈ tr, Calibrated F e)) := by
  have htime : (∀ e ∈ tr, Calibrated F e) → KeepsToTime F tr := by
    intro hcal l w r s₁ s₂ c htr hrun hidle
    have hstart : Charged F s₁ c (s₁.comms c).stats.latency.toNat := .of_not_inFlight hidle le_rfl
    refine (hstart.run hrun fun e he => ?_).stats
    have hmem : e ∈ tr := by rw [htr]; simp [he]
    exact ⟨(flight_event h hn hmem).1, hcal e hmem⟩
  refine ⟨⟨?_, fun hcal => ⟨fun e he x hx => ?_, htime hcal⟩⟩, fun hadd => ⟨?_, fun hcal =>
    ⟨fun e he x hx => computeLatency_le_iff.mpr (hcal e he x hx).1, htime hcal⟩⟩⟩
  · rintro ⟨hevent, -⟩ e he x hx
    exact handed_add_le_iff.mp (hevent e he x hx).2
  · exact ⟨computeLatency_le_iff.mpr (hcal e he x hx).1, handed_add_le_iff.mpr (hcal e he x hx)⟩
  · rintro ⟨hle, hgrow⟩ e he
    obtain ⟨hf, hs⟩ := flight_event h hn he
    refine calibrated_of_growth hf hs (hadd e he) (hle e he) fun c hidle => ?_
    -- the stretch of this event alone
    obtain ⟨l, r, rfl⟩ := List.append_of_mem he
    have hone := hgrow l [e] r e.pre e.post c (by simp) (.cons hs .nil) hidle
    rwa [elapsed_singleton] at hone

/-- A clock that reads `t1` first and `t2` from then on. -/
def readings (t1 t2 : UInt64) : Env := { clock := fun i => if i = 0 then t1 else t2 }

/-- A mailbox of the node itself and one that writes to it: the message is stored by the write and
taken by the read. -/
def timedExchange (write read : Env) : List Act :=
  [.call (.create 0 3), .master {}, .master {}, .call (.open 0 0 3), .master {}, .master {},
    .call (.awrite 1 64 1), .master write, .call (.aread 0 64 1), .master {}, .master read]

/-- The small target, where reading the clock takes five ticks. -/
theorem quadBoot_five : Boot quadMailbox (bootState quadMailbox (fun _ => 0) 4 5) := by
  have hb := boot_of_clock (F := quadMailbox) (fun _ => 0) (fun i => 5 * UInt64.ofNat i) fun _ => le_rfl
  rwa [show sampledError (fun i => 5 * UInt64.ofNat i) quadMailbox.nodesNum = 5 by decide] at hb

theorem timedExchange_noOverlap {write read : Env} (h : Runs quadMailbox tr s)
    (hacts : tr.map (·.act) = timedExchange write read) : ∀ e ∈ tr, NoOverlap e :=
  noOverlap_of_one_thread h (by rw [hacts]; simp [timedExchange, Act.thread])

/-- With intervals of seven and six ticks the exchange is calibrated. -/
theorem latency_bounded_iff_exchange : ∃ tr s, Runs quadMailbox tr s ∧ (∀ e ∈ tr, NoOverlap e) ∧
    tr.flatMap (sections quadMailbox) = [(100, 107), (110, 116)] ∧
    (∀ e ∈ tr, AddsUp quadMailbox e) ∧ (∀ e ∈ tr, Calibrated quadMailbox e) ∧
    (s.comms 0).stats.latency = 3 ∧ (s.comms 0).stats.latency.toNat ≤ elapsed quadMailbox 0 tr := by
  obtain ⟨tr, s, hrun, hacts, hsec, hadd, hcal, hthree⟩ := exists_runs_of_exec quadBoot_five
    (timedExchange (readings 100 107) (readings 110 116))
    (fun r => r.1.flatMap (sections quadMailbox) = [(100, 107), (110, 116)] ∧
      (∀ e ∈ r.1, AddsUp quadMailbox e) ∧ (∀ e ∈ r.1, Calibrated quadMailbox e) ∧
      (r.2.comms 0).stats.latency = 3) (by decide +kernel)
  have hn := timedExchange_noOverlap hrun hacts
  refine ⟨tr, s, hrun, hn, hsec, hadd, hcal, hthree, ?_⟩
  obtain ⟨s₀, ⟨ph, hb, rfl⟩, hsteps⟩ := id hrun
  have hbound := ((latency_bounded_iff hrun hn).1.mpr hcal).2 [] tr [] _ s 0 (by simp) hsteps
    (not_inFlight_of_idle rfl)
  exact hbound.trans (by simp [initState])

/-- The write takes one tick, less than the clock error of five, and its contribution wraps around.
And with no clock error the read takes one tick but is charged with the three ticks of the write
as well. -/
theorem latency_exceeds_time :
    (∃ tr s, Runs quadMailbox tr s ∧ (∀ e ∈ tr, NoOverlap e) ∧ s.phys.clockError = 5 ∧
      tr.flatMap (sections quadMailbox) = [(100, 101), (102, 103)] ∧
      elapsed quadMailbox 1 tr = 1 ∧ (s.comms 1).stats.latency.toNat = 2 ^ 64 - 4) ∧
    ∃ tr s, Runs quadMailbox tr s ∧ (∀ e ∈ tr, NoOverlap e) ∧ s.phys.clockError = 0 ∧
      tr.flatMap (sections quadMailbox) = [(100, 103), (104, 105)] ∧
      elapsed quadMailbox 0 tr = 1 ∧ (s.comms 0).stats.latency = 4 := by
  constructor
  · obtain ⟨tr, s, hrun, hacts, hp⟩ := exists_runs_of_exec quadBoot_five
      (timedExchange (readings 100 101) (readings 102 103))
      (fun r => r.2.phys.clockError = 5 ∧
        r.1.flatMap (sections quadMailbox) = [(100, 101), (102, 103)] ∧
        elapsed quadMailbox 1 r.1 = 1 ∧ (r.2.comms 1).stats.latency.toNat = 2 ^ 64 - 4)
      (by decide +kernel)
    exact ⟨tr, s, hrun, timedExchange_noOverlap hrun hacts, hp⟩
  · obtain ⟨tr, s, hrun, hacts, hp⟩ := exists_runs_of_exec quadBoot_boot
      (timedExchange (readings 100 103) (readings 104 105))
      (fun r => r.2.phys.clockError = 0 ∧
        r.1.flatMap (sections quadMailbox) = [(100, 103), (104, 105)] ∧
        elapsed quadMailbox 0 r.1 = 1 ∧ (r.2.comms 0).stats.latency = 4) (by decide +kernel)
    exact ⟨tr, s, hrun, timedExchange_noOverlap hrun hacts, hp⟩

end Nanvix.Noc
