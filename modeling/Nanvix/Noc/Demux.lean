import Nanvix.Noc.Delivery
import Nanvix.Noc.Messages

/-! Demultiplexing of what the hardware delivers. All input ports of the node share
one active, so a thread may come back from the hardware with a message for another
port than its own. The message stays in the mbuffer on loan until the thread looks at
it, and then goes to the thread itself or is stored for the port it is addressed to. -/

namespace Nanvix.Noc

open Nanvix.Lib

variable {F : Facility} {u : State} {tr : List (Event State Act Out)} {e : Event State Act Out}
  {tid c k p : ℕ} {fd i ret : ℤ}

/-- Two actives do not share an mbuffer on loan. -/
theorem OnLoan.active_unique {s : Phys} {b q : ℕ} (hown : Owned F s) (h : OnLoan s b q k) {a : ℕ}
    (ha : s.lent a = some k) : b = a :=
  (hown.lent a k ha).2.2 (b, q) h.attached

/-- A thread in the hardware or back from it is the only one at its active. -/
theorem Flight.thread_unique {s : State} (h : Flight F s) {tid' c' : ℕ} (hc : InFlight s c)
    (hc' : InFlight s c') (hat : (s.waits tid).comm = some c) (hat' : (s.waits tid').comm = some c')
    (hact : (portOf F (s.comms c).config.fd).1 = (portOf F (s.comms c').config.fd).1) : tid = tid' := by
  by_cases hne : c = c'
  · subst hne
    exact h.alone tid tid' c hat hat'
  · exact absurd hact (h.actives_differ hc' hc hne)

/-- What a thread has received is not changed by the other threads and calls. -/
theorem Flight.message_of_woken (h : Flight F e.pre) (hs : steps F e.pre e.act e.out e.post)
    (hpre : e.pre.waits tid = .woken c fd i ret) (hpost : e.post.waits tid = .woken c fd i ret)
    (hk : OnLoan e.pre.phys (portOf F fd).1 (portOf F fd).2 k) :
    (e.post.phys.mbuffers k).message = (e.pre.phys.mbuffers k).message := by
  obtain ⟨s, act, o, t⟩ := e
  dsimp only at h hs hpre hpost hk ⊢
  have hheld := h.owned.held_of_lent hk.lent
  have hused : (s.phys.mbuffers k).resource.used = true := (h.owned.lent _ k hk.lent).1
  have hfly : InFlight s c ∧ fd = (s.comms c).config.fd := by
    have hp := h.placed tid
    rw [hpre] at hp
    exact ⟨hp.1, hp.2.1⟩
  have hat : (s.waits tid).comm = some c := by rw [hpre]; rfl
  have hop : ∀ {cfg env ty ans ph}, CommOutcome F s cfg env ty ans ph →
      (ph.mbuffers k).message = (s.phys.mbuffers k).message := by
    intro cfg env ty ans ph ho
    cases ho with
    | aread hv ho =>
      rcases ho.message k with hsame | ⟨hfree, -⟩
      · exact hsame
      · rw [hheld] at hfree
        cases hfree
    | awrite hv ho =>
      rcases ho.message k with ⟨hsame, -⟩ | ⟨hfree, -⟩
      · exact hsame
      · rw [hused] at hfree
        cases hfree
  cases steps_cases hs with
  | opened hidle hcall hlocal hport hrem ho => cases ho; rfl
  | rolledBack env hpc hv ho => cases ho; rfl
  | freed hidle hcall hid hused hfits hbusy hv ho => cases ho; rfl
  | failed hpc hu hfits hbusy ho hret => exact hop ho
  | operated hpc hu hfits hbusy ho hret => exact hop ho
  | @woken tid' c' fd' i' env hpc =>
    change ((hwWait s.phys (portOf F fd').1 env).mbuffers k).message = _
    rw [hwWait_message, if_neg]
    rintro ⟨hlent, -, -⟩
    -- only one thread is at the active, and that one is not in the hardware any more
    have hp := h.placed tid'
    rw [hpc] at hp
    have hact : (portOf F fd).1 = (portOf F fd').1 := hk.active_unique h.owned hlent
    rw [hfly.2, hp.2.1] at hact
    obtain rfl := h.thread_unique hfly.1 hp.1 hat (by rw [hpc]; rfl) hact
    rw [hpre] at hpc
    cases hpc
  | @completed tid' c' k' fd' i' ret' ans ph env hpc hget ho =>
    rcases ho.message k with hsame | ⟨rfl, -⟩
    · exact hsame
    · obtain ⟨hf', hfd', hk'⟩ := h.woken_loan hpc hget
      have hact : (portOf F fd).1 = (portOf F fd').1 := hk.active_unique h.owned hk'.lent
      rw [hfly.2, hfd'] at hact
      obtain rfl := h.thread_unique hfly.1 hf' hat (by rw [hpc]; rfl) hact
      simp at hpost
  | _ => rfl

/-- A thread comes back from the hardware in one kind of step. -/
theorem woken_of_step (hs : steps F e.pre e.act e.out e.post)
    (hpost : e.post.waits tid = .woken c fd i ret) :
    (∃ env, e.act = .resume tid env ∧ e.pre.waits tid = .blocked c fd i ∧ env.hwRet = ret ∧
        e.post.phys = hwWait e.pre.phys (portOf F fd).1 env) ∨
      e.pre.waits tid = .woken c fd i ret := by
  by_cases ht : e.act.thread = some tid
  · obtain ⟨s, act, o, t⟩ := e
    dsimp only at hs hpost ht ⊢
    cases steps_cases hs with
    | quiet => exact .inr hpost
    | @woken tid' c' fd' i' env hpc =>
      obtain rfl : tid' = tid := Option.some.inj ht
      obtain ⟨rfl, rfl, rfl, rfl⟩ : c' = c ∧ fd' = fd ∧ i' = i ∧ env.hwRet = ret := by
        simpa using hpost
      exact .inl ⟨env, rfl, hpc, rfl, rfl⟩
    | collected hpc hid hused hbusy hfin hans hnext =>
      obtain rfl := Option.some.inj ht
      rcases hnext with rfl | rfl <;> simp at hpost
    | succeeded env hpc hans hnext =>
      obtain rfl := Option.some.inj ht
      rcases hnext with rfl | rfl <;> simp at hpost
    | checked | rejected | entered | completed | left | reset =>
      obtain rfl := Option.some.inj ht
      simp at hpost
    | _ => cases ht
  · exact .inr ((waits_of_step hs tid ht).symm.trans hpost)

/-- What a thread has received from the hardware is in the mbuffer on loan until the thread
looks at it. -/
theorem received_message (h : Runs F tr u) (hn : ∀ e ∈ tr, NoOverlap e)
    (hpc : u.waits tid = .woken c fd i 0)
    (hin : (u.phys.actives (portOf F fd).1).resource.isReadable = true) :
    ∃ l e r env k, tr = l ++ e :: r ∧ e.act = .resume tid env ∧ e.pre.waits tid = .blocked c fd i ∧
      env.hwRet = 0 ∧ (∀ x ∈ r, x.post.waits tid = x.pre.waits tid) ∧ i = (k : ℕ) ∧
      (u.phys.mbuffers k).message = env.arrived := by
  have hflight := fun e he => flight_event h hn (e := e) he
  have hend := flight_runs h hn
  obtain ⟨s₀, h₀, hrun⟩ := h
  have hidle : ¬ s₀.waits tid = .woken c fd i 0 := by
    obtain ⟨ph, -, rfl⟩ := h₀
    simp [initState]
  obtain ⟨l, e, r, rfl, ⟨env, hact, hpre, hret, hphys⟩, -, hstay⟩ :=
    hrun.since (Q := fun s => s.waits tid = .woken c fd i 0) hidle hpc
      fun x hx hpost => woken_of_step (hflight x hx).2 hpost
  obtain ⟨hf, -⟩ := hflight e (by simp)
  have hp := hf.placed tid
  rw [hpre] at hp
  obtain ⟨-, -, k, rfl, hk⟩ := hp
  refine ⟨l, e, r, env, k, rfl, hact, hpre, hret, fun x hx => ?_, rfl, ?_⟩
  · rw [(hstay x hx).1, (hstay x hx).2]
  · -- the hardware has written the message, and nothing has touched it since
    refine hrun.at_event.2.2.invariant (P := fun x => x ∈ r)
      (I := fun s => (s.phys.mbuffers k).message = env.arrived) ?_ (fun x hx => hx) ?_
    · have hin' := hf.accounts.setup.readable_iff.mpr (hend.accounts.setup.readable_iff.mp hin)
      rw [hphys, hwWait_message, if_pos ⟨hk.lent, hin', hret⟩]
    · intro x hs hx hi
      obtain ⟨hfx, -⟩ := hflight x (by simp [hx])
      obtain ⟨hxpre, hxpost⟩ := hstay x hx
      have hpx := hfx.placed tid
      rw [hxpre] at hpx
      obtain ⟨-, -, j, hj, hkj⟩ := hpx
      obtain rfl : k = j := by exact_mod_cast hj
      exact (hfx.message_of_woken hs hxpre hxpost hkj).trans hi

/-- A thread that is back from the hardware gets through the last section of `active_wait`. -/
theorem Flight.finishes {s : State} (h : Flight F s) (hpc : s.waits tid = .woken c fd i ret)
    (env : Env) :
    ∃ k ans ph t, i = (k : ℕ) ∧ (s.phys.mbuffers k).held = true ∧
      WaitOutcome F s.phys (portOf F fd).1 (portOf F fd).2 k ret (s.comms c).config ans ph ∧
      t.phys = ph ∧ Noc.step F s (.resume tid env) = .ok ({ ans := some ans }, t) := by
  have hno := h.no_kassert (.resume tid env)
  simp only [Noc.step, waitStep, hpc, waitFinish] at hno ⊢
  cases hw : waitComplete F s.phys fd i ret (s.comms c).config env with
  | none => exact absurd (by rw [hw]) hno
  | some r =>
    obtain ⟨ans, ph⟩ := r
    obtain ⟨k, hget, ho⟩ := waitComplete_cases hw
    obtain ⟨-, -, hk⟩ := h.woken_loan hpc hget
    have hp := h.placed tid
    rw [hpc] at hp
    obtain ⟨-, -, j, rfl, hj⟩ := hp
    obtain rfl := Option.some.inj (hk.lent.symm.trans hj.lent)
    exact ⟨k, ans, ph, _, rfl, h.owned.held_of_lent hk.lent, ho, rfl, rfl⟩

/-- The hardware only hands over messages that are addressed to a port of the node. -/
def Addressed (F : Facility) (e : Event State Act Out) : Prop :=
  ∀ tid env c fd i, e.act = .resume tid env → e.pre.waits tid = .blocked c fd i →
    (e.pre.phys.actives (portOf F fd).1).resource.isReadable = true → env.hwRet = 0 →
    ∃ p < F.portNr, env.arrived.header.dest = laddressCompose F F.node p

/-- The header of a message to port `p` passes the check of the reader on port `q` if that
is the same port and its filter accepts the source. -/
theorem headerCheck_iff {m : Message} {cfg : Config} {q : ℕ} (hp : p < F.portNr) (hq : q < F.portNr)
    (hdest : m.header.dest = laddressCompose F F.node p)
    (hloc : cfg.localAddr = laddressCompose F F.node q) :
    headerCheck F m.header cfg = true ↔ q = p ∧ sourceCheck F m.header cfg.remoteAddr = true := by
  rw [headerCheck, Bool.and_eq_true, beq_iff_eq, hdest, hloc]
  refine and_congr_left fun _ => ⟨fun h => (compose_inj hp hq h).2.symm, fun h => by rw [h]⟩

/-- A message for port `p` in use goes to the reader on the port, if there its filter
accepts it, and is stored otherwise. -/
theorem WaitOutcome.demux {s t : Phys} {cfg : Config} {ans : Answer} {q : ℕ}
    (ho : WaitOutcome F s 0 q k 0 cfg ans t) (hheld : (s.mbuffers k).held = true)
    (hread : (s.actives 0).resource.isReadable = true) (hp : p < F.portNr) (hq : q < F.portNr)
    (hdest : (s.mbuffers k).message.header.dest = laddressCompose F F.node p)
    (hloc : cfg.localAddr = laddressCompose F F.node q)
    (hused : (s.ports (0, p)).resource.used = true) :
    (q = p ∧ sourceCheck F (s.mbuffers k).message.header cfg.remoteAddr = true ∧
        ans.ret = .ok .success ∧ t.slot = s.slot ∧
        ans.copied = some (cfg.buffer, (s.mbuffers k).message.data.take cfg.size)) ∨
      (¬ (q = p ∧ sourceCheck F (s.mbuffers k).message.header cfg.remoteAddr = true) ∧
        ans.ret = .ok .again ∧ ans.copied = none ∧ ∃ m, KeptFor s t k m) := by
  have hcheck := headerCheck_iff hp hq hdest hloc
  simp only [Mbuffer.held, Bool.and_eq_true, Bool.not_eq_true'] at hheld
  cases ho with
  | failed hret => exact absurd rfl hret
  | consumed hret _ hc l l' =>
    obtain ⟨hqp, hsrc⟩ := hcheck.mp hc
    exact .inl ⟨hqp, hsrc, rfl, (discard_slot hheld.2 l).1, rfl⟩
  | ignored hret _ hc keep hkeep l =>
    have hport : getPortid F (s.mbuffers k).message.header.dest = p := by
      rw [hdest, getPortid_compose hp]
    rw [hport] at hkeep
    obtain rfl : keep = true := (hkeep (by omega) (by omega)).trans hused
    refine .inr ⟨fun hboth => ?_, rfl, rfl, keep_slot hheld.1 hheld.2 l⟩
    rw [hcheck.mpr hboth] at hc
    cases hc
  | written hret hwrite hturn l => simp_all [Resource.isReadable, Resource.isWritable]
  | plain hret hno hwrite l =>
    rw [hread] at hno
    cases hno

/-- A read that returns a message to port `p` is a read on port `p`. -/
theorem Flight.reads_port {m : Mbuffer} (h : Flight F e.pre) (hs : steps F e.pre e.act e.out e.post)
    (hr : Reads F c k m e) (hp : p < F.portNr)
    (hdest : m.message.header.dest = laddressCompose F F.node p) :
    portOf F (e.pre.comms c).config.fd = (0, p) := by
  obtain ⟨env, ans, hop, hret⟩ := hr
  obtain ⟨hused, hfits, -⟩ := h.outcome hs hop
  obtain ⟨-, ty, a, q, hfits', hb, hloc⟩ := h.accounts.comm c hused
  obtain rfl := fits_unique hfits hfits'
  obtain rfl : a = 0 := hb.input_iff.mp rfl
  have hq : p = q := (compose_inj hp hb.port_lt (hdest.symm.trans (hret.accepted.1.trans hloc))).2
  rw [hq, hb.portOf_eq]

theorem slot_lt {m : Mbuffer} (h : Runs F tr u) (hn : ∀ e ∈ tr, NoOverlap e)
    (hk : u.phys.slot k = some m) : k < F.mbufferMax := by
  obtain ⟨w, hw, hst⟩ := stored_of_runs h hn hk
  exact ((storeEvent_of_mem h hn hw).stamp hst).2.2

/-- An input port with a message stored for it is not released. -/
theorem Flight.release_busy {s : State} {m : Mbuffer} (h : Flight F s) (hp : p < F.portNr)
    (hk : s.phys.slot k = some m) (hlt : k < F.mbufferMax)
    (hdest : m.message.header.dest = laddressCompose F F.node p) :
    activeRelease F s.phys (laddressCompose F (0 : ℕ) p) = some (.error .EBUSY, s.phys) := by
  have hset := h.accounts.setup
  have hact : (s.phys.actives 0).resource.used = true := hset.used_iff.mpr (Nat.zero_le _)
  have hread : (s.phys.actives 0).resource.isReadable = true := hset.readable_iff.mpr rfl
  have hport : portOf F (laddressCompose F (0 : ℕ) p) = (0, p) := by
    rw [portOf, getActid_compose hp, getPortid_compose hp]
    rfl
  have hvalid : activeValidCall F (laddressCompose F (0 : ℕ) p) = true := by
    have := F.nodesNum_lt
    rw [activeValidCall, getActid_compose hp, getPortid_compose hp]
    simp only [Bool.and_eq_true, decide_eq_true_eq]
    omega
  obtain ⟨hkept, rfl⟩ := slot_eq_some.mp hk
  have hfound : (mbufferSearch F .principal (laddressCompose F F.node p) (-1) s.phys).isSome = true := by
    rw [Option.isSome_iff_ne_none, ne_eq, mbufferSearch_none_iff_kept]
    exact fun hall => hall k hlt hkept hdest
  simp only [activeRelease, hvalid, hport, hact, hread, hset.localNode hact, getPortid_compose hp,
    hfound, Bool.not_true, Bool.false_eq_true, if_false, Bool.and_self, if_true]

/-- Demultiplexing loses nothing that is addressed to a port in use. -/
theorem demux_loses_nothing (h : Runs F tr u) (hn : ∀ e ∈ tr, NoOverlap e)
    (hhw : ∀ e ∈ tr, Addressed F e) :
    -- a thread that is back from the hardware on an input port has received a message, which
    -- it gets itself or stores if the port it is for is in use
    (∀ tid c fd i, u.waits tid = .woken c fd i 0 →
        (u.phys.actives (portOf F fd).1).resource.isReadable = true →
        ∃ l e r env₀ p, tr = l ++ e :: r ∧ e.act = .resume tid env₀ ∧
          e.pre.waits tid = .blocked c fd i ∧ (∀ x ∈ r, x.post.waits tid = x.pre.waits tid) ∧
          p < F.portNr ∧ env₀.arrived.header.dest = laddressCompose F F.node p ∧
          ∀ env, ∃ ans t, step F u (.resume tid env) = .ok ({ ans := some ans }, t) ∧
            ((u.phys.ports (0, p)).resource.used = true →
              ((portOf F fd).2 = p ∧
                  sourceCheck F env₀.arrived.header (u.comms c).config.remoteAddr = true ∧
                  ans.copied = some ((u.comms c).config.buffer,
                    env₀.arrived.data.take (u.comms c).config.size) ∧
                  t.phys.slot = u.phys.slot) ∨
                (¬ ((portOf F fd).2 = p ∧
                    sourceCheck F env₀.arrived.header (u.comms c).config.remoteAddr = true) ∧
                  ans.copied = none ∧ ∃ k m, m.message = env₀.arrived ∧ u.phys.slot k = none ∧
                    t.phys.slot = Function.update u.phys.slot k (some m)))) ∧
      -- what is stored stays until a read on its port takes it
      (∀ l e r, tr = l ++ e :: r → ∀ k m p, Stores e k m → p < F.portNr →
        m.message.header.dest = laddressCompose F F.node p →
        Lives (fun s : State => s.phys.slot)
          (fun e' => ∃ c, Reads F c k m e' ∧ portOf F (e'.pre.comms c).config.fd = (0, p)) k m r) ∧
      -- which happens once
      (∀ l₁ e₁ l₂ e₂ l₃, tr = l₁ ++ e₁ :: (l₂ ++ e₂ :: l₃) → ∀ c₁ c₂ k m, Reads F c₁ k m e₁ →
        Reads F c₂ k m e₂ → ∃ w ∈ l₂, Stores w k m) ∧
      -- and the port is not released before
      ∀ k m p, u.phys.slot k = some m → p < F.portNr →
        m.message.header.dest = laddressCompose F F.node p →
        activeRelease F u.phys (laddressCompose F (0 : ℕ) p) = some (.error .EBUSY, u.phys) := by
  have hend := flight_runs h hn
  refine ⟨fun tid c fd i hpc hin => ?_, fun l e r htr k m p hst hp hdest => ?_,
    fun l₁ e₁ l₂ e₂ l₃ htr c₁ c₂ k m h₁ h₂ => stored_between_reads h hn htr h₁ h₂,
    fun k m p hk hp hdest => hend.release_busy hp hk (slot_lt h hn hk) hdest⟩
  · obtain ⟨l, e, r, env₀, k, htr, hact, hpre, hret, hstay, hk, hmsg⟩ := received_message h hn hpc hin
    have he : e ∈ tr := by rw [htr]; simp
    obtain ⟨hf, -⟩ := flight_event h hn he
    have hzero : (portOf F fd).1 = 0 := hend.accounts.setup.readable_iff.mp hin
    obtain ⟨p, hp, hdest⟩ := hhw e he tid env₀ c fd i hact hpre
      (hf.accounts.setup.readable_iff.mpr hzero) hret
    refine ⟨l, e, r, env₀, p, htr, hact, hpre, hstay, hp, hdest, fun env => ?_⟩
    obtain ⟨j, ans, ph, t, hj, hheld, ho, hph, hstep⟩ := hend.finishes hpc env
    refine ⟨ans, t, hstep, fun hused => ?_⟩
    obtain rfl : k = j := by exact_mod_cast hk.symm.trans hj
    -- the reader's own address is the one of its port
    have hplaced := hend.placed tid
    rw [hpc] at hplaced
    obtain ⟨hfly, rfl, -⟩ := hplaced
    obtain ⟨-, ty, a, q, -, hb, hloc⟩ := hend.accounts.comm c hfly.used
    rw [hb.portOf_eq] at hzero ho ⊢
    obtain rfl : a = 0 := hzero
    rw [← hmsg] at hdest ⊢
    rcases ho.demux hheld (hend.accounts.setup.readable_iff.mpr rfl) hp hb.port_lt hdest hloc hused with
      ⟨hq, hsrc, -, hslot, hcopy⟩ | ⟨hno, -, hcopy, m, hkept⟩
    · exact .inl ⟨hq, hsrc, hcopy, by rw [hph, hslot]⟩
    · exact .inr ⟨hno, hcopy, k, m, hkept.message, hkept.free, by rw [hph, hkept.slots]⟩
  · have hlives := stored_lives h hn htr hst
    rcases hlives with hall | ⟨l', e', r', hr, hl', hpre, hpost, c, hread⟩
    · exact .inl hall
    · obtain ⟨hf, hs⟩ := flight_event h hn (e := e') (by rw [htr, hr]; simp)
      exact .inr ⟨l', e', r', hr, hl', hpre, hpost, c, hread, hf.reads_port hs hread hp hdest⟩

/-- The address of the message that the hardware has during an action. -/
def Act.dest : Act → Option ℤ
  | .resume _ env => some env.arrived.header.dest
  | _ => none

theorem addressed_of_dest (hp : p < F.portNr)
    (h : ∀ a ∈ tr.map (·.act), a.dest = none ∨ a.dest = some (laddressCompose F F.node p)) :
    ∀ e ∈ tr, Addressed F e := by
  intro e he tid env c fd i hact _ _ _
  rcases h e.act (List.mem_map_of_mem he) with hd | hd <;> rw [hact] at hd
  · cases hd
  · exact ⟨p, hp, Option.some.inj hd⟩

/-- A thread that waits on port 3 receives a message for port 5. -/
theorem demux_loses_nothing_stored : ∃ tr s, Runs quadMailbox tr s ∧ (∀ e ∈ tr, NoOverlap e) ∧
    (∀ e ∈ tr, Addressed quadMailbox e) ∧ s.waits 0 = .woken 0 3 0 0 ∧
    ∃ ans t, step quadMailbox s (.resume 0 {}) = .ok ({ ans := some ans }, t) ∧
      ans.copied = none ∧ ∃ k m, m.message.header.dest = 5 ∧ t.phys.slot k = some m := by
  obtain ⟨tr, s, hrun, hacts, hpc, hin, hused⟩ := exists_runs_of_exec quadBoot_boot
    (wholeOpen (.create 0 3) ++ wholeOpen (.create 0 5) ++ [.call (.aread 0 64 1), .master {},
      .master {}, .wait 0 0, .resume 0 { arrived := { header := { dest := 5 } } },
      .resume 0 { arrived := { header := { dest := 5 } } }])
    (fun r => r.2.waits 0 = .woken 0 3 0 0 ∧
      (r.2.phys.actives (portOf quadMailbox 3).1).resource.isReadable = true ∧
      (r.2.phys.ports (0, 5)).resource.used = true) (by decide +kernel)
  have hn := noOverlap_of_one_thread hrun (by rw [hacts]; decide)
  have hdests : ∀ a ∈ tr.map (·.act), a.dest = none ∨ a.dest = some 5 := by rw [hacts]; decide
  have hhw : ∀ e ∈ tr, Addressed quadMailbox e := addressed_of_dest (p := 5) (by decide) hdests
  obtain ⟨l, e, r, env₀, p, htr, hact, -, -, hp, hdest, hdone⟩ :=
    (demux_loses_nothing hrun hn hhw).1 0 0 3 0 hpc hin
  obtain ⟨ans, t, hstep, hcases⟩ := hdone {}
  have he : e.act ∈ tr.map (·.act) := List.mem_map_of_mem (by rw [htr]; simp)
  have hfive : env₀.arrived.header.dest = 5 := by
    rcases hdests e.act he with hd | hd <;> rw [hact] at hd
    · cases hd
    · exact Option.some.inj hd
  obtain rfl : 5 = p := by
    have hport := congrArg (getPortid quadMailbox) (hfive.symm.trans hdest)
    rw [getPortid_compose hp, show getPortid quadMailbox 5 = 5 by decide] at hport
    exact_mod_cast hport
  refine ⟨tr, s, hrun, hn, hhw, hpc, ans, t, hstep, ?_⟩
  rcases hcases hused with ⟨hq, -⟩ | ⟨-, hcopy, k, m, hm, -, hslot⟩
  · exact absurd hq (by decide)
  · exact ⟨hcopy, k, m, by rw [hm, hfive], by rw [hslot, Function.update_self]⟩

end Nanvix.Noc
