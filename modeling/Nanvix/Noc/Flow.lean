import Nanvix.Lib.Count
import Nanvix.Noc.Demux
import Nanvix.Noc.Destination

/-! The way of a message through a node. The hardware hands it to a waiting thread, which gives it to
its user, stores it for another port or throws it away; a stored message is given to the user of a
later read. A message is in one place at a time, so what came in is, up to the order, what was given
to users or thrown away and what the node still has. -/

namespace Nanvix.Noc

open Nanvix.Lib Function

variable (F : Facility)

def received (e : Event State Act Out) : Option Message :=
  match e.act with
  | .resume tid env =>
    match e.pre.waits tid with
    | .blocked _ fd _ =>
      if (e.pre.phys.actives (portOf F fd).1).resource.isReadable ∧ env.hwRet = 0 then some env.arrived
      else none
    | _ => none
  | _ => none

/-- The message that a thread looks at which is back from the hardware. -/
def examined (e : Event State Act Out) : Option Message :=
  match e.act with
  | .resume tid _ =>
    match e.pre.waits tid with
    | .woken _ fd mbufferid ret =>
      if (e.pre.phys.actives (portOf F fd).1).resource.isReadable ∧ ret = 0 then
        some (e.pre.phys.mbuffers mbufferid.toNat).message
      else none
    | _ => none
  | _ => none

/-- A message that is stored in the second state and in the first one not. -/
def gained (s t : Phys) : Option Message :=
  (List.range F.mbufferMax).findSome? fun k =>
    match s.slot k, t.slot k with
    | none, some m => some m.message
    | _, _ => none

def written (e : Event State Act Out) : Option Message :=
  match e.act with
  | .master _ => gained F e.pre.phys e.post.phys
  | _ => none

def delivered (e : Event State Act Out) : Option Message :=
  if (deliveredTo e).isSome then (examined F e).or (gained F e.post.phys e.pre.phys) else none

def dropped (e : Event State Act Out) : Option Message :=
  if (deliveredTo e).isNone ∧ (gained F e.pre.phys e.post.phys).isNone then examined F e else none

def Phys.stored (s : Phys) : List Message :=
  (List.range F.mbufferMax).filterMap fun k => (s.slot k).map (·.message)

/-- A thread is back from the hardware with the message and has not looked at it yet. -/
def InHand (s : State) (x : Message) : Prop :=
  ∃ tid c fd i, s.waits tid = .woken c fd i 0 ∧
    (s.phys.actives (portOf F fd).1).resource.isReadable = true ∧ (s.phys.mbuffers i.toNat).message = x

variable {F} {s t : Phys} {k tid c : ℕ} {m : Mbuffer} {e : Event State Act Out} {env : Env} {fd i ret : ℤ}
  {x y : Message}

/-! ### Stored messages -/

theorem gained_self (h : t.slot = s.slot) : gained F s t = none := by
  unfold gained
  rw [List.findSome?_eq_none_iff]
  intro k _
  rw [h]
  cases s.slot k <;> rfl

theorem gained_update (hk : k < F.mbufferMax) (hs : s.slot k = none)
    (ht : t.slot = update s.slot k (some m)) : gained F s t = some m.message := by
  have hone : ∀ j, (match s.slot j, t.slot j with | none, some m => some m.message | _, _ => none) =
      if j = k then some m.message else none := by
    intro j
    by_cases hj : j = k
    · subst hj
      simp [ht, hs]
    · rw [ht, update_of_ne hj, if_neg hj]
      cases s.slot j <;> rfl
  unfold gained
  simp only [hone]
  cases hfound : (List.range F.mbufferMax).findSome? fun j => if j = k then some m.message else none with
  | none =>
    have hno := List.findSome?_eq_none_iff.mp hfound k (List.mem_range.mpr hk)
    simp at hno
  | some y =>
    obtain ⟨j, -, hj⟩ := List.exists_of_findSome?_eq_some hfound
    split_ifs at hj
    rw [hj]

theorem gained_update_none (hs : s.slot k = none) (ht : t.slot = update s.slot k (some m)) :
    gained F t s = none := by
  unfold gained
  rw [List.findSome?_eq_none_iff]
  intro j _
  by_cases hj : j = k
  · subst hj
    simp [ht]
  · rw [ht, update_of_ne hj]
    cases s.slot j <;> rfl

/-- The store before a message was read is the one after it with the message. -/
theorem slot_of_read (hm : s.slot k = some m) (ht : t.slot = update s.slot k none) :
    t.slot k = none ∧ s.slot = update t.slot k (some m) := by
  rw [ht, update_idem, ← hm, update_eq_self]
  exact ⟨update_self _ _ _, rfl⟩

theorem count_stored (s : Phys) (x : Message) :
    (s.stored F).count x = tally (fun o : Option Mbuffer => o.map (·.message) == some x) s.slot F.mbufferMax :=
  List.count_filterMap

/-- A message that is stored is one more. -/
theorem count_stored_update (hk : k < F.mbufferMax) (hs : s.slot k = none)
    (ht : t.slot = update s.slot k (some m)) (x : Message) :
    (t.stored F).count x = (s.stored F).count x + [m.message].count x := by
  have h := tally_update (fun o : Option Mbuffer => o.map (·.message) == some x) s.slot (some m) hk
  rw [← ht, hs] at h
  rw [count_stored, count_stored]
  by_cases hx : m.message = x <;> simpa [hx] using h

/-! ### What an event does to the messages -/

/-- The port that a message is addressed to is not in use. -/
def Unclaimed (F : Facility) (s : Phys) (x : Message) : Prop :=
  0 ≤ getPortid F x.header.dest → getPortid F x.header.dest < F.portNr →
    (s.ports (0, (getPortid F x.header.dest).toNat)).resource.used = false

/-- The ways in which messages leave the hands of a thread and go in and out of the store. -/
inductive Motion (F : Facility) (e : Event State Act Out) : Prop
  | none (hexam : examined F e = none) (hd : deliveredTo e = none)
      (hslot : e.post.phys.slot = e.pre.phys.slot)
  | written (k : ℕ) (m : Mbuffer) (env : Env) (hexam : examined F e = none) (hd : deliveredTo e = none)
      (hact : e.act = .master env) (hk : k < F.mbufferMax) (hfree : e.pre.phys.slot k = none)
      (hslot : e.post.phys.slot = update e.pre.phys.slot k (some m))
  | read (k i : ℕ) (m : Mbuffer) (hexam : examined F e = none) (hd : deliveredTo e = some i)
      (hm : e.pre.phys.slot k = some m) (hslot : e.post.phys.slot = update e.pre.phys.slot k none)
  | consumed (i : ℕ) (x : Message) (hexam : examined F e = some x) (hd : deliveredTo e = some i)
      (hslot : e.post.phys.slot = e.pre.phys.slot)
  | kept (k : ℕ) (m : Mbuffer) (hexam : examined F e = some m.message) (hd : deliveredTo e = none)
      (hact : ∀ env, e.act ≠ .master env) (hk : k < F.mbufferMax) (hfree : e.pre.phys.slot k = none)
      (hslot : e.post.phys.slot = update e.pre.phys.slot k (some m))
  | dropped (x : Message) (hexam : examined F e = some x) (hd : deliveredTo e = none)
      (hslot : e.post.phys.slot = e.pre.phys.slot) (hport : Unclaimed F e.pre.phys x)

theorem examined_of_master (h : e.act = .master env) : examined F e = none := by
  unfold examined
  rw [h]

theorem examined_woken (hact : e.act = .resume tid env)
    (hpc : e.pre.waits tid = .woken c fd k ret) :
    examined F e = if (e.pre.phys.actives (portOf F fd).1).resource.isReadable ∧ ret = 0 then
      some (e.pre.phys.mbuffers k).message else none := by
  unfold examined
  rw [hact]
  dsimp only
  rw [hpc]
  simp only [Int.toNat_natCast]

theorem examined_eq_some (h : examined F e = some x) :
    ∃ tid c fd i env, e.act = .resume tid env ∧ e.pre.waits tid = .woken c fd i 0 ∧
      (e.pre.phys.actives (portOf F fd).1).resource.isReadable = true ∧
      (e.pre.phys.mbuffers i.toNat).message = x := by
  unfold examined at h
  split at h
  · rename_i tid env hact
    split at h
    · rename_i c fd i ret hpc
      split_ifs at h with hc
      cases h
      exact ⟨tid, c, fd, i, env, hact, hc.2 ▸ hpc, hc.1, rfl⟩
    · cases h
  · cases h

/-- The last section of `active_wait` gives the message of a read to the user, stores it or throws it
away. -/
theorem Flight.motion_completed (h : Flight F e.pre) {ans : Answer} (hact : e.act = .resume tid env)
    (hpc : e.pre.waits tid = .woken c fd i ret) (hans : e.out.ans = some ans)
    (hget : mbufferGet F (e.pre.phys.ports (portOf F fd)).mbufferpool i = some k)
    (ho : WaitOutcome F e.pre.phys (portOf F fd).1 (portOf F fd).2 k ret (e.pre.comms c).config ans
      e.post.phys) : Motion F e := by
  obtain ⟨-, -, hk⟩ := h.woken_loan hpc hget
  obtain ⟨hused, hbusy, -⟩ := h.owned.lent _ k hk.lent
  obtain ⟨j, hlt, hentry, -⟩ := h.owned.entry (portOf F fd) (by rw [hk.attached]; omega)
  obtain rfl : k = j := by exact_mod_cast hk.attached.symm.trans hentry
  have hplaced := h.placed tid
  rw [hpc] at hplaced
  obtain ⟨-, -, j, rfl, hj⟩ := hplaced
  obtain rfl := Option.some.inj (hk.lent.symm.trans hj.lent)
  have hexam := examined_woken (F := F) hact hpc
  have hd := deliveredTo_resume hact hans
  rw [hpc] at hd
  generalize hph : e.post.phys = ph at ho
  have hpost : ∀ {f : ℕ → Option Mbuffer}, ph.slot = f → e.post.phys.slot = f := fun hf => by rw [hph, hf]
  cases ho with
  | failed hret =>
    refine .none ?_ hd (hpost (dropMbuffer_false (slot_of_not_busy hbusy)).1)
    rw [hexam, if_neg fun hr => hret hr.2]
  | consumed hret hread hcheck l l' =>
    exact .consumed c _ (hexam.trans (if_pos ⟨hread, hret⟩)) hd (hpost (discard_slot hbusy l).1)
  | ignored hret hread hcheck keep hkeep l =>
    have hx := hexam.trans (if_pos ⟨hread, hret⟩)
    cases keep with
    | true =>
      obtain ⟨m, hm⟩ := keep_slot (a := (portOf F fd).1) (p := (portOf F fd).2) hused hbusy l
      refine .kept k m ?_ hd (by simp [hact]) hlt hm.free (hpost hm.slots)
      rw [hx, hm.message]
    | false =>
      refine .dropped _ hx hd (hpost (discard_slot hbusy l).1) fun h0 hp => ?_
      rw [h.accounts.setup.readable_iff.mp hread] at hkeep
      exact (hkeep h0 hp).symm
  | written hret hwrite hturn l =>
    have hnone : ((e.pre.phys.addLatency k l).complete (portOf F fd).1 (portOf F fd).2).slot k = none := by
      change (e.pre.phys.addLatency k l).slot k = none
      rw [addLatency_slot hbusy, slot_of_not_busy hbusy]
    refine .none ?_ hd (hpost ((dropMbuffer_false hnone).1.trans (addLatency_slot hbusy l)))
    rw [hexam, if_neg fun hr => ?_]
    rw [not_readable hwrite] at hr
    cases hr.1
  | plain hret hread hwrite l =>
    refine .none ?_ hd (hpost (discard_slot hbusy l).1)
    rw [hexam, if_neg fun hr => ?_]
    rw [hread] at hr
    cases hr.1

/-- A read takes a message out of the store, a write puts one in, or both leave it alone. -/
theorem Flight.motion_operates (h : Flight F e.pre) (hs : steps F e.pre e.act e.out e.post) {ty : CommType}
    {ans : Answer} (hop : Operates ty c env ans e) : Motion F e := by
  have hexam := examined_of_master (F := F) hop.act
  have hd := deliveredTo_operates hop
  obtain ⟨-, -, ho⟩ := h.outcome hs hop
  have hcopied : ans.ret ≠ .ok .received → deliveredTo e = none := by
    intro hno
    rw [hd, if_neg fun hc => hno (ho.received hc).2]
  cases ho with
  | aread hv ho =>
    rcases ho.slots with ⟨hslot, -, hno⟩ | ⟨k, m, hr⟩
    · exact .none hexam (hcopied hno) hslot
    · refine .read k c m hexam ?_ hr.stored hr.slots
      rw [hd, hr.copied]
      rfl
  | awrite hv ho' =>
    rcases ho'.slots h.owned with ⟨hslot, -, hno⟩ | ⟨-, k, m, hf⟩
    · exact .none hexam (hcopied hno) hslot
    · refine .written k m env hexam ?_ hop.act hf.lt hf.free hf.slots
      rw [hd, if_neg fun hc => ?_]
      cases (CommOutcome.awrite hv ho').received hc |>.1

/-- A thread that is back from the hardware takes a step with an answer. -/
theorem Flight.answers (h : Flight F e.pre) (hs : steps F e.pre e.act e.out e.post)
    (hact : e.act = .resume tid env) (hpc : e.pre.waits tid = .woken c fd i ret) :
    e.out.ans ≠ none := by
  obtain ⟨k, ans, ph, t, -, -, -, -, hstep⟩ := h.finishes hpc env
  rw [hact, steps, hstep] at hs
  have hout : { ans := some ans } = e.out := congrArg Prod.fst (Except.ok.inj hs)
  rw [← hout]
  simp

theorem Flight.motion (h : Flight F e.pre) (hs : steps F e.pre e.act e.out e.post) : Motion F e := by
  have hstore := h.storeEvent hs
  cases hans : e.out.ans with
  | some ans =>
    rcases answer_cases hs hans with ⟨ty, c, env, hop⟩ | ⟨tid, c, env, fd, i, ret, hact, hpc⟩
    · exact h.motion_operates hs hop
    · rw [hact] at hs
      obtain ⟨k, hget, ho⟩ := waitOutcome_of_woken hs hpc hans
      exact h.motion_completed hact hpc hans hget ho
  | none =>
    have hd := deliveredTo_of_none hans
    have hexam : examined F e = none := by
      rw [Option.eq_none_iff_forall_ne_some]
      intro x hx
      obtain ⟨_, _, _, _, _, hact, hpc, -⟩ := examined_eq_some hx
      exact h.answers hs hact hpc hans
    cases hstore with
    | same hslot => exact .none hexam hd hslot
    | written c env k m ans hop => rw [hop.answer] at hans; cases hans
    | kept tid c k m hk =>
      obtain ⟨env, hact⟩ := hk.act
      obtain ⟨fd, i, ret, hpc⟩ := hk.pc
      exact absurd hans (h.answers hs hact hpc)
    | read c k m hr =>
      obtain ⟨env, ans, hop, -⟩ := hr
      rw [hop.answer] at hans
      cases hans

/-- What a thread has looked at and what was written goes to users, is thrown away, or is stored. -/
theorem balance_of_motion (h : Motion F e) (hin : ∀ k m, e.pre.phys.slot k = some m → k < F.mbufferMax)
    (x : Message) :
    (written F e).toList.count x + (examined F e).toList.count x + (e.pre.phys.stored F).count x =
      (delivered F e).toList.count x + (dropped F e).toList.count x + (e.post.phys.stored F).count x := by
  have hsame : e.post.phys.slot = e.pre.phys.slot → (e.post.phys.stored F).count x =
      (e.pre.phys.stored F).count x := fun hslot => by rw [count_stored, count_stored, hslot]
  have hwritten : gained F e.pre.phys e.post.phys = none → written F e = none := by
    intro hg
    unfold written
    split <;> simp [hg]
  cases h with
  | none hexam hd hslot =>
    have hg := gained_self (F := F) hslot
    simp [hwritten hg, hexam, delivered, dropped, hd, hsame hslot]
  | written k m env hexam hd hact hk hfree hslot =>
    have hg := gained_update hk hfree hslot
    have hw : written F e = some m.message := by
      unfold Noc.written
      rw [hact]
      exact hg
    have hcount := count_stored_update hk hfree hslot x
    simp [hw, hexam, delivered, dropped, hd, hg, hcount, Nat.add_comm]
  | read k i m hexam hd hm hslot =>
    obtain ⟨hfree, hback⟩ := slot_of_read hm hslot
    have hlost := gained_update (hin k m hm) hfree hback
    have hg := gained_update_none (F := F) hfree hback
    have hcount := count_stored_update (hin k m hm) hfree hback x
    simp [hwritten hg, hexam, delivered, dropped, hd, hlost, hcount, Nat.add_comm]
  | consumed i y hexam hd hslot =>
    have hg := gained_self (F := F) hslot
    simp [hwritten hg, hexam, delivered, dropped, hd, hsame hslot]
  | kept k m hexam hd hact hk hfree hslot =>
    have hg := gained_update hk hfree hslot
    have hw : written F e = none := by
      unfold Noc.written
      split
      · rename_i env hm
        exact absurd hm (hact env)
      · rfl
    have hcount := count_stored_update hk hfree hslot x
    simp [hw, hexam, delivered, dropped, hd, hg, hcount, Nat.add_comm]
  | dropped y hexam hd hslot =>
    have hg := gained_self (F := F) hslot
    simp [hwritten hg, hexam, delivered, dropped, hd, hg, hsame hslot]

/-! ### The message in the hands of a thread -/

/-- At most one thread is back from the hardware with a message. -/
theorem Flight.inHand_unique {s : State} (h : Flight F s) {tid tid' c c' : ℕ} {fd fd' i i' ret ret' : ℤ}
    (hpc : s.waits tid = .woken c fd i ret ∨ s.waits tid = .blocked c fd i)
    (hpc' : s.waits tid' = .woken c' fd' i' ret' ∨ s.waits tid' = .blocked c' fd' i')
    (hread : (s.phys.actives (portOf F fd).1).resource.isReadable = true)
    (hread' : (s.phys.actives (portOf F fd').1).resource.isReadable = true) : tid = tid' := by
  have hfly : ∀ {tid c : ℕ} {fd i ret : ℤ}, s.waits tid = .woken c fd i ret ∨ s.waits tid = .blocked c fd i →
      InFlight s c ∧ fd = (s.comms c).config.fd ∧ (s.waits tid).comm = some c := by
    intro tid c fd i ret hpc
    have hp := h.placed tid
    rcases hpc with hpc | hpc <;> rw [hpc] at hp ⊢ <;> exact ⟨hp.1, hp.2.1, rfl⟩
  obtain ⟨hf, hfd, hat⟩ := hfly hpc
  obtain ⟨hf', hfd', hat'⟩ := hfly hpc'
  rw [hfd] at hread
  rw [hfd'] at hread'
  refine h.thread_unique hf hf' hat hat' ?_
  rw [h.accounts.setup.readable_iff.mp hread, h.accounts.setup.readable_iff.mp hread']

theorem received_eq_some (h : received F e = some x) :
    ∃ tid c fd i env, e.act = .resume tid env ∧ e.pre.waits tid = .blocked c fd i ∧
      (e.pre.phys.actives (portOf F fd).1).resource.isReadable = true ∧ env.hwRet = 0 ∧ env.arrived = x := by
  unfold received at h
  split at h
  · rename_i tid env hact
    split at h
    · rename_i c fd i hpc
      split_ifs at h with hc
      cases h
      exact ⟨tid, c, fd, i, env, hact, hpc, hc.1, hc.2, rfl⟩
    · cases h
  · cases h

theorem not_woken_of_woken {s t : State} {o : Out} (hs : steps F s (.resume tid env) o t)
    (hpc : s.waits tid = .woken c fd i ret) : t.waits tid ≠ s.waits tid := by
  rw [hpc]
  simp only [steps, step, waitStep, hpc, waitFinish] at hs
  split at hs
  · cases hs
  · cases hs
    simp

theorem woken_of_blocked {s t : State} {o : Out} (hs : steps F s (.resume tid env) o t)
    (hpc : s.waits tid = .blocked c fd i) :
    t.waits tid = .woken c fd i env.hwRet ∧ t.phys = hwWait s.phys (portOf F fd).1 env := by
  simp only [steps, step, waitStep, hpc, waitBlock, continues] at hs
  cases hs
  exact ⟨by simp, rfl⟩

theorem Flight.not_inHand_of_received (h : Flight F e.pre) (hr : received F e = some x) :
    ¬ InHand F e.pre y := by
  obtain ⟨tid, c, fd, i, env, -, hpc, hread, -⟩ := received_eq_some hr
  rintro ⟨tid', c', fd', i', hpc', hread', -⟩
  have hfirst : e.pre.waits tid = .woken c fd i 0 ∨ e.pre.waits tid = .blocked c fd i := .inr hpc
  obtain rfl := h.inHand_unique hfirst (.inl hpc') hread hread'
  rw [hpc] at hpc'
  cases hpc'

theorem inHand_of_examined (hx : examined F e = some x) : InHand F e.pre x := by
  obtain ⟨tid, c, fd, i, -, -, hpc, hread, hm⟩ := examined_eq_some hx
  exact ⟨tid, c, fd, i, hpc, hread, hm⟩

/-- A message is in the hands of a thread when the hardware has just handed it over, or if it was before
and the thread has not looked at it. -/
theorem Flight.inHand_iff (h : Flight F e.pre) (h' : Flight F e.post) (hs : steps F e.pre e.act e.out e.post)
    (y : Message) :
    InHand F e.post y ↔ received F e = some y ∨ InHand F e.pre y ∧ examined F e = none := by
  have hread : ∀ {a}, (e.post.phys.actives a).resource.isReadable = true ↔
      (e.pre.phys.actives a).resource.isReadable = true := by
    intro a
    rw [h'.accounts.setup.readable_iff, h.accounts.setup.readable_iff]
  have hmsg : ∀ {tid c : ℕ} {fd i : ℤ}, e.pre.waits tid = .woken c fd i 0 →
      e.post.waits tid = .woken c fd i 0 →
      (e.post.phys.mbuffers i.toNat).message = (e.pre.phys.mbuffers i.toNat).message := by
    intro tid c fd i hpre hpost
    have hp := h.placed tid
    rw [hpre] at hp
    obtain ⟨-, -, k, rfl, hk⟩ := hp
    exact h.message_of_woken hs hpre hpost hk
  have hcome : ∀ {tid c : ℕ} {fd i : ℤ} {env : Env}, e.pre.waits tid = .blocked c fd i →
      (e.pre.phys.actives (portOf F fd).1).resource.isReadable = true → env.hwRet = 0 →
      e.post.phys = hwWait e.pre.phys (portOf F fd).1 env →
      (e.post.phys.mbuffers i.toNat).message = env.arrived := by
    intro tid c fd i env hpre hrd hret hphys
    have hp := h.placed tid
    rw [hpre] at hp
    obtain ⟨-, -, k, rfl, hk⟩ := hp
    rw [hphys, hwWait_message, Int.toNat_natCast, if_pos ⟨hk.lent, hrd, hret⟩]
  constructor
  · rintro ⟨tid, c, fd, i, hpost, hrd, rfl⟩
    rw [hread] at hrd
    rcases woken_of_step hs hpost with ⟨env, hact, hpre, hret, hphys⟩ | hpre
    · rw [hcome hpre hrd hret hphys]
      left
      unfold received
      rw [hact]
      dsimp only
      rw [hpre]
      exact if_pos ⟨hrd, hret⟩
    · refine .inr ⟨⟨tid, c, fd, i, hpre, hrd, (hmsg hpre hpost).symm⟩, ?_⟩
      rw [Option.eq_none_iff_forall_ne_some]
      intro x hx
      obtain ⟨tid', c', fd', i', env, hact, hpc', hread', -⟩ := examined_eq_some hx
      obtain rfl := h.inHand_unique (.inl hpre) (.inl hpc') hrd hread'
      rw [hact] at hs
      exact not_woken_of_woken hs hpre (hpost.trans hpre.symm)
  · rintro (hr | ⟨⟨tid, c, fd, i, hpre, hrd, rfl⟩, hx⟩)
    · obtain ⟨tid, c, fd, i, env, hact, hpre, hrd, hret, rfl⟩ := received_eq_some hr
      rw [hact] at hs
      obtain ⟨hpost, hphys⟩ := woken_of_blocked hs hpre
      rw [hret] at hpost
      exact ⟨tid, c, fd, i, hpost, hread.mpr hrd, hcome hpre hrd hret hphys⟩
    · have hpost : e.post.waits tid = .woken c fd i 0 := by
        by_cases ht : e.act.thread = some tid
        · obtain ⟨s, act, o, t⟩ := e
          dsimp only at hs hpre hrd ht hx ⊢
          cases act with
          | call | master => cases ht
          | wait tid' id =>
            obtain rfl := Option.some.inj ht
            rw [steps, Noc.step, hpre] at hs
            cases hs
            exact hpre
          | resume tid' env =>
            obtain rfl := Option.some.inj ht
            simp [examined, hpre, hrd] at hx
        · rw [waits_of_step hs tid ht]
          exact hpre
      exact ⟨tid, c, fd, i, hpost, hread.mpr hrd, hmsg hpre hpost⟩

/-- The hands of the threads give and take with the hardware and what is looked at. -/
theorem Flight.hand_step (h : Flight F e.pre) (h' : Flight F e.post)
    (hs : steps F e.pre e.act e.out e.post) {hand : Option Message}
    (hh : ∀ x, hand = some x ↔ InHand F e.pre x) :
    ∃ hand' : Option Message, (∀ x, hand' = some x ↔ InHand F e.post x) ∧
      (hand.toList ++ (received F e).toList).Perm (hand'.toList ++ (examined F e).toList) := by
  have hiff := h.inHand_iff h' hs
  cases hr : received F e with
  | some x =>
    have hnone : ∀ y, ¬ InHand F e.pre y := fun y => h.not_inHand_of_received hr
    obtain rfl : hand = none := Option.eq_none_iff_forall_ne_some.mpr fun y hy => hnone y ((hh y).mp hy)
    have hx : examined F e = none :=
      Option.eq_none_iff_forall_ne_some.mpr fun y hy => hnone y (inHand_of_examined hy)
    exact ⟨some x, fun y => by simp [hiff, hr, hnone], by simp [hx]⟩
  | none =>
    cases hx : examined F e with
    | some x =>
      obtain rfl : hand = some x := (hh x).mpr (inHand_of_examined hx)
      exact ⟨none, fun y => by simp [hiff, hr, hx], by simp⟩
    | none => exact ⟨hand, fun y => by simp [hiff, hr, hx, hh], by simp⟩

/-! ### Runs -/

variable {u : State} {tr : List (Event State Act Out)}

/-- What a node has received or written to itself was given to its users or thrown away, is in the
hands of a thread, or is stored. -/
theorem messages_conserved (h : Runs F tr u) (hn : ∀ e ∈ tr, NoOverlap e) :
    ∃ hand : Option Message, (∀ x, hand = some x ↔ InHand F u x) ∧
      (tr.filterMap (received F) ++ tr.filterMap (written F)).Perm
        (tr.filterMap (delivered F) ++ tr.filterMap (dropped F) ++ (hand.toList ++ u.phys.stored F)) := by
  obtain ⟨s₀, h₀, hrun⟩ := h
  induction hrun with
  | nil =>
    refine ⟨none, fun x => ⟨fun hx => (nomatch hx), ?_⟩, ?_⟩
    · rintro ⟨tid, c, fd, i, hpc, -⟩
      obtain ⟨ph, -, rfl⟩ := h₀
      cases hpc
    · have hempty : s₀.phys.stored F = [] := by
        simp [Phys.stored, slot_init h₀]
      simp [hempty]
  | @snoc tr t a o u hr hs ih =>
    obtain ⟨hand, hh, hperm⟩ := ih fun e he => hn e (by simp [he])
    have hruns : Runs F (tr ++ [⟨t, a, o, u⟩]) u := ⟨s₀, h₀, hr.snoc hs⟩
    obtain ⟨hf, -⟩ := flight_event hruns hn (e := ⟨t, a, o, u⟩) (by simp)
    obtain ⟨hand', hh', hhand⟩ := hf.hand_step (flight_runs hruns hn) hs hh
    refine ⟨hand', hh', ?_⟩
    have hbal := balance_of_motion (hf.motion hs) fun k m hk =>
      slot_lt ⟨s₀, h₀, hr⟩ (fun e he => hn e (by simp [he])) hk
    rw [List.perm_iff_count] at hperm hhand ⊢
    intro x
    have hmoved := hbal x
    dsimp only at hmoved
    have hhands := hhand x
    have hold := hperm x
    simp only [List.filterMap_append, List.count_append] at hold hhands ⊢
    have hone : ∀ f : Event State Act Out → Option Message,
        ([⟨t, a, o, u⟩].filterMap f).count x = (f ⟨t, a, o, u⟩).toList.count x := by
      intro f
      cases hf : f ⟨t, a, o, u⟩ <;> simp [hf]
    rw [hone, hone, hone, hone]
    omega

end Nanvix.Noc
