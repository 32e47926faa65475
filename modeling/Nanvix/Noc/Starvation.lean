import Nanvix.Noc.Aim
import Nanvix.Noc.Assertions
import Nanvix.Noc.Demux
import Nanvix.Noc.RequestQueue

/-! Writes to the node itself that fail. A local write enters the request FIFO before it
looks for an auxiliary mbuffer. The write that finds none leaves its port marked as
requested with no message that a reader could take; every other failure changes nothing.
While no write starves in this way, and no sender is withdrawn from a FIFO that is full, a
port that counts as requested has a stored message of its own. -/

namespace Nanvix.Noc

open Nanvix.Lib Function

def AuxFull (F : Facility) (s : Phys) : Prop :=
  ∀ i < F.auxMax, (s.mbuffers (F.mbufferMax - F.auxMax + i)).resource.used = true

/-- A write on port `p` of active `a` gets a place in the FIFO and then no mbuffer. -/
structure Starves (F : Facility) (s : Phys) (a p : ℕ) : Prop where
  used : (s.ports (a, p)).resource.used = true
  unrequested : (s.ports (a, p)).requested = false
  room : (s.actives a).requests.nelements ≠ (s.actives a).requests.maxCapacity
  aux : AuxFull F s

def ToItself (F : Facility) (s : Phys) (a : ℕ) : Prop :=
  (s.actives a).resource.isWritable = true ∧ F.nodeIsLocal (s.actives a).remote = true

/-- A stored message that port `p` of active `a` has written. -/
def HasMessage (s : Phys) (a p : ℕ) : Prop :=
  ∃ k m, s.slot k = some m ∧ m.actid = a ∧ m.portid = p

def Nourished (F : Facility) (e : Event State Act Out) : Prop :=
  ∀ env c, e.act = .master env → e.pre.master = .operating .output c →
    F.nodeIsLocal (e.pre.phys.actives (portOf F (e.pre.comms c).config.fd).1).remote = true →
    ¬ Starves F e.pre.phys (portOf F (e.pre.comms c).config.fd).1
      (portOf F (e.pre.comms c).config.fd).2

def MasterPc.reading : MasterPc → Bool
  | .operating .input _ => true
  | _ => false

/-- No read is made while the FIFO of an output active to the node itself is full. -/
def ReadsWithRoom (F : Facility) (e : Event State Act Out) : Prop :=
  ∀ env, e.act = .master env → e.pre.master.reading = true →
    ∀ a, ToItself F e.pre.phys a →
      (e.pre.phys.actives a).requests.nelements ≠ (e.pre.phys.actives a).requests.maxCapacity

variable {F : Facility} {s t u : Phys} {a p k : ℕ} {id : ℤ} {cfg : Config} {env : Env} {ans : Answer}
  {err : Err}

/-! ### One call -/

theorem register_ne (h : (s.ports (a, p)).requested = false) : s.register a p ≠ s := by
  intro he
  have hreq : ((s.register a p).ports (a, p)).requested = true := by simp [Phys.register]
  rw [he, h] at hreq
  cases hreq

/-- A forwarded write that fails has changed nothing or has starved. -/
theorem awriteForward_error (hport : (s.ports (a, p)).resource.used = true)
    (h : awriteForward F s a p cfg env = some (ans, t)) (herr : ans.ret = .error err) :
    (t = s ∧ ¬ Starves F s a p) ∨ (t = s.register a p ∧ Starves F s a p) := by
  unfold awriteForward at h
  split at h
  · rename_i hreq
    cases h
    refine .inl ⟨rfl, fun hs => ?_⟩
    rw [hs.unrequested] at hreq
    cases hreq
  rename_i hreq
  rcases doRequestOperation_cases (s := s) (a := a) (p := p) with ⟨hfull, he⟩ | ⟨hroom, he⟩
  · rw [he] at h
    cases h
    exact .inl ⟨rfl, fun hs => hs.room hfull⟩
  rw [he] at h
  dsimp only at h
  split at h
  · rename_i hal
    obtain ⟨rfl, rfl, haux⟩ := mbufferAlloc_error hal
    cases h
    exact .inr ⟨rfl, hport, by simpa using hreq, hroom, haux⟩
  -- with an mbuffer in hand the write succeeds
  rename_i i v hal
  obtain ⟨hi, -, rfl⟩ := mbufferAlloc_ok hal
  simp only [mbufferGet_index _ hi, mbufferRelease] at h
  rw [if_pos (by simp [Mbuffer.filled, Mbuffer.allocated])] at h
  cases h
  cases herr

/-- A write that fails on an active to the node itself leaves the tables as they were, unless
it starves. -/
theorem activeAwrite_error_iff (hlocal : F.nodeIsLocal (s.actives (portOf F id).1).remote = true)
    (hdet : (s.ports (portOf F id)).mbufferid < 0)
    (h : activeAwrite F s id cfg env = some (ans, t)) (herr : ans.ret = .error err) :
    t = s ↔ ¬ Starves F s (portOf F id).1 (portOf F id).2 := by
  unfold activeAwrite at h
  split at h
  · cases h
  dsimp only at h
  split at h
  · rename_i hport
    cases h
    refine ⟨fun _ hs => ?_, fun _ => rfl⟩
    rw [hs.used] at hport
    cases hport
  rename_i hport
  rw [if_pos (by simp [hlocal, hdet])] at h
  rcases awriteForward_error (by simpa using hport) h herr with ⟨rfl, hno⟩ | ⟨rfl, hs⟩
  · exact iff_of_true rfl hno
  · exact iff_of_false (register_ne hs.unrequested) (not_not_intro hs)

theorem ToItself.forward {s : State} (h : ToItself F s.phys a) (hset : Setup F s.phys)
    (haim : Aimed F s) : Forward F a := by
  have ha : a ≠ 0 := (hset.writable_iff.mp h.1).1
  exact ⟨ha, by rw [← haim.remote a ha]; exact h.2⟩

theorem toItself_of_forward (hw : Wired F s) (hf : Forward F a) : ToItself F s a := by
  refine ⟨hw.setup.writable_iff.mpr ⟨hf.1, ?_⟩, by rw [hw.remote a hf.1]; exact hf.2⟩
  cases a with
  | zero => exact absurd rfl hf.1
  | succ i =>
    by_contra hi
    have hnone : remoteOf F (i + 1) = -1 := by simp [remoteOf, bootActives, show ¬ i < F.nodesNum by omega]
    have := F.nodeIsLocal_range _ hf.2
    omega

/-! ### Requested ports have a message -/

/-- A port of an active to the node itself that counts as requested stands in the FIFO and has a
message to be read. -/
def Answered (F : Facility) (s : Phys) : Prop :=
  ∀ a p, Forward F a → (s.ports (a, p)).requested = true →
    (p : ℤ) ∈ (s.actives a).requests.queue ∧ HasMessage s a p

theorem HasMessage.keep (h : HasMessage s a p) (hslot : ∀ k m, s.slot k = some m → t.slot k = some m) :
    HasMessage t a p := by
  obtain ⟨k, m, hk, horigin⟩ := h
  exact ⟨k, m, hslot k m hk, horigin⟩

/-- A change of the other actives that keeps the stored messages. -/
theorem Answered.keep (h : Answered F s)
    (hqueue : ∀ b, Forward F b → (t.actives b).requests = (s.actives b).requests)
    (hflag : ∀ b q, Forward F b → (t.ports (b, q)).requested = true → (s.ports (b, q)).requested = true)
    (hslot : ∀ k m, s.slot k = some m → t.slot k = some m) : Answered F t := by
  intro b q hf hreq
  obtain ⟨hmem, hmsg⟩ := h b q hf (hflag b q hf hreq)
  exact ⟨by rwa [hqueue b hf], hmsg.keep hslot⟩

theorem Answered.sameFifo (h : Answered F s) (hst : SameFifo s t)
    (hslot : ∀ k m, s.slot k = some m → t.slot k = some m) : Answered F t :=
  h.keep (fun b _ => hst.requests b) (fun b q _ hreq => by rwa [hst.requested] at hreq) hslot

/-- The message of port `q` of active `b` is consumed: a port that still counts as requested is
another one, and its message is another one. -/
theorem Answered.consumed (h : Answered F s) {b q : ℕ} {m : Mbuffer} (hwf : (s.actives b).requests.Wf)
    (hroom : (s.actives b).requests.nelements ≠ (s.actives b).requests.maxCapacity)
    (hk : s.slot k = some m) (hm : m.actid = b ∧ m.portid = q)
    (hflag : ∀ a p, (t.ports (a, p)).requested = ((doRequestClear s b q).ports (a, p)).requested)
    (hqueue : ∀ a, (t.actives a).requests = ((doRequestClear s b q).actives a).requests)
    (hslot : t.slot = update s.slot k none) : Answered F t := by
  obtain ⟨-, herase, hfound, -⟩ := RequestsFifo.clear_spec (x := q) hwf hroom
  intro a p hf hreq
  rw [hflag] at hreq
  have hne : (a, p) ≠ (b, q) := by
    rintro ⟨⟩
    rw [doRequestClear_requested_self, Bool.and_eq_true] at hreq
    rw [hfound.mpr (h b q hf hreq.1).1] at hreq
    simp at hreq
  have hold : (s.ports (a, p)).requested = true := by
    simpa [doRequestClear, update_of_ne hne] using hreq
  obtain ⟨hmem, j, m', hj, ha, hp⟩ := h a p hf hold
  constructor
  · rw [hqueue, doRequestClear_requests]
    split
    · rename_i hab
      subst hab
      have hpq : (p : ℤ) ≠ q := by
        intro he
        exact hne (by rw [Nat.cast_inj.mp he])
      rw [herase]
      exact (List.mem_erase_of_ne hpq).mpr hmem
    · exact hmem
  · have hjk : j ≠ k := by
      rintro rfl
      obtain rfl := Option.some.inj (hk.symm.trans hj)
      exact hne (Prod.ext (by exact_mod_cast ha.symm.trans hm.1) (by exact_mod_cast hp.symm.trans hm.2))
    exact ⟨j, m', by rw [hslot, update_of_ne hjk, hj], ha, hp⟩

theorem Answered.aread (h : Answered F s) (hw : Wired F s)
    (hroom : ∀ b, Forward F b → (s.actives b).requests.nelements ≠ (s.actives b).requests.maxCapacity)
    (ho : AreadOutcome F s a p cfg env ans t) : Answered F t := by
  by_cases hret : ans.ret = .ok .received
  · cases ho with
    | @stored i u hport hfound hclear =>
      obtain ⟨hstored, htaken⟩ := stored_taken hfound hclear
      set k := (readPool F cfg.remoteAddr).base F + i
      unfold clearSender at hclear
      split at hclear
      · rename_i hm
        obtain ⟨b, q, hb, hq, hlt, hf⟩ := hw.sender k hm.1
        rw [if_pos (by rw [hq]; exact_mod_cast hlt), hb, hq] at hclear
        cases hclear
        exact h.consumed (hw.fifo b) (hroom b hf) hstored ⟨hb, hq⟩ (by simp) (by simp) htaken
      · rename_i hm
        cases hclear
        -- nobody of this node has written the message
        intro b q hf hreq
        rw [releaseMbuffer_ports] at hreq
        obtain ⟨hmem, j, m, hj, ha, hp⟩ := h b q hf hreq
        have hjk : j ≠ k := by
          rintro rfl
          obtain rfl := Option.some.inj (hstored.symm.trans hj)
          omega
        refine ⟨by rwa [releaseMbuffer_actives], j, m, ?_, ha, hp⟩
        rw [htaken, update_of_ne hjk, hj]
    | refused | exhausted | failed | submitted => cases hret
  · refine h.sameFifo (.aread ho hret) fun k m hk => ?_
    rcases ho.slots with ⟨hslot, -, -⟩ | ⟨k', m', hr⟩
    · rw [hslot, hk]
    · exact absurd hr.received hret

/-- The FIFO of active `b` and the flags of its ports are as they were. -/
def SameRequests (s t : Phys) (b : ℕ) : Prop :=
  (t.actives b).requests = (s.actives b).requests ∧
    ∀ q, (t.ports (b, q)).requested = (s.ports (b, q)).requested

theorem SameFifo.at (h : SameFifo s t) (b : ℕ) : SameRequests s t b :=
  ⟨h.requests b, fun q => h.requested (b, q)⟩

theorem SameRequests.trans {b : ℕ} (h₁ : SameRequests s t b) (h₂ : SameRequests t u b) :
    SameRequests s u b :=
  ⟨h₂.1.trans h₁.1, fun q => (h₂.2 q).trans (h₁.2 q)⟩

section Other
variable {b : ℕ}

theorem setRequests_other {x : Active} {y : Port} (hb : b ≠ a) :
    SameRequests s ((s.setPort (a, p) y).setActive a x) b := by
  refine ⟨by simp [update_of_ne hb], fun q => ?_⟩
  have hne : (b, q) ≠ (a, p) := fun he => hb (congrArg Prod.fst he)
  simp [update_of_ne hne]

theorem Registered.other (hr : Registered s a p t) (hb : b ≠ a) : SameRequests s t b := by
  cases hr with
  | already => exact ⟨rfl, fun _ => rfl⟩
  | now => exact setRequests_other hb

theorem SubmitOutcome.other (ho : SubmitOutcome s a p k ans t) (hb : b ≠ a) : SameRequests s t b := by
  cases ho with
  | full => exact ⟨rfl, fun _ => rfl⟩
  | waiting hr => exact hr.other hb
  | sent hr hturn hidle l => exact (hr.other hb).trans ((SameFifo.lend _ a k l).at b)

theorem WaitOutcome.other {ret : ℤ} (ho : WaitOutcome F s a p k ret cfg ans t) (hb : b ≠ a) :
    SameRequests s t b := by
  cases ho with
  | failed | consumed | ignored | plain =>
    exact ((SameFifo.of_eq (by simp) (by simp)).trans (.settle _ a p)).at b
  | written hret hwrite hturn l =>
    have hdone : SameRequests (s.addLatency k l) ((s.addLatency k l).complete a p) b := setRequests_other hb
    exact hdone.trans (((SameFifo.of_eq (by simp) (by simp)).trans (.settle _ a p)).at b)

end Other

/-- Port `p` of active `a` enters the FIFO and its message is stored. -/
theorem Answered.forwarded (h : Answered F s) (hwf : (s.actives a).requests.Wf)
    (hroom : (s.actives a).requests.nelements ≠ (s.actives a).requests.maxCapacity)
    (hflag : ∀ b q, (t.ports (b, q)).requested = ((s.register a p).ports (b, q)).requested)
    (hqueue : ∀ b, (t.actives b).requests = ((s.register a p).actives b).requests)
    (hslot : ∀ k m, s.slot k = some m → t.slot k = some m) (hmsg : HasMessage t a p) : Answered F t := by
  have hpush := RequestsFifo.push_queue (x := p) hwf hroom
  intro b q hf hreq
  by_cases hbq : (b, q) = (a, p)
  · cases hbq
    refine ⟨?_, hmsg⟩
    rw [hqueue, register_requests, if_pos rfl, hpush]
    simp
  · rw [hflag] at hreq
    have hold : (s.ports (b, q)).requested = true := by
      simpa [Phys.register, update_of_ne hbq] using hreq
    obtain ⟨hmem, hown⟩ := h b q hf hold
    refine ⟨?_, hown.keep hslot⟩
    rw [hqueue, register_requests]
    split
    · rename_i hb
      subst hb
      rw [hpush]
      exact List.mem_append_left _ hmem
    · exact hmem

/-- A write enters the FIFO of its active and stores its message, or it leaves the actives to the
node itself alone. -/
theorem Answered.awrite (h : Answered F s) (hw : Wired F s) (hown : Owned F s) (ha : a ≠ 0)
    (ho : AwriteOutcome F s a p cfg env ans t)
    (hfed : F.nodeIsLocal (s.actives a).remote = true → ∀ e, ans.ret = .error e → t = s) :
    Answered F t := by
  have hslots : ∀ k m, s.slot k = some m → t.slot k = some m := by
    intro k m hk
    rcases ho.slots hown with ⟨hslot, -, -⟩ | ⟨-, j, m', hf⟩
    · rw [hslot, hk]
    · have hne : k ≠ j := by
        rintro rfl
        rw [hf.free] at hk
        cases hk
      rw [hf.slots, update_of_ne hne, hk]
  have hremote : (∀ b, b ≠ a → SameRequests s t b) → ¬ Forward F a → Answered F t := by
    intro hother hnot
    have hsame : ∀ b, Forward F b → SameRequests s t b := fun b hf => hother b fun he => hnot (he ▸ hf)
    exact h.keep (fun b hf => (hsame b hf).1) (fun b q hf hreq => by rwa [(hsame b hf).2] at hreq) hslots
  have hforward := ho.slots hown
  cases ho with
  | refused e => exact h
  | starved hport hdet hlocal hreq hroom => exact absurd (hfed hlocal _ rfl) (register_ne hreq)
  | forwarded k hport hdet hlocal hreq hroom hlow hk hfree =>
    refine h.forwarded (p := p) (hw.fifo a) hroom (by simp) (by simp) hslots ?_
    rcases hforward with ⟨-, -, hno⟩ | ⟨-, j, m, hf⟩
    · exact absurd rfl hno
    · exact ⟨j, m, by rw [hf.slots, update_self], by rw [hf.entry]; exact ⟨rfl, rfl⟩⟩
  | fresh k hport hlocal hdet hk hfree hsub =>
    refine hremote (fun b hb => ((SameFifo.prepare s a p k cfg env).at b).trans (hsub.other hb)) ?_
    intro hf
    rw [hw.remote a ha, hf.2] at hlocal
    cases hlocal
  | retried k hport hatt hget hsub =>
    refine hremote (fun b hb => hsub.other hb) fun hf => ?_
    have := hw.forward a p hf
    omega

/-! ### Runs -/

/-- The read or write of a step. -/
theorem Answered.operates {e : Event State Act Out} {ty : CommType} {c : ℕ} (h : Answered F e.pre.phys)
    (hf : Flight F e.pre) (hs : steps F e.pre e.act e.out e.post) (hfed : Nourished F e)
    (hroom : ReadsWithRoom F e) (hop : Operates ty c env ans e) : Answered F e.post.phys := by
  obtain ⟨hused, hfits, ho⟩ := hf.outcome hs hop
  obtain ⟨ty', a, p, hfits', hb, hport⟩ := hf.port hused
  obtain rfl := fits_unique hfits hfits'
  cases ho with
  | aread hv ho =>
    have hreading : e.pre.master.reading = true := by rw [hop.master]; rfl
    exact h.aread hf.wired (fun b hfb => hroom env hop.act hreading b (toItself_of_forward hf.wired hfb)) ho
  | awrite hv ho =>
    rw [hport] at ho
    have ha : a ≠ 0 := fun h0 => by cases hb.input_iff.mpr h0
    refine h.awrite hf.wired hf.owned ha ho fun hlocal e' herr => ?_
    have hfwd : Forward F a := ⟨ha, by rwa [← hf.wired.remote a ha]⟩
    have hcall := (hop.call hs).2.2
    have hdo : e.pre.doComm = .output := hf.dispatched.eq hop.master
    simp only [doComm, hdo] at hcall
    refine (activeAwrite_error_iff ?_ ?_ hcall herr).mpr ?_
    · rwa [hport]
    · rw [hport]; exact hf.wired.forward a p hfwd
    · exact hfed env c hop.act hop.master (by rwa [hport])

theorem Answered.step {e : Event State Act Out} (h : Answered F e.pre.phys) (hf : Flight F e.pre)
    (hs : steps F e.pre e.act e.out e.post) (hfed : Nourished F e) (hroom : ReadsWithRoom F e) :
    Answered F e.post.phys := by
  have hop := fun {ty c env ans} (ho : Operates ty c env ans e) => h.operates hf hs hfed hroom ho
  have hstore := hf.storeEvent hs
  -- outside reads the stored messages stay
  have hslot : (∀ c env ans, ¬ Operates .input c env ans e) → ∀ k m, e.pre.phys.slot k = some m →
      e.post.phys.slot k = some m := by
    intro hno k m hk
    rcases hstore.kept_or_read hk with hpost | ⟨-, c, env, ans, hread, -⟩
    · exact hpost
    · exact absurd hread (hno c env ans)
  obtain ⟨s, act, o, t⟩ := e
  dsimp only at h hf hs hslot ⊢
  cases steps_cases hs with
  | opened hidle hcall hlocal hport hrem ho =>
    cases ho with
    | @opened a p ha hmatch hp hin hfree =>
      refine h.keep (fun b _ => ?_) (fun b q _ hreq => ?_) (hslot fun c env ans hop => by cases hop.act)
      · exact drive_requests (openPort_drive b)
      · by_cases hbq : (b, q) = (a, p)
        · simp [Phys.openPort, hbq] at hreq
        · simpa [Phys.openPort, update_of_ne hbq] using hreq
  | rolledBack env hpc hv ho =>
    cases ho
    exact h.keep (fun b _ => drive_requests (closePort_drive b)) (fun b q _ hreq => by simpa using hreq)
      (hslot fun c env ans hop => by cases hop.master.symm.trans hpc)
  | freed hidle hcall hid hused hfits hbusy hv ho =>
    cases ho
    exact h.keep (fun b _ => drive_requests (closePort_drive b)) (fun b q _ hreq => by simpa using hreq)
      (hslot fun c env ans hop => by cases hop.act)
  | failed hpc hused hfits hbusy ho hret => exact hop ⟨rfl, hpc, rfl⟩
  | operated hpc hused hfits hbusy ho hret => exact hop ⟨rfl, hpc, rfl⟩
  | woken env hpc =>
    exact h.sameFifo (.of_eq (by simp) (by simp)) (hslot fun c env ans hop => by cases hop.act)
  | completed env hpc hget ho =>
    obtain ⟨-, -, hl⟩ := hf.woken_loan hpc hget
    have hsame := fun b (hfb : Forward F b) =>
      ho.other (b := b) fun he => hf.wired.not_onLoan (he ▸ hfb) hl
    exact h.keep (fun b hfb => (hsame b hfb).1) (fun b q hfb hreq => ((hsame b hfb).2 q).symm.trans hreq)
      (hslot fun c env ans hop => by cases hop.act)
  | _ => exact h

theorem answered_boot (hb : Boot F s) : Answered F s := by
  obtain ⟨hwfd, c, rfl⟩ := hb.eq_bootState
  intro a p hf hreq
  cases hreq

/-- A write to the node itself that fails leaves the tables as they were, unless it starves. If no
write starves, waits on a communicator do not overlap and no read finds the FIFO of an active to the
node itself full, a port that the check for requested ports refuses has a stored message of its own. -/
theorem failed_write_iff {tr : List (Event State Act Out)} {s : State} (h : Runs F tr s) :
    (∀ id cfg env ans t err, ToItself F s.phys (portOf F id).1 →
      activeAwrite F s.phys id cfg env = some (ans, t) → ans.ret = .error err →
      (t = s.phys ↔ ¬ Starves F s.phys (portOf F id).1 (portOf F id).2)) ∧
    ((∀ e ∈ tr, NoOverlap e ∧ Nourished F e ∧ ReadsWithRoom F e) → ∀ a p, ToItself F s.phys a →
      (s.phys.ports (a, p)).requested = true → HasMessage s.phys a p) := by
  have haim := aimed_runs h
  have hset := (accounts_runs h).setup
  constructor
  · intro id cfg env ans t err hself hcall herr
    exact activeAwrite_error_iff hself.2 (haim.detached _ _ (hself.forward hset haim)) hcall herr
  · intro hP a p hself hreq
    obtain ⟨s₀, h₀, hrun⟩ := h
    have hinit : Flight F s₀ ∧ Answered F s₀.phys := by
      refine ⟨flight_runs ⟨s₀, h₀, .nil⟩ (by simp), ?_⟩
      obtain ⟨ph, hb, rfl⟩ := h₀
      exact answered_boot hb
    have hend : Flight F s ∧ Answered F s.phys :=
      hrun.invariant (I := fun s => Flight F s ∧ Answered F s.phys) hinit hP
        fun e hs he hi => ⟨hi.1.step hs he.1, hi.2.step hi.1 hs he.2.1 he.2.2⟩
    exact (hend.2 a p (hself.forward hset haim) hreq).2

/-- The mailbox facility of a target that runs mailboxes only, with 64 ports. -/
def wideMailbox : Facility := Facility.mailbox quadHal true

def wideBoot : Phys := bootState wideMailbox (fun _ => 0) 4 0

theorem wideBoot_boot : Boot wideMailbox wideBoot := boot_of_nonneg _ fun _ => le_rfl

/-- Mailboxes to the node itself are opened, and the first `n` of them written once each. -/
def localWrites (opens n : ℕ) : List Act :=
  ((List.range opens).flatMap fun _ => wholeOpen (.open 0 0 5)) ++
    (List.range n).flatMap fun i => [.call (.awrite i 64 1), .master {}]

theorem localWrites_quiet {opens n : ℕ} : ∀ a ∈ localWrites opens n, a.thread = none := by
  intro a ha
  simp only [localWrites, wholeOpen, List.mem_append, List.mem_flatMap, List.mem_cons,
    List.not_mem_nil, or_false] at ha
  obtain ⟨i, -, rfl | rfl | rfl⟩ | ⟨i, -, rfl | rfl⟩ := ha <;> rfl

/-- A mailbox that is written twice without a read in between: the second write is refused, and the
message of the first is there. -/
theorem failed_write_iff_retry : ∃ tr s, Runs quadMailbox tr s ∧ tr.map (·.act) = localWrites 1 1 ∧
    (∀ e ∈ tr, NoOverlap e ∧ Nourished quadMailbox e ∧ ReadsWithRoom quadMailbox e) ∧
    (s.phys.ports (1, 0)).requested = true ∧ HasMessage s.phys 1 0 ∧
    ∃ ans, activeAwrite quadMailbox s.phys 17 {} {} = some (ans, s.phys) ∧ ans.ret = .error .EBUSY := by
  obtain ⟨tr, s, hrun, hacts, hreq, hwrite, hlocal, hany, hall⟩ := exists_runs_of_exec quadBoot_boot
    (localWrites 1 1)
    (fun r => (r.2.phys.ports (1, 0)).requested = true ∧
      (r.2.phys.actives 1).resource.isWritable = true ∧
      quadMailbox.nodeIsLocal (r.2.phys.actives 1).remote = true ∧
      ((activeAwrite quadMailbox r.2.phys 17 {} {}).any fun x => decide (x.1.ret = .error .EBUSY)) = true ∧
      ∀ e ∈ r.1, (e.pre.phys.mbuffers 31).resource.used = false ∧ e.pre.master.reading = false)
    (by decide +kernel)
  have hP : ∀ e ∈ tr, NoOverlap e ∧ Nourished quadMailbox e ∧ ReadsWithRoom quadMailbox e := by
    intro e he
    obtain ⟨hfree, hread⟩ := hall e he
    refine ⟨noOverlap_of_one_thread hrun (fun a ha => .inl (localWrites_quiet a (hacts ▸ ha))) e he,
      fun env c _ _ _ hst => ?_, fun env _ hreading => ?_⟩
    · have hfull := hst.aux 15 (by decide)
      rw [show quadMailbox.mbufferMax - quadMailbox.auxMax + 15 = 31 from rfl, hfree] at hfull
      cases hfull
    · rw [hread] at hreading
      cases hreading
  obtain ⟨hiff, hmsg⟩ := failed_write_iff hrun
  obtain ⟨⟨ans, t⟩, hcall, hret⟩ := (Option.any_eq_true _ _).mp hany
  have hself : ToItself quadMailbox s.phys 1 := ⟨hwrite, hlocal⟩
  have herr : ans.ret = .error .EBUSY := of_decide_eq_true hret
  have hsame : t = s.phys := by
    refine (hiff 17 {} {} ans t .EBUSY hself hcall herr).mpr fun hst => ?_
    rw [show (portOf quadMailbox 17).1 = 1 from rfl, show (portOf quadMailbox 17).2 = 0 from rfl] at hst
    rw [hst.unrequested] at hreq
    cases hreq
  exact ⟨tr, s, hrun, hacts, hP, hreq, hmsg hP 1 0 hself hreq, ans, hsame ▸ hcall, herr⟩

/-- Sixteen writes to the node itself take all auxiliary mbuffers. The seventeenth fails and leaves
its port in the FIFO, so that it counts as requested with no message of its own. -/
theorem not_failed_write :
    (∃ tr s, Runs wideMailbox tr s ∧ (∀ e ∈ tr, NoOverlap e) ∧ tr.map (·.act) = localWrites 17 16 ∧
      ToItself wideMailbox s.phys 1 ∧ portOf wideMailbox 81 = (1, 16) ∧
      ∃ ans t, activeAwrite wideMailbox s.phys 81 { buffer := 64, size := 1 } {} = some (ans, t) ∧
        ans.ret = .error .EBUSY ∧ (s.phys.ports (1, 16)).requested = false ∧
        (t.ports (1, 16)).requested = true) ∧
    ∃ tr s, Runs wideMailbox tr s ∧ (∀ e ∈ tr, NoOverlap e) ∧ tr.map (·.act) = localWrites 17 17 ∧
      ToItself wideMailbox s.phys 1 ∧ (s.phys.ports (1, 16)).requested = true ∧
      ¬ HasMessage s.phys 1 16 := by
  constructor
  · obtain ⟨tr, s, hrun, hacts, hself, hfresh, hany⟩ := exists_runs_of_exec wideBoot_boot (localWrites 17 16)
      (fun r => ((r.2.phys.actives 1).resource.isWritable = true ∧
        wideMailbox.nodeIsLocal (r.2.phys.actives 1).remote = true) ∧
        (r.2.phys.ports (1, 16)).requested = false ∧
        ((activeAwrite wideMailbox r.2.phys 81 { buffer := 64, size := 1 } {}).any fun x =>
          decide (x.1.ret = .error .EBUSY ∧ (x.2.ports (1, 16)).requested = true)) = true)
      (by decide +kernel)
    obtain ⟨⟨ans, t⟩, hcall, hret⟩ := (Option.any_eq_true _ _).mp hany
    obtain ⟨herr, hreq⟩ := of_decide_eq_true hret
    exact ⟨tr, s, hrun, noOverlap_of_one_thread hrun fun a ha => .inl (localWrites_quiet a (hacts ▸ ha)),
      hacts, hself, by decide, ans, t, hcall, herr, hfresh, hreq⟩
  · obtain ⟨tr, s, hrun, hacts, hself, hreq, hnone⟩ := exists_runs_of_exec wideBoot_boot (localWrites 17 17)
      (fun r => ((r.2.phys.actives 1).resource.isWritable = true ∧
        wideMailbox.nodeIsLocal (r.2.phys.actives 1).remote = true) ∧
        (r.2.phys.ports (1, 16)).requested = true ∧ ∀ k ∈ List.range 64, (r.2.phys.mbuffers k).portid ≠ 16)
      (by decide +kernel)
    have hn : ∀ e ∈ tr, NoOverlap e :=
      noOverlap_of_one_thread hrun fun a ha => .inl (localWrites_quiet a (hacts ▸ ha))
    refine ⟨tr, s, hrun, hn, hacts, hself, hreq, ?_⟩
    rintro ⟨k, m, hk, -, hp⟩
    obtain ⟨-, rfl⟩ := slot_eq_some.mp hk
    exact hnone k (List.mem_range.mpr (slot_lt hrun hn hk)) hp

end Nanvix.Noc
