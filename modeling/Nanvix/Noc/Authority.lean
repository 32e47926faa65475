import Nanvix.Noc.Parties

/-! Who an input portal reads from. `kernel_portal_allow` names a node and a port; the flag of the
communicator and its remote address hold the allowance until a message is delivered, on the call
that finds it stored or in the wait that receives it. The one call that can put another address in
its place is the set-remote request of `communicator_ioctl`. -/

namespace Nanvix.Noc

open Nanvix.Lib Function

/-- The portal, node and port that a successful call of `kernel_portal_allow` names. -/
def allowedBy (e : Event State Act Out) : Option (ℕ × ℤ × ℤ) :=
  match e.act, e.out.ret with
  | .call (.allow id rem port), some (.ok _) => some (id.toNat, rem, port)
  | _, _ => none

/-- The source that the last successful allow on a portal names, until a message is delivered. -/
abbrev Grants := ℕ → Option (ℤ × ℤ)

def Grants.next (g : Grants) (e : Event State Act Out) : Grants :=
  match allowedBy e with
  | some (i, source) => Function.update g i (some source)
  | none =>
    match (deliveredTo e).or (takenBy e) with
    | some i => Function.update g i none
    | none => g

def grantsOf (tr : List (Event State Act Out)) : Grants := tr.foldl Grants.next fun _ => none

/-- A set-remote request that an input portal with an allowance would take keeps its address. -/
def KeepsSource (F : Facility) (e : Event State Act Out) : Prop :=
  ∀ i node port, e.act = .call (.ioctl (i : ℕ) (some (.setRemote node port))) →
    e.pre.master = .idle → (e.pre.comms i).resource.used = true →
    (e.pre.comms i).resource.isReadable = true → (e.pre.comms i).resource.busy = false →
    (e.pre.comms i).allowed = true →
    laddressCalc F node port = (e.pre.comms i).config.remoteAddr

/-- A thread has its message and has not given the allowance up yet. -/
def Spending (s : State) (i : ℕ) : Prop := ∃ tid, s.waits tid = .leaving i (.ok .success)

structure Licensed (F : Facility) (source : Option (ℤ × ℤ)) (c : Communicator) (spending : Prop) :
    Prop where
  named : c.resource.used = true → c.resource.isReadable = true → c.allowed = true →
    spending ∨ Names F source c.config.remoteAddr
  flying : c.resource.used = true → c.resource.isReadable = true → c.resource.busy = true →
    c.finished = false → c.allowed = true

structure Authorised (F : Facility) (g : Grants) (s : State) : Prop where
  licensed : ∀ i, Licensed F (g i) (s.comms i) (Spending s i)
  direct : ∀ i, s.master ≠ .allowing i
  plain : ∀ tid i, s.waits tid ≠ .resetting i

variable {F : Facility} {s t : State} {g : Grants} {o : Out} {i : ℕ} {env : Env} {ans : Answer}
  {e : Event State Act Out}

/-! ### Single calls -/

/-- `kernel_portal_allow` as a step. -/
theorem allow_cases {id rem port : ℤ} (hs : steps F s (.call (.allow id rem port)) o t) :
    (t = s ∧ o.ans = none ∧ ∀ v, o.ret ≠ some (.ok v)) ∨
      (validNode F rem = true ∧ validPort F port = true ∧ o = { ret := some (.ok 0) } ∧
        t = s.setComm id.toNat { s.comms id.toNat with
          allowed := true
          config := { (s.comms id.toNat).config with remoteAddr := laddressCompose F rem port } }) := by
  have h : (if s.master = .idle then kernelAllow F s id rem port else continues s) = .ok (o, t) := hs
  split at h
  · unfold kernelAllow at h
    split at h
    · cases h; exact .inl ⟨rfl, rfl, by simp⟩
    split at h
    · cases h; exact .inl ⟨rfl, rfl, by simp⟩
    split at h
    · cases h; exact .inl ⟨rfl, rfl, by simp⟩
    rename_i hnode
    split at h
    · cases h; exact .inl ⟨rfl, rfl, by simp⟩
    rename_i hport
    unfold doVportalAllow at h
    dsimp only at h
    split at h
    · cases h; exact .inl ⟨rfl, rfl, by simp⟩
    split at h
    · cases h; exact .inl ⟨rfl, rfl, by simp⟩
    split at h
    · cases h; exact .inl ⟨rfl, rfl, by simp⟩
    cases h
    exact .inr ⟨by simpa using hnode, by simpa using hport, rfl, rfl⟩
  · cases h; exact .inl ⟨rfl, rfl, by simp⟩

/-- A wait on a portal is over when `communicator_wait` is. -/
theorem waitReturns_portal (hk : F.kind = .portal) {tid id : ℕ} {ret : Except Err CommStatus}
    (h : waitReturns F s tid id ret = .ok (o, t)) : t = s.setWait tid .idle := by
  unfold waitReturns at h
  rw [hk] at h
  split at h <;> · cases h; rfl

theorem kernelWait_portal (hk : F.kind = .portal) {tid : ℕ} {id : ℤ} (hpc : s.waits tid = .idle)
    (h : kernelWait F s tid id = .ok (o, t)) : t.waits tid ≠ .resetting i := by
  unfold kernelWait at h
  split at h
  · cases h; simp [hpc]
  unfold communicatorWait at h
  dsimp only at h
  split at h
  · cases h; simp [hpc]
  split at h
  · cases h; simp [hpc]
  split at h
  · rw [waitReturns_portal hk h]
    simp
  · cases h; simp

theorem leave_portal (hk : F.kind = .portal) {tid : ℕ} (hs : steps F s (.resume tid env) o t)
    (hpc : s.waits tid = .leaving i (.ok .success)) : t.waits tid = .idle := by
  have h : waitStep F s tid env = .ok (o, t) := hs
  rw [waitStep, hpc] at h
  dsimp only [waitLeave] at h
  rw [waitReturns_portal hk h]
  simp

theorem resetting_of_step (hk : F.kind = .portal) {act : Act} (hs : steps F s act o t)
    (h : ∀ tid i, s.waits tid ≠ .resetting i) (tid i : ℕ) : t.waits tid ≠ .resetting i := by
  by_cases ht : act.thread = some tid
  · cases act with
    | call | master => cases ht
    | wait tid' id =>
      cases ht
      unfold steps step at hs
      dsimp only at hs
      split at hs
      · exact kernelWait_portal hk ‹_› hs
      · cases hs
        exact h tid i
    | resume tid' env =>
      cases ht
      cases steps_cases hs with
      | quiet => exact h tid i
      | succeeded _ hpc =>
        rw [leave_portal hk hs hpc]
        simp
      | rejected | entered | woken | completed | left | reset => simp
  · rw [waits_of_step hs tid ht]
    exact h tid i

/-! ### Steps -/

theorem Grants.next_same (h₁ : allowedBy e = none) (h₂ : deliveredTo e = none) (h₃ : takenBy e = none) :
    g.next e = g := by
  simp [Grants.next, h₁, h₂, h₃]

/-- An event spends the allowance of the communicators it names and of no others. -/
theorem Grants.next_other (h₁ : allowedBy e = none) (h₂ : deliveredTo e ≠ some i) (h₃ : takenBy e ≠ some i) :
    g.next e i = g i := by
  unfold Grants.next
  rw [h₁]
  dsimp only
  cases hd : deliveredTo e with
  | some j =>
    rw [hd] at h₂
    exact update_of_ne (fun hj => h₂ (congrArg some hj.symm)) _ _
  | none =>
    cases ht : takenBy e with
    | some j =>
      rw [ht] at h₃
      exact update_of_ne (fun hj => h₃ (congrArg some hj.symm)) _ _
    | none => rfl

def Communicator.licence (c : Communicator) : Resource × Bool × Bool × ℤ :=
  (c.resource, c.finished, c.allowed, c.config.remoteAddr)

theorem Licensed.congr {source : Option (ℤ × ℤ)} {c c' : Communicator} {P Q : Prop}
    (h : Licensed F source c P) (hc : c'.licence = c.licence) (hPQ : P → Q) : Licensed F source c' Q := by
  simp only [Communicator.licence, Prod.mk.injEq] at hc
  obtain ⟨hres, hfin, hall, haddr⟩ := hc
  refine ⟨fun hu hr ha => ?_, fun hu hr hb hf => ?_⟩
  · rw [haddr]
    exact (h.named (hres ▸ hu) (hres ▸ hr) (hall ▸ ha)).imp_left hPQ
  · rw [hall]
    exact h.flying (hres ▸ hu) (hres ▸ hr) (hres ▸ hb) (hfin ▸ hf)

/-- Without an allowance and with nothing under way there is nothing to hold. -/
theorem licensed_idle {source : Option (ℤ × ℤ)} {c : Communicator} {P : Prop} (ha : c.allowed = false)
    (hb : c.resource.busy = false) : Licensed F source c P where
  named _ _ h := by rw [ha] at h; cases h
  flying _ _ h := by rw [hb] at h; cases h

theorem Licensed.released {source : Option (ℤ × ℤ)} {c : Communicator} {P Q : Prop}
    (h : Licensed F source c P) (fin : Bool) (hPQ : P → Q) :
    Licensed F source { c with finished := fin }.released Q where
  named hu hr ha := (h.named hu hr ha).imp_left hPQ
  flying _ _ hb := by cases hb

theorem licensed_of_not_input {source : Option (ℤ × ℤ)} {c : Communicator} {P : Prop}
    (h : c.resource.used = true → c.resource.isReadable = false) : Licensed F source c P where
  named hu hr := by rw [h hu] at hr; cases hr
  flying hu hr := by rw [h hu] at hr; cases hr

theorem Authorised.keep (h : Authorised F g s) (hlic : ∀ i, (t.comms i).licence = (s.comms i).licence)
    (hspend : ∀ i, Spending s i → Spending t i) (hmaster : ∀ i, t.master ≠ .allowing i)
    (hplain : ∀ tid i, t.waits tid ≠ .resetting i) : Authorised F g t :=
  ⟨fun i => (h.licensed i).congr (hlic i) (hspend i), hmaster, hplain⟩

/-- A step that changes one communicator. -/
theorem Authorised.update {g' : Grants} (h : Authorised F g s) (id : ℕ)
    (hid : Licensed F (g' id) (t.comms id) (Spending t id)) (hg : ∀ i, i ≠ id → g' i = g i)
    (hcomms : ∀ i, i ≠ id → t.comms i = s.comms i) (hspend : ∀ i, i ≠ id → Spending s i → Spending t i)
    (hmaster : ∀ i, t.master ≠ .allowing i) (hplain : ∀ tid i, t.waits tid ≠ .resetting i) :
    Authorised F g' t := by
  refine ⟨fun i => ?_, hmaster, hplain⟩
  by_cases hi : i = id
  · rw [hi]; exact hid
  · rw [hg i hi]
    exact (h.licensed i).congr (by rw [hcomms i hi]) (hspend i hi)

theorem spending_of_waits (hw : t.waits = s.waits) (h : Spending s i) : Spending t i := by
  rw [Spending, hw]
  exact h

theorem spending_setWait {u : State} {tid : ℕ} {pc : WaitPc} (hu : u.waits = s.waits)
    (hpc : s.waits tid ≠ .leaving i (.ok .success)) (h : Spending s i) : Spending (u.setWait tid pc) i := by
  obtain ⟨tid', ht⟩ := h
  exact ⟨tid', leaving_setWait hu hpc ht⟩

/-- Reads and writes are done without the dummy allowance of mailboxes. -/
theorem allowing_of_step (hk : F.kind = .portal) {act : Act} (hs : steps F s act o t)
    (h : ∀ i, s.master ≠ .allowing i) : ∀ i, t.master ≠ .allowing i := by
  cases steps_cases hs with
  | noted hidle hcall hid hsize hmax hpc =>
    rcases hpc with rfl | ⟨-, -, hm⟩
    · simp
    · rw [hk] at hm; cases hm
  | opened | allocated | exhausted | counted | rolledBack | allowed | denied | failed | operated => simp
  | _ => exact h

/-- `communicator_operate` on an input portal: a message that is delivered spends the allowance. -/
theorem Licensed.operated {source source' : Option (ℤ × ℤ)} {c : Communicator} {P : Prop}
    {status : CommStatus} {stats : Pstats} (h : Licensed F source c P)
    (hallowed : c.resource.isReadable = true → c.allowed = true)
    (hsource : status ≠ .received → source' = source) :
    Licensed F source' (c.operated status stats) P := by
  by_cases hst : status = .received
  · subst hst
    exact ⟨fun _ _ ha => by simp [Communicator.operated] at ha,
      fun _ _ _ hf => by simp [Communicator.operated] at hf⟩
  · rw [hsource hst]
    refine ⟨fun hu hr ha => ?_, fun hu hr hb hf => ?_⟩
    · exact h.named hu hr (hallowed hr)
    · have := hallowed hr
      simp [Communicator.operated, this, hst]

theorem Authorised.allow {id rem port : ℤ} (hs : steps F s (.call (.allow id rem port)) o t)
    (hplain : ∀ tid i, t.waits tid ≠ .resetting i) (h : Authorised F g s) :
    Authorised F (g.next ⟨s, .call (.allow id rem port), o, t⟩) t := by
  rcases allow_cases hs with ⟨rfl, hans, hret⟩ | ⟨hnode, hport, rfl, rfl⟩
  · have hno : allowedBy ⟨t, .call (.allow id rem port), o, t⟩ = none := by
      unfold allowedBy
      dsimp only
      split
      · rename_i v hact hv
        exact absurd hv (hret _)
      · rfl
    rw [Grants.next_same hno (deliveredTo_of_none hans) (takenBy_of_master rfl)]
    exact h
  · refine h.update id.toNat ⟨fun _ _ _ => .inr ?_, fun _ _ _ _ => by simp⟩ (fun i hi => ?_) (fun i hi => ?_)
      (fun i _ hsp => hsp) h.direct hplain
    · exact ⟨rem, port, update_self _ _ _, hnode, hport, by simp⟩
    · exact update_of_ne hi _ _
    · simp [update_of_ne hi]

/-- A communicator is allocated for a new portal. -/
theorem Authorised.taken (h : Authorised F g e.pre) (id : ℕ) (hno : allowedBy e = none)
    (hdel : deliveredTo e = none) (htaken : takenBy e = some id)
    (hid : Licensed F ((g.next e) id) (e.post.comms id) (Spending e.post id))
    (hcomms : ∀ i, i ≠ id → e.post.comms i = e.pre.comms i) (hwaits : e.post.waits = e.pre.waits)
    (hmaster : ∀ i, e.post.master ≠ .allowing i) (hplain : ∀ tid i, e.post.waits tid ≠ .resetting i) :
    Authorised F (g.next e) e.post := by
  refine h.update id hid (fun i hi => ?_) hcomms (fun i _ => spending_of_waits hwaits) hmaster hplain
  exact Grants.next_other hno (by rw [hdel]; simp) (by rw [htaken]; simpa using Ne.symm hi)

/-- The set-remote request, when it keeps the address of a portal that holds an allowance. -/
theorem Licensed.remoteSet {source : Option (ℤ × ℤ)} {c : Communicator} {addr : ℤ} {P : Prop}
    (h : Licensed F source c P) (hbusy : c.resource.busy = false)
    (hkeep : c.resource.used = true → c.resource.isReadable = true → c.allowed = true →
      addr = c.config.remoteAddr) :
    Licensed F source { c with config := { c.config with remoteAddr := addr } } P where
  named hu hr ha := by
    have hold := h.named hu hr ha
    rw [← hkeep hu hr ha] at hold
    exact hold
  flying _ _ hb := by
    rw [hbusy] at hb
    cases hb

/-- The read or write that `communicator_operate` has made. -/
theorem Authorised.operated {ty : CommType} {id : ℕ} {status : CommStatus} (h : Authorised F g e.pre)
    (hno : allowedBy e = none) (hs : steps F e.pre e.act e.out e.post) (hop : Operates ty id env ans e)
    (hfits : (e.pre.comms id).fits ty = true) (hret : ans.ret = .ok status)
    (hreceived : ans.copied.isSome = true → ans.ret = .ok .received)
    (hcomms : e.post.comms = Function.update e.pre.comms id ((e.pre.comms id).operated status ans.stats))
    (hwaits : e.post.waits = e.pre.waits) (hmaster : ∀ i, e.post.master ≠ .allowing i)
    (hplain : ∀ tid i, e.post.waits tid ≠ .resetting i) : Authorised F (g.next e) e.post := by
  have hdel := deliveredTo_operates hop
  have htaken : takenBy e = none := by simp [takenBy, hop.master]
  refine h.update id ?_ (fun i hi => ?_) (fun i hi => ?_) (fun i _ => spending_of_waits hwaits) hmaster hplain
  · rw [hcomms, update_self]
    refine Licensed.congr ((h.licensed id).operated (fun hr => (hop.call hs).1 (fits_unique hfits hr))
      fun hst => ?_) rfl (spending_of_waits hwaits)
    rw [if_neg] at hdel
    · rw [Grants.next_same hno hdel htaken]
    · intro hc
      rw [hreceived hc] at hret
      exact hst (Except.ok.inj hret).symm
  · refine Grants.next_other hno ?_ (by rw [htaken]; simp)
    rw [hdel]
    split
    · simpa using Ne.symm hi
    · simp
  · rw [hcomms, update_of_ne hi]

/-- The wait that completes: if it delivers, it is about to give up the allowance. -/
theorem Authorised.completed {id : ℕ} (h : Authorised F g e.pre) (tid : ℕ) (hno : allowedBy e = none)
    (hdel : deliveredTo e = if ans.copied.isSome then some id else none) (htaken : takenBy e = none)
    (hleaving : ans.copied.isSome = true → e.post.waits tid = .leaving id (.ok .success))
    (hlic : ∀ i, (e.post.comms i).licence = (e.pre.comms i).licence)
    (hspend : ∀ i, Spending e.pre i → Spending e.post i) (hmaster : ∀ i, e.post.master ≠ .allowing i)
    (hplain : ∀ tid i, e.post.waits tid ≠ .resetting i) : Authorised F (g.next e) e.post := by
  by_cases hc : ans.copied.isSome = true
  · rw [if_pos hc] at hdel
    refine ⟨fun i => ?_, hmaster, hplain⟩
    have hold := (h.licensed i).congr (hlic i) (hspend i)
    by_cases hi : i = id
    · subst hi
      exact ⟨fun _ _ _ => .inl ⟨tid, hleaving hc⟩, hold.flying⟩
    · rw [Grants.next_other hno (by rw [hdel]; simpa using Ne.symm hi) (by rw [htaken]; simp)]
      exact hold
  · rw [if_neg hc] at hdel
    rw [Grants.next_same hno hdel htaken]
    exact h.keep hlic hspend hmaster hplain

theorem Authorised.step (hk : F.kind = .portal) (hf : Flight F e.pre)
    (hs : steps F e.pre e.act e.out e.post) (hkeep : KeepsSource F e) (h : Authorised F g e.pre) :
    Authorised F (g.next e) e.post := by
  have hmaster := allowing_of_step hk hs h.direct
  have hplain := resetting_of_step hk hs h.plain
  by_cases hallow : ∃ id rem port, e.act = .call (.allow id rem port)
  · obtain ⟨s, act, o, t⟩ := e
    obtain ⟨id, rem, port, rfl⟩ := hallow
    exact h.allow hs hplain
  have hno : allowedBy e = none := by
    unfold allowedBy
    split
    · rename_i id rem port v hact hv
      exact absurd ⟨id, rem, port, hact⟩ hallow
    · rfl
  have hsame : e.out.ans = none → takenBy e = none → g.next e = g := fun h₂ h₃ =>
    Grants.next_same hno (deliveredTo_of_none h₂) h₃
  have hop := fun {ty c env ans} (hop : Operates ty c env ans e) => deliveredTo_operates hop
  have hwait := fun {tid env ans} (hact : e.act = .resume tid env) (hans : e.out.ans = some ans) =>
    deliveredTo_resume hact hans
  obtain ⟨s, act, o, t⟩ := e
  dsimp only at hf hs h hmaster hplain hsame ⊢
  -- the communicators stay, and no thread moves
  have hstill : t.comms = s.comms → t.waits = s.waits → Authorised F g t := by
    intro hcomms hwaits
    exact h.keep (fun i => by rw [hcomms]) (fun i => spending_of_waits hwaits) hmaster hplain
  -- or a thread moves on in its wait
  have hmoves : ∀ {tid pc}, t.comms = s.comms → t.waits = Function.update s.waits tid pc →
      (∀ i, s.waits tid ≠ .leaving i (.ok .success)) → Authorised F g t := by
    intro tid pc hcomms hwaits hpc
    refine h.keep (fun i => by rw [hcomms]) (fun i hsp => ?_) hmaster hplain
    rw [Spending, hwaits]
    exact spending_setWait (u := s) rfl (hpc i) hsp
  cases steps_cases hs with
  | quiet a o hans =>
    rw [hsame hans (takenBy_of_master rfl)]
    exact h
  | opened hidle =>
    rw [hsame rfl (by simp [takenBy, hidle])]
    exact hstill rfl rfl
  | @allocated ty cfg id env hpc hid hfree =>
    refine h.taken id hno (by simp [deliveredTo]) (by simp [takenBy, hpc]) (licensed_idle ?_ ?_)
      (fun i hi => ?_) rfl hmaster hplain
    · simp [Communicator.fresh]
    · simp [Communicator.fresh]
    · simp [update_of_ne hi]
  | exhausted env hpc | counted env hpc | rolledBack env hpc | denied env err hpc =>
    rw [hsame rfl (by simp [takenBy, hpc])]
    exact hstill rfl rfl
  | @freed call id ty ph hidle =>
    rw [hsame rfl (takenBy_of_master rfl)]
    refine h.update id (licensed_of_not_input fun hu => ?_) (fun _ _ => rfl) (fun i hi => ?_)
      (fun i _ hsp => hsp) hmaster hplain
    · simp at hu
    · simp [update_of_ne hi]
  | granted => exact absurd ⟨_, _, _, rfl⟩ hallow
  | @noted call id buffer size ty pc hidle =>
    rw [hsame rfl (by simp [takenBy, hidle])]
    refine h.keep (fun i => ?_) (fun _ hsp => hsp) hmaster hplain
    by_cases hi : i = id <;> simp [hi, State.note, Communicator.licence]
  | @remoteSet id node port hidle hid hused hbusy =>
    rw [hsame rfl (takenBy_of_master rfl)]
    refine h.update id ?_ (fun _ _ => rfl) (fun i hi => ?_) (fun i _ hsp => hsp) hmaster hplain
    · rw [State.setComm_comms, update_self]
      exact (h.licensed id).remoteSet hbusy fun hu hr ha => hkeep id node port rfl hidle hu hr hbusy ha
    · simp [update_of_ne hi]
  | allowed env hpc => exact absurd hpc (h.direct _)
  | @failed ty id env ans ph err hpc hused hfits hbusy ho hret =>
    have hdel := hop ⟨rfl, hpc, rfl⟩
    rw [if_neg] at hdel
    · rw [Grants.next_same hno hdel (by simp [takenBy, hpc])]
      exact hstill rfl rfl
    · intro hc
      rw [(ho.received hc).2] at hret
      cases hret
  | @operated ty id env ans ph status hpc hused hfits hbusy ho hret =>
    exact h.operated hno hs ⟨rfl, hpc, rfl⟩ hfits hret (fun hc => (ho.received hc).2) rfl rfl hmaster hplain
  | checked hpc | rejected env hpc | entered env hpc | woken env hpc =>
    rw [hsame rfl (takenBy_of_master rfl)]
    exact hmoves rfl rfl fun i => by rw [hpc]; simp
  | @collected tid id o pc hpc hid hused hbusy hfin hans hnext =>
    have hspend : ∀ i, Spending s i →
        Spending ((s.setComm id { s.comms id with finished := false }.released).setWait tid pc) i :=
      fun i => spending_setWait rfl (by rw [hpc]; simp)
    rw [hsame hans (takenBy_of_master rfl)]
    refine h.update id ?_ (fun _ _ => rfl) (fun i hi => ?_) (fun i _ => hspend i) hmaster hplain
    · simpa using (h.licensed id).released false (hspend id)
    · simp [update_of_ne hi]
  | @completed tid id k fd m ret ans ph env hpc hget ho =>
    have hdel := hwait rfl rfl
    dsimp only at hdel
    rw [hpc] at hdel
    refine h.completed tid hno hdel (takenBy_of_master rfl) (fun hc => ?_) (fun i => ?_) (fun i => ?_)
      hmaster hplain
    · simp [(ho.received hc).1]
    · by_cases hi : i = id <;> simp [hi, Communicator.licence]
    · exact spending_setWait rfl (by rw [hpc]; simp)
  | @left tid id ret o env hpc hret hans =>
    have hspend : ∀ i, Spending s i → Spending ((s.setComm id (s.comms id).released).setWait tid .idle) i :=
      fun i => spending_setWait rfl (by rw [hpc]; simp [hret])
    rw [hsame hans (takenBy_of_master rfl)]
    refine h.update id ?_ (fun _ _ => rfl) (fun i hi => ?_) (fun i _ => hspend i) hmaster hplain
    · simpa using (h.licensed id).released (s.comms id).finished (hspend id)
    · simp [update_of_ne hi]
  | @succeeded tid id o pc env hpc hans hnext =>
    rw [hsame hans (takenBy_of_master rfl)]
    refine h.update id (licensed_idle ?_ ?_) (fun _ _ => rfl) (fun i hi => ?_) (fun i hi => ?_) hmaster hplain
    · simp [Communicator.released, Communicator.succeeded]
    · simp [Communicator.released]
    · simp [update_of_ne hi]
    · exact spending_setWait rfl (by rw [hpc]; simpa using Ne.symm hi)
  | reset env hpc => exact absurd hpc (h.plain _ _)

theorem authorised_init (h : Init F s) : Authorised F (fun _ => none) s := by
  obtain ⟨ph, -, rfl⟩ := h
  exact ⟨fun i => licensed_idle rfl rfl, fun i => by simp [initState], fun tid i => by simp [initState]⟩

/-! ### Deliveries -/

/-- The portal has no wait that ends, and an allowance of its own. -/
theorem Authorised.names (h : Authorised F g s) (hused : (s.comms i).resource.used = true)
    (hread : (s.comms i).resource.isReadable = true) (hallowed : (s.comms i).allowed = true)
    (hno : ¬ Spending s i) : Names F (g i) (s.comms i).config.remoteAddr :=
  ((h.licensed i).named hused hread hallowed).resolve_left hno

theorem Authorised.copies (h : Authorised F g e.pre) (hf : Flight F e.pre)
    (hs : steps F e.pre e.act e.out e.post) {m : Message} (hm : Copies F e i m) :
    g i = some (getActid F m.header.src, getPortid F m.header.src) := by
  cases hm with
  | stored k buf hread hm =>
    obtain ⟨env, ans, hop, hret⟩ := hread
    obtain ⟨hused, hfits, -⟩ := hf.outcome hs hop
    obtain ⟨hallowed, hbusy, -⟩ := hop.call hs
    have hno : ¬ Spending e.pre i := by
      rintro ⟨tid, ht⟩
      have hp := hf.placed tid
      rw [ht] at hp
      rw [hp.2.1] at hbusy
      cases hbusy
    rw [hm]
    exact (h.names hused hfits (hallowed rfl) hno).source hret.accepted.2
  | received tid k env fd mbufferid ret ans hact hpc hget hans hcopied hm =>
    rw [hact] at hs
    obtain ⟨k', hget', ho⟩ := waitOutcome_of_woken hs hpc hans
    obtain rfl := Option.some.inj (hget'.symm.trans hget)
    obtain ⟨hfly, hfd, -⟩ := hf.woken_loan hpc hget
    obtain ⟨-, hread, hcheck, -⟩ := ho.received (by rw [hcopied]; rfl)
    obtain ⟨ty, a, p, hfits, hb, hport⟩ := hf.port hfly.used
    rw [hfd, hport] at hread
    obtain rfl := hf.accounts.setup.readable_iff.mp hread
    obtain rfl := hb.input_iff.mpr rfl
    have hallowed := (h.licensed i).flying hfly.used hfits hfly.busy hfly.unfinished
    have hno : ¬ Spending e.pre i := by
      rintro ⟨tid', ht⟩
      exact hfly.pending tid' _ ht
    rw [hm]
    rw [headerCheck, Bool.and_eq_true] at hcheck
    exact (h.names hfly.used hfits hallowed hno).source hcheck.2

/-- An allowance that is spent is not there again before the next one is given. -/
theorem grants_none {l : List (Event State Act Out)} (hg : g i = none)
    (hl : ∀ a ∈ l, (allowedBy a).map Prod.fst ≠ some i) : l.foldl Grants.next g i = none := by
  induction l generalizing g with
  | nil => exact hg
  | cons a l ih =>
    refine ih ?_ fun b hb => hl b (List.mem_cons_of_mem _ hb)
    have ha := hl a List.mem_cons_self
    unfold Grants.next
    cases hallow : allowedBy a with
    | some x =>
      rw [hallow] at ha
      have hne : i ≠ x.1 := fun he => ha (congrArg some he.symm)
      exact (update_of_ne hne _ _).trans hg
    | none =>
      dsimp only
      cases (deliveredTo a).or (takenBy a) with
      | some j =>
        by_cases hij : i = j
        · rw [hij]; exact update_self _ _ _
        · exact (update_of_ne hij _ _).trans hg
      | none => exact hg

theorem allowedBy_of_delivered (hd : deliveredTo e = some i) : allowedBy e = none := by
  unfold allowedBy
  split
  · rename_i hact _
    unfold deliveredTo at hd
    rw [hact] at hd
    cases hd
  · rfl

theorem Grants.next_delivered (hd : deliveredTo e = some i) : g.next e i = none := by
  simp [Grants.next, allowedBy_of_delivered hd, hd]

/-- If waits on a communicator do not overlap, and set-remote requests on portals that hold an
allowance keep its address, every message that an input portal delivers comes from the source of the
last successful allow on it, and between two deliveries there is another allow. -/
theorem portal_reads_allowed {tr : List (Event State Act Out)} (hk : F.kind = .portal) (h : Runs F tr s)
    (hP : ∀ e ∈ tr, NoOverlap e ∧ KeepsSource F e) :
    (∀ l e r i, tr = l ++ e :: r → deliveredTo e = some i → (∃ m, Copies F e i m) ∧
      ∀ m, Copies F e i m →
        grantsOf l i = some (getActid F m.header.src, getPortid F m.header.src)) ∧
    ∀ l e l' e' r i, tr = l ++ e :: (l' ++ e' :: r) → deliveredTo e = some i →
      deliveredTo e' = some i → ∃ a ∈ l', (allowedBy a).map Prod.fst = some i := by
  have hdelivery : ∀ l e r i, tr = l ++ e :: r → deliveredTo e = some i → (∃ m, Copies F e i m) ∧
      ∀ m, Copies F e i m → grantsOf l i = some (getActid F m.header.src, getPortid F m.header.src) := by
    rintro l e r i rfl hd
    obtain ⟨hf, hs, hauth⟩ := flight_history Grants.next (J := Authorised F) h hP
      (fun _ h₀ => authorised_init h₀) fun g e hf hs hkeep hJ => hJ.step hk hf hs hkeep
    exact ⟨hf.copies hs hd, fun m hm => hauth.copies hf hs hm⟩
  refine ⟨hdelivery, fun l e l' e' r i htr hd hd' => ?_⟩
  by_contra hno
  push Not at hno
  obtain ⟨⟨m, hm⟩, hgrant⟩ := hdelivery (l ++ e :: l') e' r i (by rw [htr]; simp) hd'
  have hnone : grantsOf (l ++ e :: l') i = none := by
    rw [grantsOf, List.foldl_append, List.foldl_cons]
    exact grants_none (Grants.next_delivered hd) hno
  rw [hgrant m hm] at hnone
  cases hnone

def quadPortal : Facility := Facility.portal quadHal

def portalBoot : Phys := bootState quadPortal (fun _ => 0) 4 0

theorem portalBoot_boot : Boot quadPortal portalBoot := boot_of_nonneg _ fun _ => le_rfl

/-- A portal is created, allows port 2 of node 1 and reads; a message from `src` arrives, and the wait
for it is about to look at it. -/
def portalRead (between : List Act) (src : ℤ) : List Act :=
  wholeOpen (.create 0 3) ++ .call (.allow 0 1 2) :: between ++
    [.call (.aread 0 64 1), .master {}, .wait 0 0, .resume 0 {},
      .resume 0 { arrived := { header := { dest := 3, src := src }, data := [1] } }]

/-- The message comes from where the portal allows it to come from. -/
theorem portal_reads_allowed_once : ∃ tr s, Runs quadPortal tr s ∧
    tr.map (·.act) = portalRead [] 19 ++ [.resume 0 {}] ∧ (∀ e ∈ tr, NoOverlap e ∧ KeepsSource quadPortal e) ∧
    ∃ l e m, tr = l ++ [e] ∧ deliveredTo e = some 0 ∧ Copies quadPortal e 0 m ∧
      grantsOf l 0 = some (1, 2) ∧ getActid quadPortal m.header.src = 1 ∧
      getPortid quadPortal m.header.src = 2 := by
  obtain ⟨l, e, u, hruns, hall, -, hd, hg⟩ := exists_runs_last portalBoot_boot (portalRead [] 19)
    (.resume 0 {}) (fun l e => deliveredTo e = some 0 ∧ grantsOf l 0 = some (1, 2)) (by decide +kernel)
  have hP : ∀ x ∈ l ++ [e], NoOverlap x ∧ KeepsSource quadPortal x := by
    intro x hx
    refine ⟨noOverlap_of_one_thread hruns (by rw [hall]; decide) x hx, fun i node port hioctl => ?_⟩
    have hmem : x.act ∈ portalRead [] 19 ++ [.resume 0 {}] := hall ▸ List.mem_map_of_mem hx
    rw [hioctl] at hmem
    simp [portalRead, wholeOpen] at hmem
  obtain ⟨⟨m, hm⟩, hsource⟩ := (portal_reads_allowed rfl hruns hP).1 l e [] 0 rfl hd
  have hsrc := (hsource m hm).symm.trans hg
  simp only [Option.some.injEq, Prod.mk.injEq] at hsrc
  exact ⟨_, u, hruns, hall, hP, l, e, m, rfl, hd, hm, hg, hsrc⟩

/-- A set-remote request between the allow and the read puts port 3 of node 2 in the place of the
source, and a message from there is delivered. -/
theorem not_portal_reads_allowed : ∃ tr s, Runs quadPortal tr s ∧ (∀ e ∈ tr, NoOverlap e) ∧
    tr.map (·.act) = portalRead [.call (.ioctl 0 (some (.setRemote 2 3)))] 37 ++ [.resume 0 {}] ∧
    ∃ l e m, tr = l ++ [e] ∧ deliveredTo e = some 0 ∧ Copies quadPortal e 0 m ∧
      grantsOf l 0 = some (1, 2) ∧ getActid quadPortal m.header.src = 2 ∧
      getPortid quadPortal m.header.src = 3 := by
  obtain ⟨l, e, u, hruns, hall, hact, hd, hg, hpc, hget, hsrc⟩ := exists_runs_last portalBoot_boot
    (portalRead [.call (.ioctl 0 (some (.setRemote 2 3)))] 37) (.resume 0 {})
    (fun l e => deliveredTo e = some 0 ∧ grantsOf l 0 = some (1, 2) ∧ e.pre.waits 0 = .woken 0 3 0 0 ∧
      mbufferGet quadPortal (e.pre.phys.ports (0, 3)).mbufferpool 0 = some 0 ∧
      getActid quadPortal (e.pre.phys.mbuffers 0).message.header.src = 2 ∧
      getPortid quadPortal (e.pre.phys.mbuffers 0).message.header.src = 3) (by decide +kernel)
  have hn : ∀ x ∈ l ++ [e], NoOverlap x := noOverlap_of_one_thread hruns (by rw [hall]; decide)
  obtain ⟨hf, hs⟩ := flight_event hruns hn (e := e) (by simp)
  obtain ⟨m, hm⟩ := hf.copies hs hd
  refine ⟨_, u, hruns, hn, hall, l, e, m, rfl, hd, hm, hg, ?_⟩
  cases hm with
  | stored k buf hread =>
    obtain ⟨env, ans, hop, -⟩ := hread
    cases hact.symm.trans hop.act
  | received tid k env fd mbufferid ret ans hact' hpc' hget' hans hcopied hm =>
    cases hact.symm.trans hact'
    cases hpc.symm.trans hpc'
    obtain rfl := Option.some.inj (hget.symm.trans hget')
    rw [hm]
    exact hsrc

end Nanvix.Noc
