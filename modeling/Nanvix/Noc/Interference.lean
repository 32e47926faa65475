import Nanvix.Noc.Assertions

/-! Calls that are rejected while an operation is in flight. A read or write call notes its buffer
and size in the communicator before it looks whether the communicator is busy, and the wait for the
operation in flight reads them from there. So a rejected call leaves the communicator as it was
only if it brings nothing new, and the operation ends in the buffer it was started with if every
call in between is of that kind. -/

namespace Nanvix.Noc

open Nanvix.Lib Function

/-- The buffer and the size that a communicator operates with. -/
def Config.span (cfg : Config) : ℕ × ℕ := (cfg.buffer, cfg.size)

/-- The communicator, buffer and size of a read or write call. -/
def Act.transfer : Act → Option (ℤ × ℕ × ℕ)
  | .call (.aread id buffer size) => some (id, buffer, size)
  | .call (.awrite id buffer size) => some (id, buffer, size)
  | _ => none

/-- The communicator that a read or write call on the master core is at. -/
def MasterPc.target : MasterPc → Option ℕ
  | .allowing id => some id
  | .operating _ id => some id
  | _ => none

variable (F : Facility)

def argsValid (id : ℤ) (buffer size : ℕ) : Bool :=
  validComm F id && decide (¬ (size = 0 ∨ F.maxSize < size)) && decide (buffer ≠ 0) &&
    F.mmCheckArea buffer size

/-- The event is a section of a read or write call on communicator `i`. -/
def CallSection (e : Event State Act Out) (i : ℕ) : Prop :=
  (∃ buffer size, e.act.transfer = some ((i : ℤ), buffer, size) ∧ e.pre.master = .idle) ∨
    ∃ env, e.act = .master env ∧ e.pre.master.target = some i

/-- A call on a communicator with an operation in flight brings nothing new: its arguments are
refused or are those of the communicator, and a mailbox read finds the allowance set. -/
def BringsNothing (e : Event State Act Out) : Prop :=
  ∀ i, InFlight e.pre i →
    (∀ buffer size, e.act.transfer = some ((i : ℤ), buffer, size) → e.pre.master = .idle →
      argsValid F i buffer size = true → (buffer, size) = (e.pre.comms i).config.span) ∧
    (∀ env, e.act = .master env → e.pre.master = .allowing i → (e.pre.comms i).allowed = true)

/-- No wait on a communicator ends while a read or write call on it is between its sections. -/
def NoEndBetween (e : Event State Act Out) : Prop :=
  ∀ i, e.pre.master.target = some i →
    (∀ tid env ret, e.act = .resume tid env → e.pre.waits tid ≠ .leaving i ret) ∧
    (∀ tid, e.act = .wait tid i → (e.pre.comms i).finished = false)

variable {F} {s t : State} {i : ℕ}

/-! ### One call -/

theorem kernelTransfer_invalid {id : ℤ} {buffer size : ℕ} (ty : CommType)
    (h : argsValid F id buffer size = false) :
    ∃ err, kernelTransfer F s id buffer size ty = returns (.error err) s := by
  unfold kernelTransfer
  split
  · exact ⟨_, rfl⟩
  split
  · exact ⟨_, rfl⟩
  split
  · exact ⟨_, rfl⟩
  split
  · exact ⟨_, rfl⟩
  · simp_all [argsValid]

theorem kernelTransfer_valid {id : ℤ} {buffer size : ℕ} (ty : CommType)
    (h : argsValid F id buffer size = true) :
    ∃ pc, kernelTransfer F s id buffer size ty =
        continues { s.note id.toNat ty buffer size with master := pc } := by
  simp only [argsValid, Bool.and_eq_true, decide_eq_true_eq] at h
  obtain ⟨⟨⟨hid, hsize⟩, hbuf⟩, harea⟩ := h
  unfold kernelTransfer
  rw [if_neg (by simp [hid]), if_neg hsize, if_neg hbuf, if_neg (by simp [harea])]
  dsimp only
  split
  · exact ⟨_, rfl⟩
  · exact ⟨_, rfl⟩

theorem step_transfer {act : Act} {id : ℤ} {buffer size : ℕ} (h : act.transfer = some (id, buffer, size))
    (hidle : s.master = .idle) :
    ∃ ty, step F s act = kernelTransfer F s id buffer size ty := by
  cases act with
  | call c =>
    cases c with
    | aread | awrite =>
      cases h
      exact ⟨_, if_pos hidle⟩
    | _ => cases h
  | _ => cases h

/-- The first section of a call: nothing, or its arguments are noted. -/
theorem comms_of_transfer {act : Act} {o : Out} {buffer size : ℕ} (hs : steps F s act o t)
    (h : act.transfer = some ((i : ℤ), buffer, size)) (hidle : s.master = .idle) :
    (argsValid F i buffer size = false ∧ t = s) ∨ (argsValid F i buffer size = true ∧ ∃ ty pc,
      t = { s.note i ty buffer size with master := pc }) := by
  obtain ⟨ty, hstep⟩ := step_transfer (F := F) h hidle
  rw [steps, hstep] at hs
  cases hargs : argsValid F i buffer size with
  | false =>
    obtain ⟨err, hk⟩ := kernelTransfer_invalid (s := s) ty hargs
    rw [hk] at hs
    exact .inl ⟨rfl, (Prod.mk.inj (Except.ok.inj hs)).2.symm⟩
  | true =>
    obtain ⟨pc, hk⟩ := kernelTransfer_valid (s := s) ty hargs
    rw [hk] at hs
    exact .inr ⟨rfl, ty, pc, (Prod.mk.inj (Except.ok.inj hs)).2.symm⟩

/-- `communicator_operate` is the last section of its call, and does nothing if the communicator is busy. -/
theorem operating_cases {env : Env} {o : Out} {ty : CommType} (hs : steps F s (.master env) o t)
    (hpc : s.master = .operating ty i) :
    t.master = .idle ∧ ((s.comms i).resource.busy = true → t = { s with master := .idle }) := by
  have h : communicatorOperate F { s with master := .idle } i ty env = .ok (o, t) := by
    have hm : masterStep F s env = .ok (o, t) := hs
    rwa [masterStep, hpc] at hm
  unfold communicatorOperate at h
  dsimp only at h
  split at h
  · cases h; exact ⟨rfl, fun _ => rfl⟩
  split at h
  · cases h; exact ⟨rfl, fun _ => rfl⟩
  split at h
  · cases h; exact ⟨rfl, fun _ => rfl⟩
  split at h
  · cases h; exact ⟨rfl, fun _ => rfl⟩
  rename_i hidle
  split at h
  · cases h
  split at h
  · cases h; exact ⟨rfl, fun hbusy => absurd hbusy hidle⟩
  · cases h; exact ⟨rfl, fun hbusy => absurd hbusy hidle⟩

theorem allowing_next {env : Env} {o : Out} (hs : steps F s (.master env) o t)
    (hpc : s.master = .allowing i) :
    t = { s.setComm i { s.comms i with allowed := true } with master := .operating .input i } := by
  have hm : masterStep F s env = .ok (o, t) := hs
  rw [masterStep, hpc] at hm
  exact (Prod.mk.inj (Except.ok.inj hm)).2.symm

theorem note_span_iff (s : State) (ty : CommType) (buffer size : ℕ) :
    (s.note i ty buffer size).comms i = s.comms i ↔ (buffer, size) = (s.comms i).config.span := by
  simp only [State.note, State.setComm_comms, update_self, Config.span, Prod.mk.injEq]
  constructor
  · intro h
    rw [← h]
    exact ⟨rfl, rfl⟩
  · rintro ⟨rfl, rfl⟩
    rfl

/-- The sections of read and write calls leave the communicators in flight alone if and only if
they bring nothing new. -/
theorem sections_unchanged_iff {e : Event State Act Out} (hs : steps F e.pre e.act e.out e.post) :
    (∀ i, CallSection e i → InFlight e.pre i → e.post.comms i = e.pre.comms i) ↔ BringsNothing F e := by
  constructor
  · intro h i hf
    refine ⟨fun buffer size hact hidle hargs => ?_, fun env hact hpc => ?_⟩
    · have hsame := h i (.inl ⟨buffer, size, hact, hidle⟩) hf
      rcases comms_of_transfer hs hact hidle with ⟨hno, -⟩ | ⟨-, ty, pc, hpost⟩
      · rw [hargs] at hno
        cases hno
      · rw [hpost] at hsame
        exact (note_span_iff e.pre ty buffer size).mp hsame
    · have hsame := h i (.inr ⟨env, hact, by rw [hpc]; rfl⟩) hf
      rw [hact] at hs
      rw [allowing_next hs hpc] at hsame
      have := congrArg Communicator.allowed hsame
      simpa using this.symm
  · intro h i hsec hf
    obtain ⟨hcall, hallow⟩ := h i hf
    rcases hsec with ⟨buffer, size, hact, hidle⟩ | ⟨env, hact, hpc⟩
    · rcases comms_of_transfer hs hact hidle with ⟨-, hpost⟩ | ⟨hargs, ty, pc, hpost⟩
      · rw [hpost]
      · rw [hpost]
        exact (note_span_iff e.pre ty buffer size).mpr (hcall buffer size hact hidle hargs)
    · rw [hact] at hs
      cases hm : e.pre.master with
      | allowing id =>
        obtain rfl : id = i := by rw [hm] at hpc; exact Option.some.inj hpc
        rw [allowing_next hs hm]
        have hall := hallow env hact hm
        simp only [State.setComm_comms, update_self]
        rw [← hall]
      | operating ty id =>
        obtain rfl : id = i := by rw [hm] at hpc; exact Option.some.inj hpc
        rw [(operating_cases hs hm).2 hf.busy]
      | _ => rw [hm] at hpc; cases hpc

/-! ### The buffer an operation ends in -/

/-- The buffer and size of the call that the master core serves, and of the calls that have started
the operations of the communicators. -/
structure Asked where
  call : ℕ × ℕ := (0, 0)
  ops : ℕ → ℕ × ℕ := fun _ => (0, 0)

/-- How an event moves them: a call is taken, or the last section of one has succeeded. -/
def Asked.next (g : Asked) (e : Event State Act Out) : Asked :=
  match e.act.transfer with
  | some (_, buffer, size) => if e.pre.master = .idle then { g with call := (buffer, size) } else g
  | none =>
    match e.act, e.pre.master, e.out.ret with
    | .master _, .operating _ i, some (.ok _) => { g with ops := update g.ops i g.call }
    | _, _, _ => g

def askedBy (tr : List (Event State Act Out)) : Asked := tr.foldl Asked.next {}

structure Remembers (g : Asked) (s : State) : Prop where
  call : ∀ i, s.master.target = some i → (s.comms i).config.span = g.call
  op : ∀ i, InFlight s i → (s.comms i).config.span = g.ops i

variable {g : Asked} {a : Act} {o : Out}

theorem Asked.next_of_not_master (htr : a.transfer = none) (hm : ∀ env, a ≠ .master env) :
    g.next ⟨s, a, o, t⟩ = g := by
  unfold Asked.next
  rw [htr]
  cases a with
  | master env => exact absurd rfl (hm env)
  | _ => rfl

theorem Asked.next_of_not_operating {env : Env} (hm : ∀ ty i, s.master ≠ .operating ty i) :
    g.next ⟨s, .master env, o, t⟩ = g := by
  unfold Asked.next
  dsimp only [Act.transfer]
  cases hpc : s.master with
  | operating ty i => exact absurd hpc (hm ty i)
  | _ => rfl

theorem Asked.next_of_error {env : Env} {err : Err} (ho : o.ret = some (.error err)) :
    g.next ⟨s, .master env, o, t⟩ = g := by
  unfold Asked.next
  dsimp only [Act.transfer]
  rw [ho]
  cases s.master <;> rfl

/-- No flight begins, and the buffers that matter stay. -/
theorem Remembers.keep (h : Remembers g s) (htarget : ∀ i, t.master.target = some i → s.master.target = some i)
    (hfly : ∀ i, InFlight t i → InFlight s i)
    (hspan : ∀ i, InFlight t i ∨ t.master.target = some i → (t.comms i).config.span = (s.comms i).config.span) :
    Remembers g t where
  call i hi := (hspan i (.inr hi)).trans (h.call i (htarget i hi))
  op i hi := (hspan i (.inl hi)).trans (h.op i (hfly i hi))

/-- A flight was there before a step that neither starts it nor ends a wait. -/
theorem InFlight.back (h : InFlight t i) (ha : (t.comms i).activity = (s.comms i).activity)
    (hw : ∀ tid ret, s.waits tid = .leaving i ret → t.waits tid = .leaving i ret) : InFlight s i :=
  h.congr ha.symm hw

theorem leaving_setWait {u : State} {tid tid' : ℕ} {pc : WaitPc} {ret : Except Err CommStatus}
    (hu : u.waits = s.waits) (hpc : s.waits tid ≠ .leaving i ret) (h : s.waits tid' = .leaving i ret) :
    (u.setWait tid pc).waits tid' = .leaving i ret := by
  have hne : tid' ≠ tid := by
    rintro rfl
    exact hpc h
  rw [State.setWait_waits, update_of_ne hne, hu, h]

theorem setComm_span {c : Communicator} {id : ℕ} (hc : c.config.span = (s.comms id).config.span) (i : ℕ) :
    ((s.setComm id c).comms i).config.span = (s.comms i).config.span := by
  by_cases hi : i = id
  · rw [hi, State.setComm_comms, update_self, hc]
  · rw [State.setComm_comms, update_of_ne hi]

/-- A flight is not at a communicator that is not busy. -/
theorem InFlight.ne_of_idle {id : ℕ} (h : InFlight t i) (hid : (t.comms id).resource.busy = false) : i ≠ id := by
  rintro rfl
  exact not_inFlight_of_idle hid h

theorem Remembers.same_comms (h : Remembers g s) (hcomms : t.comms = s.comms) (hwaits : t.waits = s.waits)
    (htarget : ∀ i, t.master.target = some i → s.master.target = some i) : Remembers g t :=
  h.keep htarget (fun i hi => hi.back (by rw [hcomms]) fun _ _ hl => by rwa [hwaits])
    fun i _ => by rw [hcomms]

theorem Remembers.setPhys (h : Remembers g s) (ph : Phys) : Remembers g { s with phys := ph } :=
  h.same_comms rfl rfl fun _ hi => hi

/-- A communicator changes, but neither its flight nor its buffer. -/
theorem Remembers.setComm {id : ℕ} {c : Communicator} (h : Remembers g s)
    (hact : c.activity = (s.comms id).activity) (hspan : c.config.span = (s.comms id).config.span) :
    Remembers g (s.setComm id c) := by
  refine h.keep (fun _ hi => hi) (fun i hi => hi.back ?_ fun _ _ hl => hl) fun i _ => setComm_span hspan i
  by_cases hid : i = id
  · rw [hid, State.setComm_comms, update_self, hact]
  · rw [State.setComm_comms, update_of_ne hid]

/-- A thread moves on, but does not end its wait. -/
theorem Remembers.setWait {tid : ℕ} {pc : WaitPc} (h : Remembers g s)
    (hpc : ∀ i ret, s.waits tid ≠ .leaving i ret) : Remembers g (s.setWait tid pc) :=
  h.keep (fun _ hi => hi) (fun i hi => hi.back rfl fun _ ret => leaving_setWait rfl (hpc i ret)) fun _ _ => rfl

/-- A communicator becomes idle, and no call is at it. -/
theorem Remembers.idle (h : Remembers g s) (id : ℕ) (hmaster : t.master = s.master)
    (hid : (t.comms id).resource.busy = false) (htarget : s.master.target ≠ some id)
    (hcomms : ∀ i, i ≠ id → t.comms i = s.comms i)
    (hwaits : ∀ i, i ≠ id → ∀ tid ret, s.waits tid = .leaving i ret → t.waits tid = .leaving i ret) :
    Remembers g t := by
  refine h.keep (fun i hi => hmaster ▸ hi) (fun i hi => ?_) fun i hi => ?_
  · have hne := hi.ne_of_idle hid
    exact hi.back (by rw [hcomms i hne]) (hwaits i hne)
  · have hne : i ≠ id := by
      rcases hi with hi | hi
      · exact hi.ne_of_idle hid
      · rintro rfl
        exact htarget (hmaster ▸ hi)
    rw [hcomms i hne]

theorem Remembers.quiet (h : Remembers g s) (hs : steps F s a o s) : Remembers (g.next ⟨s, a, o, s⟩) s := by
  cases htr : a.transfer with
  | some q =>
    simp only [Asked.next, htr]
    split_ifs with hidle
    · refine ⟨fun i hi => ?_, h.op⟩
      rw [hidle] at hi
      cases hi
    · exact h
  | none =>
    have hg : g.next ⟨s, a, o, s⟩ = g := by
      cases a with
      | master env =>
        refine Asked.next_of_not_operating fun ty i hpc => ?_
        have hidle := (operating_cases hs hpc).1
        rw [hpc] at hidle
        cases hidle
      | _ => exact Asked.next_of_not_master htr (fun env h => by cases h)
    rw [hg]
    exact h

/-- A call notes its buffer and size. -/
theorem Remembers.noted {call : KernelCall} {id buffer size : ℕ} {ty : CommType} {pc : MasterPc}
    (h : Remembers g s) (hs : steps F s (.call call) o { s.note id ty buffer size with master := pc })
    (hb : BringsNothing F ⟨s, .call call, o, { s.note id ty buffer size with master := pc }⟩)
    (hmaster : s.master = .idle)
    (htr : (Act.call call).transfer = some ((id : ℤ), buffer, size)) (hpc : pc.target = some id) :
    Remembers (g.next ⟨s, .call call, o, { s.note id ty buffer size with master := pc }⟩)
      { s.note id ty buffer size with master := pc } := by
  have hg : g.next ⟨s, .call call, o, { s.note id ty buffer size with master := pc }⟩ =
      { g with call := (buffer, size) } := by
    simp only [Asked.next, htr, hmaster, if_true]
  have hspan : ((s.note id ty buffer size).comms id).config.span = (buffer, size) := by
    simp [State.note, Config.span]
  have hother : ∀ i, i ≠ id → (s.note id ty buffer size).comms i = s.comms i := by
    intro i hi
    simp [State.note, update_of_ne hi]
  rw [hg]
  refine ⟨fun i hi => ?_, fun i hi => ?_⟩
  · obtain rfl : id = i := Option.some.inj (hpc.symm.trans hi)
    exact hspan
  · by_cases hid : i = id
    · subst hid
      have hf : InFlight s i := hi.back (by simp [State.note, Communicator.activity]) fun _ _ hl => hl
      rcases comms_of_transfer hs htr hmaster with ⟨-, hsame⟩ | ⟨hargs, -⟩
      · -- a call that is refused does not move the master core
        have := congrArg State.master hsame
        rw [hmaster] at this
        rw [show pc = .idle from this] at hpc
        cases hpc
      · exact hspan.trans (((hb i hf).1 buffer size htr hmaster hargs).trans (h.op i hf))
    · have hf : InFlight s i := hi.back (by rw [hother i hid]) fun _ _ hl => hl
      exact (congrArg (·.config.span) (hother i hid)).trans (h.op i hf)

/-- An operation starts with the buffer and size of its call. -/
theorem Remembers.operated {id : ℕ} {ty : CommType} {env : Env} {ph : Phys} {c : Communicator} {v : ℤ}
    (h : Remembers g s) (hpc : s.master = .operating ty id) (ho : o.ret = some (.ok v))
    (hspan : c.config.span = (s.comms id).config.span) :
    Remembers (g.next ⟨s, .master env, o, { s with phys := ph, master := .idle }.setComm id c⟩)
      ({ s with phys := ph, master := .idle }.setComm id c) := by
  have hg : g.next ⟨s, .master env, o, { s with phys := ph, master := .idle }.setComm id c⟩ =
      { g with ops := update g.ops id g.call } := by
    simp only [Asked.next, Act.transfer, hpc, ho]
  rw [hg]
  refine ⟨fun i hi => (by cases hi), fun i hi => ?_⟩
  by_cases hid : i = id
  · subst hid
    dsimp only
    rw [State.setComm_comms, update_self, update_self, hspan]
    exact h.call i (by rw [hpc]; rfl)
  · have hf : InFlight s i := hi.back (by simp [update_of_ne hid]) fun _ _ hl => hl
    dsimp only
    rw [State.setComm_comms, update_of_ne hid, update_of_ne hid]
    exact h.op i hf

theorem Remembers.step {e : Event State Act Out} (h : Remembers g e.pre)
    (hs : steps F e.pre e.act e.out e.post) (hb : BringsNothing F e) (hend : NoEndBetween e) :
    Remembers (g.next e) e.post := by
  obtain ⟨s, a, o, t⟩ := e
  dsimp only at h hs
  have hcall : ∀ {c : KernelCall}, (Act.call c).transfer = none → g.next ⟨s, .call c, o, t⟩ = g :=
    fun htr => Asked.next_of_not_master htr fun env h => by cases h
  have hresume : ∀ {tid env}, g.next ⟨s, .resume tid env, o, t⟩ = g := fun {tid env} =>
    Asked.next_of_not_master rfl fun env h => by cases h
  have hwait : ∀ {tid id}, g.next ⟨s, .wait tid id, o, t⟩ = g := fun {tid id} =>
    Asked.next_of_not_master rfl fun env h => by cases h
  cases steps_cases hs with
  | quiet => exact h.quiet hs
  | opened hmaster hcreate hlocal hport hrem ho =>
    rw [hcall (by rcases hcreate with ⟨rfl, -⟩ | ⟨l, rfl, -⟩ <;> rfl)]
    exact h.same_comms rfl rfl fun i hi => by cases hi
  | @allocated ty cfg id env hpc hid hfree =>
    rw [Asked.next_of_not_operating fun ty i h => by rw [hpc] at h; cases h]
    have hbusy : ((s.setComm id (.fresh cfg ty)).comms id).resource.busy = false := by
      simp [Communicator.fresh]
    refine h.keep (fun i hi => by cases hi) (fun i hi => ?_) fun i hi => ?_
    · have hne := hi.ne_of_idle hbusy
      exact hi.back (by simp [update_of_ne hne]) fun _ _ hl => hl
    · rcases hi with hi | hi
      · have hne := hi.ne_of_idle hbusy
        simp [update_of_ne hne]
      · cases hi
  | exhausted env hpc hfull | counted env hpc | rolledBack env hpc hv ho =>
    rw [Asked.next_of_not_operating fun ty i h => by rw [hpc] at h; cases h]
    exact h.same_comms rfl rfl fun i hi => by cases hi
  | @freed call id ty ph hmaster hfree hid hused hfits hbusy hv ho =>
    rw [hcall (by rcases hfree with ⟨rfl, -⟩ | ⟨rfl, -⟩ <;> rfl)]
    exact h.idle id rfl (by simpa using hbusy) (by rw [hmaster]; simp [MasterPc.target])
      (fun i hi => by simp [update_of_ne hi]) fun _ _ _ _ hl => hl
  | granted => rw [hcall rfl]; exact h.setComm rfl rfl
  | @noted call id buffer size ty pc hmaster hkind hid hsize hmax hpc =>
    refine h.noted hs hb hmaster ?_ ?_
    · rcases hkind with ⟨rfl, -⟩ | ⟨rfl, -⟩ <;> rfl
    · rcases hpc with rfl | ⟨rfl, -⟩ <;> rfl
  | remoteSet => rw [hcall rfl]; exact h.setComm rfl rfl
  | @allowed id env hpc =>
    rw [Asked.next_of_not_operating fun ty i h => by rw [hpc] at h; cases h]
    have hset : Remembers g (s.setComm id { s.comms id with allowed := true }) := h.setComm rfl rfl
    refine hset.same_comms rfl rfl fun i hi => ?_
    show s.master.target = some i
    rw [hpc]
    exact hi
  | denied env err hpc | failed hpc hused hfits hbusy ho hret =>
    rw [Asked.next_of_error rfl]
    exact h.same_comms rfl rfl fun i hi => by cases hi
  | operated hpc hused hfits hbusy ho hret => exact h.operated hpc rfl rfl
  | checked hpc => rw [hwait]; exact h.setWait fun i ret hl => by rw [hpc] at hl; cases hl
  | @collected tid id o pc hpc hid hused hbusy hfin hans hnext =>
    rw [hwait]
    refine h.idle id rfl (by simp [Communicator.released]) (fun htarget => ?_)
      (fun i hi => by simp [update_of_ne hi])
      fun i _ _ ret => leaving_setWait rfl fun hl => by rw [hpc] at hl; cases hl
    have := (hend id htarget).2 tid rfl
    rw [show (s.comms id).finished = true from hfin] at this
    cases this
  | rejected env hpc => rw [hresume]; exact h.setWait fun i ret hl => by rw [hpc] at hl; cases hl
  | entered env hpc => rw [hresume]; exact h.setWait fun i ret hl => by rw [hpc] at hl; cases hl
  | @woken tid id fd m env hpc =>
    rw [hresume]
    refine (h.setPhys _).setWait fun i ret hl => ?_
    rw [show s.waits tid = .leaving i ret from hl] at hpc
    cases hpc
  | @completed tid id k fd m ret ans ph env hpc hget ho =>
    rw [hresume]
    refine Remembers.setWait (Remembers.setComm (h.setPhys ph) rfl rfl) fun i ret hl => ?_
    rw [show s.waits tid = .leaving i ret from hl] at hpc
    cases hpc
  | @left tid id ret o env hpc hret hans =>
    rw [hresume]
    exact h.idle id rfl (by simp [Communicator.released])
      (fun htarget => (hend id htarget).1 tid env ret rfl hpc)
      (fun i hi => by simp [update_of_ne hi])
      fun i hi _ ret => leaving_setWait rfl fun hl => by rw [hpc] at hl; cases hl; exact hi rfl
  | @succeeded tid id o pc env hpc hans hnext =>
    rw [hresume]
    exact h.idle id rfl (by simp [Communicator.released])
      (fun htarget => (hend id htarget).1 tid env _ rfl hpc)
      (fun i hi => by simp [update_of_ne hi])
      fun i hi _ ret => leaving_setWait rfl fun hl => by rw [hpc] at hl; cases hl; exact hi rfl
  | @reset tid id env hpc cfg hcfg =>
    rw [hresume]
    refine (h.setComm ?_ ?_).setWait fun i ret hl => ?_
    · rcases hcfg with rfl | ⟨-, rfl⟩ <;> rfl
    · rcases hcfg with rfl | ⟨-, rfl⟩ <;> rfl
    · rw [show s.waits tid = .leaving i ret from hl] at hpc
      cases hpc

theorem remembers_init (h : Init F s) : Remembers {} s := by
  obtain ⟨ph, -, rfl⟩ := h
  exact ⟨fun i hi => (by cases hi), fun i hi => (by cases hi.busy)⟩

/-- What the last section of `active_wait` copies goes to the buffer it finds. -/
theorem WaitOutcome.copied_span {s t : Phys} {a p k : ℕ} {ret : ℤ} {cfg : Config} {ans : Answer}
    (h : WaitOutcome F s a p k ret cfg ans t) {addr : ℕ} {bytes : List UInt8}
    (hc : ans.copied = some (addr, bytes)) : addr = cfg.buffer ∧ bytes.length ≤ cfg.size := by
  cases h with
  | failed | ignored | written | plain => cases hc
  | consumed =>
    cases hc
    exact ⟨rfl, List.length_take_le _ _⟩

/-- Read and write calls leave a communicator with an operation in flight unchanged exactly if each
of them brings nothing new. Then, if no two waits on a communicator overlap and none ends
between the sections of a call on it, every operation ends with the buffer and size of the
call that started it. -/
theorem calls_in_flight_iff {tr : List (Event State Act Out)} (h : Runs F tr s) :
    ((∀ e ∈ tr, ∀ i, CallSection e i → InFlight e.pre i → e.post.comms i = e.pre.comms i) ↔
      ∀ e ∈ tr, BringsNothing F e) ∧
    ((∀ e ∈ tr, BringsNothing F e) → (∀ e ∈ tr, NoOverlap e) → (∀ e ∈ tr, NoEndBetween e) →
      ∀ l e r tid env i fd m ret ans, tr = l ++ e :: r → e.act = .resume tid env →
        e.pre.waits tid = .woken i fd m ret → e.out.ans = some ans →
        (e.pre.comms i).config.span = (askedBy l).ops i ∧
          ∀ addr bytes, ans.copied = some (addr, bytes) →
            addr = ((askedBy l).ops i).1 ∧ bytes.length ≤ ((askedBy l).ops i).2) := by
  constructor
  · obtain ⟨s₀, -, hrun⟩ := h
    constructor
    · exact fun hsame e he => (sections_unchanged_iff (hrun.step_of_mem he)).mp (hsame e he)
    · exact fun hb e he => (sections_unchanged_iff (hrun.step_of_mem he)).mpr (hb e he)
  · intro hb hn hend l e r tid env i fd m ret ans htr hact hpc hans
    obtain ⟨hflight, hs⟩ := flight_event h hn (e := e) (by rw [htr]; simp)
    obtain ⟨s₀, h₀, hrun⟩ := h
    subst htr
    have hmem : Remembers (askedBy l) e.pre :=
      hrun.history_at Asked.next (P := fun _ e => BringsNothing F e ∧ NoEndBetween e) (J := Remembers)
        (remembers_init h₀) (fun l' e' r' heq => ⟨hb e' (by rw [heq]; simp), hend e' (by rw [heq]; simp)⟩)
        fun g e hs hP hJ => hJ.step hs hP.1 hP.2
    rw [hact] at hs
    obtain ⟨k, hget, ho⟩ := waitOutcome_of_woken hs hpc hans
    have hspan := hmem.op i (hflight.woken_loan hpc hget).1
    refine ⟨hspan, fun addr bytes hc => ?_⟩
    rw [← hspan]
    exact ho.copied_span hc

/-- A mailbox is created and a read started on it; then a second read, and a wait for the first. -/
def secondRead (buffer size : ℕ) : List Act :=
  wholeOpen (.create 0 3) ++ [.call (.aread 0 64 1), .master {}, .master {}, .call (.aread 0 buffer size),
    .master {}, .master {}, .wait 0 0, .resume 0 {},
    .resume 0 { arrived := { header := { dest := 3, src := 17 }, data := [1, 2] } }, .resume 0 {}]

/-- The second read has the buffer and size of the first. -/
theorem calls_in_flight_iff_same :
    ∃ tr s, Runs quadMailbox tr s ∧ tr.map (·.act) = secondRead 64 1 ∧ (∀ e ∈ tr, BringsNothing quadMailbox e) ∧
      (tr.map (·.out.ret))[8]? = some (some (.error .EBUSY)) ∧
      ∀ e ∈ tr, ∀ i, CallSection e i → InFlight e.pre i → e.post.comms i = e.pre.comms i := by
  obtain ⟨tr, s, hrun, hacts, hret, hcalm⟩ := exists_runs_of_exec quadBoot_boot (secondRead 64 1)
    (fun r => (r.1.map (·.out.ret))[8]? = some (some (.error .EBUSY)) ∧ ∀ e ∈ r.1,
      (∀ q ∈ e.act.transfer, (e.pre.comms q.1.toNat).resource.busy = true →
        q.2 = (e.pre.comms q.1.toNat).config.span) ∧
      ∀ i ∈ e.pre.master.target, (e.pre.comms i).resource.busy = true → (e.pre.comms i).allowed = true)
    (by decide +kernel)
  have hb : ∀ e ∈ tr, BringsNothing quadMailbox e := by
    intro e he i hf
    obtain ⟨hcall, hallow⟩ := hcalm e he
    refine ⟨fun buffer size hact _ _ => ?_, fun env _ hpc => ?_⟩
    · exact hcall _ hact (by simpa using hf.busy)
    · exact hallow i (by rw [hpc]; rfl) hf.busy
  exact ⟨tr, s, hrun, hacts, hb, hret, (calls_in_flight_iff hrun).1.mpr hb⟩

/-- The second read has another buffer and size. It is rejected, but the communicator has them from
then on, and the message that the first read waits for is copied to the second buffer. -/
theorem not_calls_in_flight :
    ∃ tr s, Runs quadMailbox tr s ∧ (∀ e ∈ tr, NoOverlap e) ∧ tr.map (·.act) = secondRead 96 2 ∧
      (∃ l e r, tr = l ++ e :: r ∧ CallSection e 0 ∧ InFlight e.pre 0 ∧
        e.post.comms 0 ≠ e.pre.comms 0 ∧ (askedBy l).ops 0 = (64, 1)) ∧
      (tr.map (·.out.ret))[8]? = some (some (.error .EBUSY)) ∧
      (tr.map fun e => e.out.ans.bind (·.copied))[12]? = some (some (96, [1, 2])) := by
  obtain ⟨tr, s, hrun, hacts, hret, hcopy, hops, hsec⟩ := exists_runs_of_exec quadBoot_boot (secondRead 96 2)
    (fun r => (r.1.map (·.out.ret))[8]? = some (some (.error .EBUSY)) ∧
      (r.1.map fun e => e.out.ans.bind (·.copied))[12]? = some (some (96, [1, 2])) ∧
      (askedBy (r.1.take 6)).ops 0 = (64, 1) ∧
      (r.1[6]?).any fun e => e.act.transfer = some (0, 96, 2) ∧ e.pre.master = .idle ∧
        ((e.pre.comms 0).resource.used = true ∧ (e.pre.comms 0).resource.busy = true ∧
          (e.pre.comms 0).finished = false) ∧ e.post.comms 0 ≠ e.pre.comms 0)
    (by decide +kernel)
  obtain ⟨e, htr, he⟩ := exists_event_at 6 hsec
  obtain ⟨hact, hmaster, ⟨hused, hbusy, hfin⟩, hne⟩ := of_decide_eq_true he
  refine ⟨tr, s, hrun, noOverlap_of_one_thread hrun (by rw [hacts]; decide), hacts,
    ⟨_, e, _, htr, .inl ⟨96, 2, hact, hmaster⟩, ⟨hused, hbusy, hfin, fun tid ret hl => ?_⟩, hne, hops⟩,
    hret, hcopy⟩
  -- nobody has called a wait yet
  obtain ⟨s₀, h₀, hrun⟩ := hrun
  dsimp only at htr
  rw [htr] at hrun
  have hidle : e.pre.waits tid = .idle := idle_of_no_act ⟨s₀, h₀, (Run.at_event hrun).1⟩ fun a ha => by
    rw [List.map_take, hacts] at ha
    have hno : ∀ a ∈ (secondRead 96 2).take 6, a.thread = none := by decide
    rw [hno a ha]
    simp
  rw [hidle] at hl
  cases hl

end Nanvix.Noc
