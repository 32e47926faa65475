import Nanvix.Noc.Loans

/-! Operations in flight. A communicator that is busy and not finished has an
operation in the hardware until a wait on it has gone through the last section of
`active_wait`; while no two waits on one communicator overlap, these communicators
and the loans of the actives are the same thing seen from two sides. -/

namespace Nanvix.Noc

open Nanvix.Lib Function

/-- A communicator whose operation has been started and that no wait has completed. -/
structure InFlight (s : State) (c : ℕ) : Prop where
  used : (s.comms c).resource.used = true
  busy : (s.comms c).resource.busy = true
  unfinished : (s.comms c).finished = false
  pending : ∀ tid ret, s.waits tid ≠ .leaving c ret

variable (F : Facility)

/-- What holds of the communicator a thread is waiting on, section by section. -/
def WaitPc.Placed (s : State) : WaitPc → Prop
  | .idle => True
  | .checked c => InFlight s c
  | .blocked c fd m => InFlight s c ∧ fd = (s.comms c).config.fd ∧
      ∃ k : ℕ, m = k ∧ OnLoan s.phys (portOf F fd).1 (portOf F fd).2 k
  | .woken c fd m _ => InFlight s c ∧ fd = (s.comms c).config.fd ∧
      ∃ k : ℕ, m = k ∧ OnLoan s.phys (portOf F fd).1 (portOf F fd).2 k
  | .leaving c _ => (s.comms c).resource.used = true ∧ (s.comms c).resource.busy = true ∧
      (s.comms c).finished = false
  | .resetting _ => True

/-- The function pointer is the one of the call that is about to operate. -/
def Dispatched (s : State) : Prop :=
  match s.master with
  | .operating ty _ => s.doComm = ty
  | .allowing _ => s.doComm = .input
  | _ => True

theorem Dispatched.eq {s : State} {ty : CommType} {c : ℕ} (h : Dispatched s) (hpc : s.master = .operating ty c) :
    s.doComm = ty := by
  rwa [Dispatched, hpc] at h

/-- A busy communicator is in use, and only a busy one is finished. -/
def Communicator.Tidy (c : Communicator) : Prop :=
  (c.resource.busy = true → c.resource.used = true) ∧ (c.resource.busy = false → c.finished = false)

/-- The communicators and the actives agree on what is in flight. -/
structure Flight (s : State) : Prop where
  accounts : Accounts F s
  owned : Owned F s.phys
  wired : Wired F s.phys
  dispatched : Dispatched s
  tidy : ∀ c, (s.comms c).Tidy
  flight : ∀ c, InFlight s c → ∃ k, OnLoan s.phys (portOf F (s.comms c).config.fd).1
    (portOf F (s.comms c).config.fd).2 k
  loan : ∀ a, (s.phys.lent a).isSome → ∃ c, InFlight s c ∧ (portOf F (s.comms c).config.fd).1 = a
  alone : ∀ tid tid' c, (s.waits tid).comm = some c → (s.waits tid').comm = some c → tid = tid'
  placed : ∀ tid, (s.waits tid).Placed F s

/-- The part of a communicator that flights are about. -/
def Communicator.activity (c : Communicator) : Bool × Bool × Bool × ℤ :=
  (c.resource.used, c.resource.busy, c.finished, c.config.fd)

/-- A wait starts only when no other wait on its communicator is under way. -/
def NoOverlap (e : Event State Act Out) : Prop :=
  ∀ tid id, e.act = .wait tid id → e.pre.waits tid = .idle →
    ∀ tid' c, (e.pre.waits tid').comm = some c → (c : ℤ) ≠ id

variable {F} {s t : State} {c : ℕ}

theorem activity_used {x y : Communicator} (h : x.activity = y.activity) :
    x.resource.used = y.resource.used := congrArg (·.1) h

theorem activity_busy {x y : Communicator} (h : x.activity = y.activity) :
    x.resource.busy = y.resource.busy := congrArg (·.2.1) h

theorem activity_finished {x y : Communicator} (h : x.activity = y.activity) :
    x.finished = y.finished := congrArg (·.2.2.1) h

theorem activity_fd {x y : Communicator} (h : x.activity = y.activity) :
    x.config.fd = y.config.fd := congrArg (·.2.2.2) h

theorem Communicator.Tidy.congr {x y : Communicator} (h : x.Tidy) (ha : y.activity = x.activity) :
    y.Tidy := by
  rw [Communicator.Tidy, activity_used ha, activity_busy ha, activity_finished ha]
  exact h

theorem InFlight.congr (h : InFlight s c) (ha : (t.comms c).activity = (s.comms c).activity)
    (hw : ∀ tid ret, t.waits tid = .leaving c ret → s.waits tid = .leaving c ret) : InFlight t c where
  used := (activity_used ha).trans h.used
  busy := (activity_busy ha).trans h.busy
  unfinished := (activity_finished ha).trans h.unfinished
  pending tid ret hl := h.pending tid ret (hw tid ret hl)

theorem WaitPc.Placed.congr {pc : WaitPc} (h : pc.Placed F s)
    (hact : ∀ c, pc.comm = some c → (t.comms c).activity = (s.comms c).activity)
    (hfly : ∀ c, pc.comm = some c → InFlight s c → InFlight t c)
    (hloan : ∀ c, pc.comm = some c → InFlight s c → ∀ k,
      OnLoan s.phys (portOf F (s.comms c).config.fd).1 (portOf F (s.comms c).config.fd).2 k →
      OnLoan t.phys (portOf F (s.comms c).config.fd).1 (portOf F (s.comms c).config.fd).2 k) :
    pc.Placed F t := by
  cases pc with
  | idle => trivial
  | checked c => exact hfly c rfl h
  | blocked c fd m =>
    obtain ⟨hc, rfl, k, hm, hk⟩ := h
    exact ⟨hfly c rfl hc, (activity_fd (hact c rfl)).symm, k, hm, hloan c rfl hc k hk⟩
  | woken c fd m ret =>
    obtain ⟨hc, rfl, k, hm, hk⟩ := h
    exact ⟨hfly c rfl hc, (activity_fd (hact c rfl)).symm, k, hm, hloan c rfl hc k hk⟩
  | leaving c ret =>
    have ha := hact c rfl
    exact ⟨(activity_used ha).trans h.1, (activity_busy ha).trans h.2.1,
      (activity_finished ha).trans h.2.2⟩
  | resetting c => trivial

/-- A thread whose communicator is not busy is past its wait. -/
theorem WaitPc.Placed.resetting {pc : WaitPc} (h : pc.Placed F s) (hc : pc.comm = some c)
    (hbusy : (s.comms c).resource.busy = false) : pc = .resetting c := by
  have hfly : ∀ {d}, d = c → ¬ InFlight s d := by
    rintro d rfl hd
    have := hd.busy
    rw [hbusy] at this
    cases this
  cases pc with
  | idle => cases hc
  | checked d => exact absurd h (hfly (Option.some.inj hc))
  | blocked d fd m => exact absurd h.1 (hfly (Option.some.inj hc))
  | woken d fd m ret => exact absurd h.1 (hfly (Option.some.inj hc))
  | leaving d ret =>
    obtain rfl := Option.some.inj hc
    have := h.2.1
    rw [hbusy] at this
    cases this
  | resetting d => rw [Option.some.inj hc]

/-! ### Steps that touch one communicator -/

variable (F) in
/-- Communicator `c` is the only one that changes, and so do only threads that wait on
it or are idle. -/
structure Touches (s t : State) (c : ℕ) : Prop where
  comms : ∀ d, d ≠ c → (t.comms d).activity = (s.comms d).activity
  threads : ∀ tid, (t.waits tid = s.waits tid ∧
      ((s.waits tid).comm = some c → s.waits tid = .resetting c)) ∨
    (((s.waits tid).comm = none ∨ (s.waits tid).comm = some c) ∧
      ((t.waits tid).comm = none ∨ (t.waits tid).comm = some c) ∧ (t.waits tid).Placed F t)

theorem Touches.leaving_iff (h : Touches F s t c) {d tid : ℕ} {ret : Except Err CommStatus}
    (hd : d ≠ c) : t.waits tid = .leaving d ret ↔ s.waits tid = .leaving d ret := by
  rcases h.threads tid with ⟨heq, -⟩ | ⟨hs, ht, -⟩
  · rw [heq]
  · have hne : some d ≠ some c := fun h => hd (Option.some.inj h)
    constructor <;> intro hl
    · rw [hl] at ht
      exact absurd ht (by simp [WaitPc.comm, hd])
    · rw [hl] at hs
      exact absurd hs (by simp [WaitPc.comm, hd])

theorem Touches.inFlight_iff (h : Touches F s t c) {d : ℕ} (hd : d ≠ c) :
    InFlight t d ↔ InFlight s d :=
  ⟨fun hf => hf.congr (h.comms d hd).symm fun _ _ hl => (h.leaving_iff hd).mpr hl,
    fun hf => hf.congr (h.comms d hd) fun _ _ hl => (h.leaving_iff hd).mp hl⟩

/-- What is left to show for a step that touches one communicator. -/
theorem Flight.of_touches (h : Flight F s) (ht : Touches F s t c) (hacc : Accounts F t)
    (hown : Owned F t.phys) (hwired : Wired F t.phys) (hdisp : Dispatched t)
    (htidy : (t.comms c).Tidy)
    (hkeep : ∀ d, d ≠ c → InFlight s d → ∀ k,
      OnLoan s.phys (portOf F (s.comms d).config.fd).1 (portOf F (s.comms d).config.fd).2 k →
      OnLoan t.phys (portOf F (s.comms d).config.fd).1 (portOf F (s.comms d).config.fd).2 k)
    (hflight : InFlight t c → ∃ k, OnLoan t.phys (portOf F (t.comms c).config.fd).1
      (portOf F (t.comms c).config.fd).2 k)
    (hloan : ∀ a, (t.phys.lent a).isSome →
      (∃ d, d ≠ c ∧ InFlight s d ∧ (portOf F (s.comms d).config.fd).1 = a) ∨
        InFlight t c ∧ (portOf F (t.comms c).config.fd).1 = a)
    (halone : ∀ tid tid' d, (t.waits tid).comm = some d → (t.waits tid').comm = some d → tid = tid') :
    Flight F t where
  accounts := hacc
  owned := hown
  wired := hwired
  dispatched := hdisp
  tidy d := by
    by_cases hd : d = c
    · subst hd; exact htidy
    · exact (h.tidy d).congr (ht.comms d hd)
  flight d hf := by
    by_cases hd : d = c
    · subst hd; exact hflight hf
    · have hs := (ht.inFlight_iff hd).mp hf
      obtain ⟨k, hk⟩ := h.flight d hs
      rw [activity_fd (ht.comms d hd)]
      exact ⟨k, hkeep d hd hs k hk⟩
  loan a ha := by
    rcases hloan a ha with ⟨d, hd, hs, hda⟩ | ⟨hf, hca⟩
    · refine ⟨d, (ht.inFlight_iff hd).mpr hs, ?_⟩
      rw [activity_fd (ht.comms d hd)]
      exact hda
    · exact ⟨c, hf, hca⟩
  alone := halone
  placed tid := by
    rcases ht.threads tid with ⟨heq, hres⟩ | ⟨-, -, hp⟩
    · rw [heq]
      by_cases hc : (s.waits tid).comm = some c
      · rw [hres hc]; trivial
      · have hne : ∀ d, (s.waits tid).comm = some d → d ≠ c := by
          rintro d hd rfl
          exact hc hd
        exact (h.placed tid).congr (fun d hd => ht.comms d (hne d hd))
          (fun d hd => (ht.inFlight_iff (hne d hd)).mpr) fun d hd => hkeep d (hne d hd)
    · exact hp

/-- A step that leaves the communicators, the threads and the loans alone. -/
theorem Flight.congr (h : Flight F s) (hacc : Accounts F t) (hown : Owned F t.phys)
    (hwired : Wired F t.phys) (hdisp : Dispatched t)
    (hcomm : ∀ d, (t.comms d).activity = (s.comms d).activity) (hwaits : t.waits = s.waits)
    (hkeep : KeepsLoans s.phys t.phys) (hlent : t.phys.lent = s.phys.lent) : Flight F t := by
  have hiff : ∀ {d}, InFlight s d → InFlight t d := fun hf =>
    hf.congr (hcomm _) fun _ _ hl => by rwa [hwaits] at hl
  have hiff' : ∀ {d}, InFlight t d → InFlight s d := fun hf =>
    hf.congr (hcomm _).symm fun _ _ hl => by rwa [hwaits]
  constructor
  case accounts => exact hacc
  case owned => exact hown
  case wired => exact hwired
  case dispatched => exact hdisp
  case tidy => exact fun d => (h.tidy d).congr (hcomm d)
  case flight =>
    intro d hf
    obtain ⟨k, hk⟩ := h.flight d (hiff' hf)
    rw [activity_fd (hcomm d)]
    exact ⟨k, hkeep _ _ k hk⟩
  case loan =>
    intro a ha
    rw [hlent] at ha
    obtain ⟨d, hd, hda⟩ := h.loan a ha
    exact ⟨d, hiff hd, by rw [activity_fd (hcomm d)]; exact hda⟩
  case alone => rw [hwaits]; exact h.alone
  case placed =>
    intro tid
    rw [hwaits]
    exact (h.placed tid).congr (fun d _ => hcomm d) (fun d _ => hiff) fun d _ _ k hk => hkeep _ _ k hk

/-! ### The calls of the master core -/

/-- The port of a communicator in use. -/
theorem Flight.port (h : Flight F s) (hu : (s.comms c).resource.used = true) :
    ∃ ty a p, (s.comms c).fits ty = true ∧ Bound F s.phys ty (s.comms c).config.fd a p ∧
      portOf F (s.comms c).config.fd = (a, p) := by
  obtain ⟨-, ty, a, p, hfits, hb, -⟩ := h.accounts.comm c hu
  exact ⟨ty, a, p, hfits, hb, hb.portOf_eq⟩

/-- The call that `communicator_operate` makes keeps the wiring, and starts a loan if and
only if it succeeds. -/
theorem Flight.operate (h : Flight F s) {ty : CommType} {env : Env} {ans : Answer} {ph : Phys}
    (hpc : s.master = .operating ty c) (hu : (s.comms c).resource.used = true)
    (hfits : (s.comms c).fits ty = true)
    (ho : CommOutcome F s (s.comms c).config env s.doComm ans ph) :
    Owned F ph ∧ Wired F ph ∧ Started s.phys ph (portOf F (s.comms c).config.fd).1
      (portOf F (s.comms c).config.fd).2 ans.ret := by
  obtain ⟨ty', a, p, hfits', hb, hport⟩ := h.port hu
  obtain rfl := fits_unique hfits hfits'
  have hdo : s.doComm = ty := h.dispatched.eq hpc
  rw [hdo] at ho
  cases ho with
  | aread hv ho =>
    rw [hport] at ho ⊢
    obtain rfl : a = 0 := hb.input_iff.mp rfl
    obtain ⟨hw, hst⟩ := h.wired.aread ho
    exact ⟨h.owned.aread ho, hw, hst⟩
  | awrite hv ho =>
    rw [hport] at ho ⊢
    have ha : a ≠ 0 := fun ha => by cases hb.input_iff.mpr ha
    obtain ⟨hw, hst⟩ := h.wired.awrite h.owned ha hb.port_lt ho
    exact ⟨h.owned.awrite ho, hw, hst⟩

theorem setComm_activity {x : Communicator} (d : ℕ) (hd : d ≠ c) :
    ((s.setComm c x).comms d).activity = (s.comms d).activity := by
  simp [update_of_ne hd]

/-- A change of a communicator that is not busy touches only it. -/
theorem Flight.touches_idle (h : Flight F s) (hbusy : (s.comms c).resource.busy = false)
    (hcomm : ∀ d, d ≠ c → (t.comms d).activity = (s.comms d).activity)
    (hwaits : t.waits = s.waits) : Touches F s t c := by
  refine ⟨hcomm, fun tid => .inl ⟨by rw [hwaits], fun hc => ?_⟩⟩
  exact (h.placed tid).resetting hc hbusy

theorem not_inFlight_of_idle (hbusy : (s.comms c).resource.busy = false) : ¬ InFlight s c := by
  intro hf
  have := hf.busy
  rw [hbusy] at this
  cases this

/-- The loans belong to other communicators than an idle one. -/
theorem Flight.loan_of_idle (h : Flight F s) (hbusy : (s.comms c).resource.busy = false) {a : ℕ}
    (ha : (s.phys.lent a).isSome) :
    ∃ d, d ≠ c ∧ InFlight s d ∧ (portOf F (s.comms d).config.fd).1 = a := by
  obtain ⟨d, hd, hda⟩ := h.loan a ha
  refine ⟨d, ?_, hd, hda⟩
  rintro rfl
  exact not_inFlight_of_idle hbusy hd

/-- An idle communicator stays idle, whatever else becomes of it. -/
theorem Flight.stays_idle (h : Flight F s) (hbusy : (s.comms c).resource.busy = false)
    (hbusy' : (t.comms c).resource.busy = false) (htidy : (t.comms c).Tidy)
    (hcomm : ∀ d, d ≠ c → (t.comms d).activity = (s.comms d).activity)
    (hwaits : t.waits = s.waits) (hacc : Accounts F t) (hown : Owned F t.phys)
    (hwired : Wired F t.phys) (hdisp : Dispatched t) (hkeep : KeepsLoans s.phys t.phys)
    (hlent : t.phys.lent = s.phys.lent) : Flight F t :=
  h.of_touches (h.touches_idle hbusy hcomm hwaits) hacc hown hwired hdisp htidy
    (fun _ _ _ k hk => hkeep _ _ k hk) (fun hf => absurd hf (not_inFlight_of_idle hbusy'))
    (fun a ha => .inl (h.loan_of_idle hbusy (by rwa [hlent] at ha))) (by rw [hwaits]; exact h.alone)

/-- An idle communicator starts an operation. -/
theorem Flight.operated (h : Flight F s) {ty : CommType} {env : Env} {ans : Answer} {ph : Phys}
    {status : CommStatus} (hpc : s.master = .operating ty c)
    (hu : (s.comms c).resource.used = true) (hfits : (s.comms c).fits ty = true)
    (hbusy : (s.comms c).resource.busy = false)
    (ho : CommOutcome F s (s.comms c).config env s.doComm ans ph) (hret : ans.ret = .ok status)
    (hacc : Accounts F ({ s with phys := ph, master := .idle }.setComm c
      ((s.comms c).operated status ans.stats))) :
    Flight F ({ s with phys := ph, master := .idle }.setComm c
      ((s.comms c).operated status ans.stats)) := by
  obtain ⟨hown, hwired, hst⟩ := h.operate hpc hu hfits ho
  set t := { s with phys := ph, master := .idle }.setComm c ((s.comms c).operated status ans.stats)
    with ht
  have hc : t.comms c = (s.comms c).operated status ans.stats := by simp [ht]
  have hfd : (t.comms c).config.fd = (s.comms c).config.fd := by rw [hc]; rfl
  have htidy : (t.comms c).Tidy := by
    rw [hc]
    exact ⟨fun _ => hu, fun hb => by cases hb⟩
  have hfly : InFlight t c ↔ status = .success := by
    have hfin : (t.comms c).finished = (status == .received) := by
      rw [hc]
      simp [Communicator.operated, (h.tidy c).2 hbusy]
    constructor
    · intro hf
      have := hf.unfinished
      rw [hfin] at this
      cases status with
      | success => rfl
      | again => exact absurd hret hst.not_again
      | received => cases this
    · rintro rfl
      refine ⟨by rw [hc]; exact hu, by rw [hc]; rfl, by rw [hfin]; rfl, fun tid ret hl => ?_⟩
      have hp := (h.placed tid).resetting (c := c) (by rw [show s.waits tid = _ from hl]; rfl) hbusy
      rw [show s.waits tid = _ from hl] at hp
      cases hp
  refine h.of_touches (h.touches_idle hbusy (fun d hd => setComm_activity d hd) rfl) hacc hown hwired
    trivial htidy (fun _ _ _ k hk => hst.keeps _ _ k hk) ?_ ?_ h.alone
  · intro hf
    rw [hfd]
    rw [hfly.mp hf] at hret
    exact (hst.success hret).2.1
  · intro a ha
    change (ph.lent a).isSome = true at ha
    by_cases hs : status = .success
    · obtain ⟨hnone, -, hother⟩ := hst.success (by rw [hret, hs])
      by_cases haa : a = (portOf F (s.comms c).config.fd).1
      · exact .inr ⟨hfly.mpr hs, by rw [hfd, haa]⟩
      · rw [hother a haa] at ha
        exact .inl (h.loan_of_idle hbusy ha)
    · rw [hst.other (by rw [hret]; simp [hs])] at ha
      exact .inl (h.loan_of_idle hbusy ha)

/-! ### The sections of a wait -/

variable {tid : ℕ}

/-- A thread and the communicator it waits on change, and nobody else waits on it. -/
theorem touches_thread {pc : WaitPc} (hwaits : t.waits = update s.waits tid pc)
    (hcomm : ∀ d, d ≠ c → (t.comms d).activity = (s.comms d).activity)
    (hpre : (s.waits tid).comm = none ∨ (s.waits tid).comm = some c)
    (hother : ∀ tid', tid' ≠ tid → (s.waits tid').comm ≠ some c)
    (hpost : pc.comm = none ∨ pc.comm = some c) (hplaced : pc.Placed F t) : Touches F s t c := by
  refine ⟨hcomm, fun tid' => ?_⟩
  by_cases ht : tid' = tid
  · subst ht
    right
    rw [hwaits, update_self]
    exact ⟨hpre, hpost, hplaced⟩
  · left
    rw [hwaits, update_of_ne ht]
    exact ⟨rfl, fun hc => absurd hc (hother tid' ht)⟩

/-- Nobody else is at the communicator of a thread. -/
theorem Flight.others (h : Flight F s) (hc : (s.waits tid).comm = some c) (tid' : ℕ)
    (ht : tid' ≠ tid) : (s.waits tid').comm ≠ some c :=
  fun hc' => ht (h.alone tid' tid c hc' hc)

/-- A thread that moves on at its communicator, or leaves it, stays alone there. -/
theorem alone_update {pc : WaitPc}
    (halone : ∀ tid tid' d, (s.waits tid).comm = some d → (s.waits tid').comm = some d → tid = tid')
    (hother : ∀ tid', tid' ≠ tid → (s.waits tid').comm ≠ some c)
    (hpost : pc.comm = none ∨ pc.comm = some c) (i j d : ℕ)
    (hi : (update s.waits tid pc i).comm = some d)
    (hj : (update s.waits tid pc j).comm = some d) : i = j := by
  have hmine : pc.comm = some d → d = c := by
    intro hd
    rcases hpost with hp | hp <;> rw [hp] at hd
    · cases hd
    · exact (Option.some.inj hd).symm
  by_cases hit : i = tid <;> by_cases hjt : j = tid
  · rw [hit, hjt]
  · subst hit
    rw [update_self] at hi
    rw [update_of_ne hjt, hmine hi] at hj
    exact absurd hj (hother j hjt)
  · subst hjt
    rw [update_self] at hj
    rw [update_of_ne hit, hmine hj] at hi
    exact absurd hi (hother i hit)
  · rw [update_of_ne hit] at hi
    rw [update_of_ne hjt] at hj
    exact halone i j d hi hj

/-- A section that changes neither the flight of the communicator nor the loans. -/
theorem Flight.moves (h : Flight F s) {pc : WaitPc}
    (hwaits : t.waits = update s.waits tid pc)
    (hpre : (s.waits tid).comm = none ∨ (s.waits tid).comm = some c)
    (hother : ∀ tid', tid' ≠ tid → (s.waits tid').comm ≠ some c)
    (hpost : pc.comm = none ∨ pc.comm = some c) (hplaced : pc.Placed F t)
    (hcomm : ∀ d, d ≠ c → (t.comms d).activity = (s.comms d).activity)
    (hfd : (t.comms c).config.fd = (s.comms c).config.fd) (htidy : (t.comms c).Tidy)
    (hfly : InFlight t c ↔ InFlight s c) (hacc : Accounts F t) (hown : Owned F t.phys)
    (hwired : Wired F t.phys) (hdisp : Dispatched t) (hkeep : KeepsLoans s.phys t.phys)
    (hlent : t.phys.lent = s.phys.lent) : Flight F t := by
  refine h.of_touches (touches_thread hwaits hcomm hpre hother hpost hplaced) hacc hown hwired hdisp
    htidy (fun _ _ _ k hk => hkeep _ _ k hk) ?_ ?_ ?_
  · intro hf
    obtain ⟨k, hk⟩ := h.flight c (hfly.mp hf)
    rw [hfd]
    exact ⟨k, hkeep _ _ k hk⟩
  · intro a ha
    rw [hlent] at ha
    obtain ⟨d, hd, hda⟩ := h.loan a ha
    by_cases hdc : d = c
    · subst hdc
      exact .inr ⟨hfly.mpr hd, by rw [hfd]; exact hda⟩
    · exact .inl ⟨d, hdc, hd, hda⟩
  · rw [hwaits]
    exact alone_update h.alone hother hpost

/-- What the first section of `active_wait` finds when an operation is in flight. -/
theorem Flight.waitCheck (h : Flight F s) (hf : InFlight s c) :
    ∃ k : ℕ, OnLoan s.phys (portOf F (s.comms c).config.fd).1 (portOf F (s.comms c).config.fd).2 k ∧
      waitCheck F s.phys (s.comms c).config.fd = some (.ok k) := by
  obtain ⟨k, hk⟩ := h.flight c hf
  refine ⟨k, hk, ?_⟩
  obtain ⟨ty, a, p, -, hb, hport⟩ := h.port hf.used
  rw [hport] at hk
  have hbusy : (s.phys.actives a).resource.busy = true := by rw [h.wired.busy, hk.lent]; rfl
  have hturn : ((s.phys.actives a).resource.isWritable && !doRequestVerify s.phys a p) = false := by
    cases hw : (s.phys.actives a).resource.isWritable with
    | false => rfl
    | true => simp [hk.turn hw]
  simp [Noc.waitCheck, hb.validCall, hport, hb.used, hbusy, hk.attached, hturn]

theorem leaving_update {pc : WaitPc} (hpre : ∀ ret, s.waits tid ≠ .leaving c ret)
    (hpost : ∀ ret, pc ≠ .leaving c ret) (tid' : ℕ) (ret : Except Err CommStatus) :
    update s.waits tid pc tid' = .leaving c ret ↔ s.waits tid' = .leaving c ret := by
  by_cases ht : tid' = tid
  · subst ht
    rw [update_self]
    exact ⟨fun h => absurd h (hpost ret), fun h => absurd h (hpre ret)⟩
  · rw [update_of_ne ht]

/-- The flight of a communicator whose thread moves between sections. -/
theorem inFlight_update {pc : WaitPc} (hwaits : t.waits = update s.waits tid pc)
    (hact : (t.comms c).activity = (s.comms c).activity)
    (hpre : ∀ ret, s.waits tid ≠ .leaving c ret) (hpost : ∀ ret, pc ≠ .leaving c ret) :
    InFlight t c ↔ InFlight s c := by
  constructor <;> intro hf
  · refine hf.congr hact.symm fun tid' ret hl => ?_
    rw [hwaits]
    exact (leaving_update hpre hpost tid' ret).mpr hl
  · refine hf.congr hact fun tid' ret hl => ?_
    rw [hwaits] at hl
    exact (leaving_update hpre hpost tid' ret).mp hl

/-- The mbuffer that the last section of `active_wait` works on is the one on loan. -/
theorem Flight.woken_loan (h : Flight F s) {fd m ret : ℤ} {k : ℕ}
    (hpc : s.waits tid = .woken c fd m ret)
    (hget : mbufferGet F (s.phys.ports (portOf F fd)).mbufferpool m = some k) :
    InFlight s c ∧ fd = (s.comms c).config.fd ∧
      OnLoan s.phys (portOf F fd).1 (portOf F fd).2 k := by
  have hp := h.placed tid
  rw [hpc] at hp
  obtain ⟨hf, hfd, j, rfl, hj⟩ := hp
  obtain ⟨i, hi, heq, hpool, -⟩ := h.owned.entry (portOf F fd) (by rw [hj.attached]; omega)
  obtain rfl : j = i := by exact_mod_cast hj.attached.symm.trans heq
  rw [hpool, mbufferGet_principal hi] at hget
  obtain rfl := Option.some.inj hget
  exact ⟨hf, hfd, hj⟩

/-- Two communicators in flight are on different actives. -/
theorem Flight.actives_differ (h : Flight F s) {d : ℕ} (hc : InFlight s c) (hd : InFlight s d)
    (hne : d ≠ c) :
    (portOf F (s.comms d).config.fd).1 ≠ (portOf F (s.comms c).config.fd).1 := by
  intro heq
  obtain ⟨k, hk⟩ := h.flight c hc
  obtain ⟨j, hj⟩ := h.flight d hd
  obtain ⟨ty, a, p, -, hb, hport⟩ := h.port hc.used
  obtain ⟨ty', a', p', -, hb', hport'⟩ := h.port hd.used
  rw [hport] at hk heq
  rw [hport'] at hj heq
  obtain rfl : a' = a := heq
  obtain rfl := hj.unique h.owned hk
  exact hne (h.accounts.comm_inj d c hd.used hc.used (hb'.fd_eq.trans hb.fd_eq.symm))

theorem Flight.completed (h : Flight F s) {k : ℕ} {fd m ret : ℤ} {ans : Answer} {ph : Phys}
    (hpc : s.waits tid = .woken c fd m ret)
    (hget : mbufferGet F (s.phys.ports (portOf F fd)).mbufferpool m = some k)
    (ho : WaitOutcome F s.phys (portOf F fd).1 (portOf F fd).2 k ret (s.comms c).config ans ph)
    (hacc : Accounts F (({ s with phys := ph }.setComm c
      { s.comms c with stats := (s.comms c).stats.add ans.stats }).setWait tid (.leaving c ans.ret))) :
    Flight F (({ s with phys := ph }.setComm c
      { s.comms c with stats := (s.comms c).stats.add ans.stats }).setWait tid
        (.leaving c ans.ret)) := by
  obtain ⟨hf, rfl, hk⟩ := h.woken_loan hpc hget
  obtain ⟨hwired, hlent, hkeep⟩ := h.wired.wait hk ho
  have hown : Owned F ph := h.owned.wait hk.attached ho
  have hat : (s.waits tid).comm = some c := by rw [hpc]; rfl
  set t := ({ s with phys := ph }.setComm c
    { s.comms c with stats := (s.comms c).stats.add ans.stats }).setWait tid (.leaving c ans.ret)
    with ht
  have hact : (t.comms c).activity = (s.comms c).activity := by simp [ht, Communicator.activity]
  have hleft : t.waits tid = .leaving c ans.ret := by simp [ht]
  have hplaced : (WaitPc.leaving c ans.ret).Placed F t :=
    ⟨(activity_used hact).trans hf.used, (activity_busy hact).trans hf.busy,
      (activity_finished hact).trans hf.unfinished⟩
  refine h.of_touches (touches_thread (show t.waits = update s.waits tid _ from rfl)
    (fun d hd => setComm_activity d hd) (.inr hat)
    (h.others hat) (.inr rfl) hplaced) hacc hown hwired h.dispatched ((h.tidy c).congr hact) ?_ ?_ ?_ ?_
  · intro d hd hfd j hj
    exact hkeep _ _ j (h.actives_differ hf hfd hd) hj
  · intro hf'
    exact absurd hleft (hf'.pending tid _)
  · intro a ha
    change (ph.lent a).isSome = true at ha
    rw [hlent] at ha
    have haa : a ≠ (portOf F (s.comms c).config.fd).1 := by
      rintro rfl
      simp at ha
    rw [update_of_ne haa] at ha
    obtain ⟨d, hd, hda⟩ := h.loan a ha
    refine .inl ⟨d, ?_, hd, hda⟩
    rintro rfl
    exact haa hda.symm
  · exact alone_update h.alone (h.others hat) (.inr rfl)

/-- The thread that has completed the operation lets go of the communicator. -/
theorem Flight.lets_go (h : Flight F s) {ret : Except Err CommStatus} {pc : WaitPc}
    (hpc : s.waits tid = .leaving c ret) (hnext : pc = .idle ∨ pc = .resetting c)
    (hwaits : t.waits = update s.waits tid pc)
    (hcomm : ∀ d, d ≠ c → (t.comms d).activity = (s.comms d).activity)
    (hact : (t.comms c).activity = ((s.comms c).released).activity) (hphys : t.phys = s.phys)
    (hdisp : Dispatched t) (hacc : Accounts F t) : Flight F t := by
  have hat : (s.waits tid).comm = some c := by rw [hpc]; rfl
  have hp := h.placed tid
  rw [hpc] at hp
  have hidle : (t.comms c).resource.busy = false := activity_busy hact
  have hpost : pc.comm = none ∨ pc.comm = some c := by
    rcases hnext with rfl | rfl
    · exact .inl rfl
    · exact .inr rfl
  have hfd : (t.comms c).config.fd = (s.comms c).config.fd := activity_fd (y := (s.comms c).released) hact
  refine h.moves hwaits (.inr hat) (h.others hat) hpost ?_ hcomm hfd ⟨?_, ?_⟩
    ⟨fun hf => absurd hf (not_inFlight_of_idle hidle), fun hf => absurd hpc (hf.pending tid ret)⟩
    hacc (hphys ▸ h.owned) (hphys ▸ h.wired) hdisp (by rw [hphys]; exact .refl _) (by rw [hphys])
  · rcases hnext with rfl | rfl <;> trivial
  · intro hb
    rw [hidle] at hb
    cases hb
  · intro _
    exact (activity_finished hact).trans hp.2.2

theorem Flight.collected (h : Flight F s) {pc : WaitPc} (hpc : s.waits tid = .idle)
    (hfin : (s.comms c).finished = true) (hnext : pc = .idle ∨ pc = .resetting c)
    (hfree : ∀ tid', (s.waits tid').comm ≠ some c)
    (hacc : Accounts F ((s.setComm c { s.comms c with finished := false }.released).setWait tid pc)) :
    Flight F ((s.setComm c { s.comms c with finished := false }.released).setWait tid pc) := by
  set t := (s.setComm c { s.comms c with finished := false }.released).setWait tid pc with ht
  have hc : t.comms c = { s.comms c with finished := false }.released := by simp [ht]
  have hidle : (t.comms c).resource.busy = false := by rw [hc]; rfl
  have hpost : pc.comm = none ∨ pc.comm = some c := by
    rcases hnext with rfl | rfl
    · exact .inl rfl
    · exact .inr rfl
  have hnot : ¬ InFlight s c := by
    intro hf
    rw [hf.unfinished] at hfin
    cases hfin
  refine h.moves (show _ = update s.waits tid _ from rfl) (.inl (by rw [hpc]; rfl)) (fun tid' _ => hfree tid') hpost ?_
    (fun d hd => setComm_activity d hd) (by rw [hc]; rfl) ⟨?_, ?_⟩
    ⟨fun hf => absurd hf (not_inFlight_of_idle hidle), fun hf => absurd hf hnot⟩
    hacc h.owned h.wired h.dispatched (.refl _) rfl
  · rcases hnext with rfl | rfl <;> trivial
  · intro hb
    rw [hidle] at hb
    cases hb
  · intro _
    rw [hc]
    rfl

/-! ### Steps and runs -/

theorem NoOverlap.nobody {tid id : ℕ} {o : Out} (hn : NoOverlap ⟨s, .wait tid id, o, t⟩)
    (hpc : s.waits tid = .idle) (tid' : ℕ) : (s.waits tid').comm ≠ some id :=
  fun hc => hn tid id rfl hpc tid' id hc rfl

theorem Flight.step {e : Event State Act Out} (h : Flight F e.pre)
    (hs : steps F e.pre e.act e.out e.post) (hn : NoOverlap e) : Flight F e.post := by
  obtain ⟨s, act, o, t⟩ := e
  dsimp only at h hs ⊢
  have hacc := h.accounts.step hs
  have hplain : ∀ {tid c}, s.waits tid = .checked c ∨ s.waits tid = .resetting c ∨
      (∃ fd m, s.waits tid = .blocked c fd m) → ∀ ret, s.waits tid ≠ .leaving c ret := by
    rintro tid c (hp | hp | ⟨fd, m, hp⟩) ret <;> rw [hp] <;> simp
  cases steps_cases hs with
  | quiet _ _ hans => exact h
  | opened hidle hcall hlocal hport hrem ho =>
    cases ho with
    | opened ha hmatch hp hin hfree =>
      exact h.congr hacc (h.owned.alloc (.opened ha hmatch hp hin hfree)) h.wired.openPort trivial
        (fun _ => rfl) rfl .openPort rfl
  | @allocated ty cfg id env hpc hid hfree =>
    have hidle : (s.comms id).resource.busy = false := by
      by_contra hb
      rw [(h.tidy id).1 (by simpa using hb)] at hfree
      cases hfree
    exact h.stays_idle (c := id) hidle (by simp [Communicator.fresh])
      ⟨by simp [Communicator.fresh], by simp [Communicator.fresh]⟩
      (fun d hd => setComm_activity d hd) rfl hacc h.owned h.wired trivial (.refl _) rfl
  | exhausted env hpc hfull =>
    exact h.congr hacc h.owned h.wired trivial (fun _ => rfl) rfl (.refl _) rfl
  | counted env hpc =>
    exact h.congr hacc h.owned h.wired trivial (fun _ => rfl) rfl (.refl _) rfl
  | rolledBack env hpc hv ho =>
    cases ho with
    | closed hact hport hempty =>
      exact h.congr hacc (h.owned.release (.closed hact hport hempty)) h.wired.closePort trivial
        (fun _ => rfl) rfl .closePort rfl
  | @freed call id ty ph hidle hcall hid hused hfits hbusy hv ho =>
    cases ho with
    | closed hact hport hempty =>
      exact h.stays_idle (c := id) hbusy (by simpa using hbusy)
        ⟨by simp [hbusy], by simpa using (h.tidy id).2⟩ (fun d hd => setComm_activity d hd) rfl hacc
        (h.owned.release (.closed hact hport hempty)) h.wired.closePort h.dispatched .closePort rfl
  | @granted id rem port hidle hkind hid hused hread hall =>
    exact h.congr hacc h.owned h.wired h.dispatched
      (fun d => by by_cases hd : d = id <;> simp [hd, Communicator.activity]) rfl (.refl _) rfl
  | @noted call id buffer size ty pc hidle hcall hid hsize hmax hpc =>
    refine h.congr hacc h.owned h.wired ?_
      (fun d => by by_cases hd : d = id <;> simp [hd, State.note, Communicator.activity]) rfl
      (.refl _) rfl
    rcases hpc with rfl | ⟨rfl, rfl, -⟩ <;> rfl
  | @remoteSet id node port hidle hid hused hbusy =>
    exact h.congr hacc h.owned h.wired h.dispatched
      (fun d => by by_cases hd : d = id <;> simp [hd, Communicator.activity]) rfl (.refl _) rfl
  | @allowed id env hpc =>
    refine h.congr hacc h.owned h.wired ?_
      (fun d => by by_cases hd : d = id <;> simp [hd, Communicator.activity]) rfl (.refl _) rfl
    have := h.dispatched
    rwa [Dispatched, hpc] at this
  | denied env e hpc =>
    exact h.congr hacc h.owned h.wired trivial (fun _ => rfl) rfl (.refl _) rfl
  | failed hpc hused hfits hbusy ho hret =>
    obtain ⟨hown, hwired, hst⟩ := h.operate hpc hused hfits ho
    exact h.congr hacc hown hwired trivial (fun _ => rfl) rfl hst.keeps (hst.other (by simp [hret]))
  | operated hpc hused hfits hbusy ho hret => exact h.operated hpc hused hfits hbusy ho hret hacc
  | @checked tid id hpc hid hused hbusy hfin =>
    have hf : InFlight s id := ⟨hused, hbusy, hfin, fun tid' ret hl =>
      hn.nobody hpc tid' (by rw [hl]; rfl)⟩
    have hiff : InFlight (s.setWait tid (.checked id)) id ↔ InFlight s id :=
      inFlight_update rfl rfl (by simp [hpc]) (by simp)
    exact h.moves rfl (.inl (by rw [hpc]; rfl)) (fun tid' _ => hn.nobody hpc tid') (.inr rfl)
      (hiff.mpr hf) (fun _ _ => rfl) rfl (h.tidy id) hiff hacc h.owned h.wired h.dispatched (.refl _) rfl
  | collected hpc hid hused hbusy hfin hans hnext =>
    exact h.collected hpc hfin hnext (hn.nobody hpc) hacc
  | @rejected tid id e env hpc hcheck =>
    have hp := h.placed tid
    rw [hpc] at hp
    obtain ⟨k, -, hok⟩ := h.waitCheck hp
    rw [hok] at hcheck
    cases hcheck
  | @entered tid id m env hpc hcheck =>
    have hat : (s.waits tid).comm = some id := by rw [hpc]; rfl
    have hf := h.placed tid
    rw [hpc] at hf
    obtain ⟨k, hk, hok⟩ := h.waitCheck hf
    obtain rfl : (k : ℤ) = m := by
      rw [hok] at hcheck
      cases hcheck
      rfl
    have hiff : InFlight (s.setWait tid (.blocked id (s.comms id).config.fd k)) id ↔ InFlight s id :=
      inFlight_update rfl rfl (hplain (.inl hpc)) (by simp)
    exact h.moves rfl (.inr hat) (h.others hat) (.inr rfl) ⟨hiff.mpr hf, rfl, k, rfl, hk⟩
      (fun _ _ => rfl) rfl (h.tidy id) hiff hacc h.owned h.wired h.dispatched (.refl _) rfl
  | @woken tid id fd m env hpc =>
    have hat : (s.waits tid).comm = some id := by rw [hpc]; rfl
    have hp := h.placed tid
    rw [hpc] at hp
    obtain ⟨hf, hfd, k, rfl, hk⟩ := hp
    have hiff : InFlight ({ s with phys := hwWait s.phys (portOf F fd).1 env }.setWait tid
        (.woken id fd k env.hwRet)) id ↔ InFlight s id :=
      inFlight_update rfl rfl (hplain (.inr (.inr ⟨fd, k, hpc⟩))) (by simp)
    exact h.moves rfl (.inr hat) (h.others hat) (.inr rfl)
      ⟨hiff.mpr hf, hfd, k, rfl, KeepsLoans.hwWait _ _ k hk⟩ (fun _ _ => rfl) rfl (h.tidy id) hiff hacc
      h.owned.hwWait h.wired.hwWait h.dispatched .hwWait hwWait_lent
  | completed env hpc hget ho => exact h.completed hpc hget ho hacc
  | left env hpc hret hans =>
    exact h.lets_go hpc (.inl rfl) rfl (fun d hd => setComm_activity d hd)
      (by simp) rfl h.dispatched hacc
  | succeeded env hpc hans hnext =>
    exact h.lets_go hpc hnext rfl (fun d hd => setComm_activity d hd)
      (by simp [Communicator.activity, Communicator.succeeded, Communicator.released]) rfl
      h.dispatched hacc
  | @reset tid id env hpc cfg hcfg =>
    have hat : (s.waits tid).comm = some id := by rw [hpc]; rfl
    have hact : (((s.setComm id { s.comms id with config := cfg }).setWait tid .idle).comms
        id).activity = (s.comms id).activity := by
      rcases hcfg with rfl | ⟨-, rfl⟩ <;> simp [Communicator.activity]
    have hiff : InFlight ((s.setComm id { s.comms id with config := cfg }).setWait tid .idle) id ↔
        InFlight s id := inFlight_update (s := s) rfl hact (hplain (.inr (.inl hpc))) (by simp)
    exact h.moves rfl (.inr hat) (h.others hat) (.inl rfl) trivial
      (fun d hd => setComm_activity d hd) (activity_fd hact) ((h.tidy id).congr hact) hiff hacc h.owned
      h.wired h.dispatched (.refl _) rfl

theorem flight_init (h : Init F s) : Flight F s := by
  have hacc := accounts_init h
  obtain ⟨ph, hb, rfl⟩ := h
  have hlent : ∀ a, ph.lent a = none := by
    obtain ⟨hwfd, c, rfl⟩ := hb.eq_bootState
    exact fun _ => rfl
  constructor
  case accounts => exact hacc
  case owned => exact owned_boot hb
  case wired => exact wired_boot hb
  case dispatched => trivial
  case tidy =>
    intro c
    constructor <;> intro hb
    · cases hb
    · rfl
  case flight => exact fun c hf => by cases hf.busy
  case loan =>
    intro a ha
    rw [show (initState ph).phys.lent a = none from hlent a] at ha
    cases ha
  case alone => intro tid tid' c hc; cases hc
  case placed => exact fun tid => trivial

theorem flight_runs {tr : List (Event State Act Out)} (h : Runs F tr s)
    (hn : ∀ e ∈ tr, NoOverlap e) : Flight F s := by
  obtain ⟨s₀, h₀, hrun⟩ := h
  exact hrun.invariant (flight_init h₀) hn fun e hs hn hi => hi.step hs hn

/-- Flights and loans agree before every event of such a run. -/
theorem flight_event {tr : List (Event State Act Out)} (h : Runs F tr s)
    (hn : ∀ e ∈ tr, NoOverlap e) {e : Event State Act Out} (he : e ∈ tr) :
    Flight F e.pre ∧ steps F e.pre e.act e.out e.post := by
  obtain ⟨s₀, h₀, hrun⟩ := h
  exact ⟨(hrun.invariant_of_mem (flight_init h₀) hn (fun e hs hn hi => hi.step hs hn) he).1,
    hrun.step_of_mem he⟩

/-- What the history of such a run has led to at an event. -/
theorem flight_history {G : Type} (γ : G → Event State Act Out → G) {C : Event State Act Out → Prop}
    {J : G → State → Prop} {g : G} {l r : List (Event State Act Out)} {e : Event State Act Out}
    (h : Runs F (l ++ e :: r) s) (hC : ∀ x ∈ l ++ e :: r, NoOverlap x ∧ C x)
    (hinit : ∀ s₀, Init F s₀ → J g s₀)
    (hstep : ∀ g e, Flight F e.pre → steps F e.pre e.act e.out e.post → C e → J g e.pre → J (γ g e) e.post) :
    Flight F e.pre ∧ steps F e.pre e.act e.out e.post ∧ J (l.foldl γ g) e.pre := by
  have hflight := fun x hx => flight_event h (fun y hy => (hC y hy).1) (e := x) hx
  obtain ⟨hf, hs⟩ := hflight e (by simp)
  obtain ⟨s₀, h₀, hrun⟩ := h
  refine ⟨hf, hs, hrun.history_at γ (P := fun _ x => Flight F x.pre ∧ C x) (hinit s₀ h₀) ?_ ?_⟩
  · intro l' x r' heq
    exact ⟨(hflight x (by rw [heq]; simp)).1, (hC x (by rw [heq]; simp)).2⟩
  · exact fun g x hs hx hJ => hstep g x hx.1 hs hx.2 hJ

end Nanvix.Noc
