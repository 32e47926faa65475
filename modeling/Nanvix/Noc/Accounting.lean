import Nanvix.Lib.Count
import Nanvix.Noc.Frame
import Nanvix.Noc.KernelOutcome

/-! Accounting of communicators and ports. The communicators in use and the ports
in use are matched one to one through the descriptor in the configuration, and
the counters of the actives and of the facility say how many there are. Between
the sections of a call the master core may hold a port that no communicator has
yet, or a communicator that no counter has. -/

namespace Nanvix.Noc

open Nanvix.Lib Function

variable (F : Facility)

/-! ### Actives as they were set up -/

/-- The actives are used for what they were initialised for. -/
def Setup (ph : Phys) : Prop :=
  ∀ a, (ph.actives a).setup = (bootActives F (fun _ => 0) F.nodesNum a).setup

variable {F} {ph ph' : Phys} {a p : ℕ}

theorem Setup.congr (h : Setup F ph) (hs : ∀ b, (ph'.actives b).setup = (ph.actives b).setup) :
    Setup F ph' :=
  fun b => (hs b).trans (h b)

theorem bootActives_setup (hwfd : ℕ → ℤ) (a : ℕ) : (bootActives F hwfd F.nodesNum a).setup =
    if a ≤ F.nodesNum then (true, if a = 0 then .rdonly else .wronly, (F.node : ℤ))
    else (false, .none, -1) := by
  cases a with
  | zero => rfl
  | succ i =>
    by_cases hi : i < F.nodesNum
    · simp [Active.setup, bootActives, hi, outputActive, Nat.succ_le_of_lt hi]
    · have hle : ¬ i + 1 ≤ F.nodesNum := by omega
      simp [Active.setup, bootActives, hi, hle]

theorem Setup.eq (h : Setup F ph) (a : ℕ) : (ph.actives a).setup =
    if a ≤ F.nodesNum then (true, if a = 0 then .rdonly else .wronly, (F.node : ℤ))
    else (false, .none, -1) :=
  (h a).trans (bootActives_setup _ a)

theorem Setup.access (h : Setup F ph) (a : ℕ) :
    (ph.actives a).resource.access =
      if a = 0 then .rdonly else if a ≤ F.nodesNum then .wronly else .none := by
  have ha : (ph.actives a).resource.access = _ := congrArg (fun x => x.2.1) (h.eq a)
  rw [ha]
  by_cases h0 : a = 0
  · simp [h0]
  · split_ifs <;> rfl

theorem Setup.readable_iff (h : Setup F ph) :
    (ph.actives a).resource.isReadable = true ↔ a = 0 := by
  simp only [Resource.isReadable, h.access, beq_iff_eq]
  split_ifs <;> simp_all

theorem Setup.writable_iff (h : Setup F ph) :
    (ph.actives a).resource.isWritable = true ↔ a ≠ 0 ∧ a ≤ F.nodesNum := by
  simp only [Resource.isWritable, h.access, beq_iff_eq]
  split_ifs <;> simp_all

theorem Setup.used_iff (h : Setup F ph) :
    (ph.actives a).resource.used = true ↔ a ≤ F.nodesNum := by
  have ha : (ph.actives a).resource.used = _ := congrArg (fun x => x.1) (h.eq a)
  rw [ha]
  split_ifs with hle <;> simp [hle]

theorem Setup.localNode (h : Setup F ph) (hu : (ph.actives a).resource.used = true) :
    (ph.actives a).localNode = F.node := by
  have ha : (ph.actives a).localNode = _ := congrArg (fun x => x.2.2) (h.eq a)
  rw [ha, if_pos (h.used_iff.mp hu)]

theorem setup_boot (hb : Boot F ph) : Setup F ph := by
  obtain ⟨hwfd, c, rfl⟩ := hb.eq_bootState
  intro a
  exact (bootActives_setup hwfd a).trans (bootActives_setup _ a).symm

/-- What a matching active tells about the port that is opened on it. -/
theorem activeMatches_setup (h : Setup F ph) {loc rem : ℤ} {ty : CommType}
    (hm : activeMatches (ph.actives a) loc rem ty = true) :
    (ty = .input ↔ a = 0) ∧ a ≤ F.nodesNum ∧ loc = F.node := by
  unfold activeMatches at hm
  rw [← h.used_iff]
  have hr := h.readable_iff (a := a)
  have hw := h.writable_iff (a := a)
  by_cases hu : (ph.actives a).resource.used = true
  · have hloc := h.localNode hu
    cases ty <;> simp_all
  · simp_all

/-! ### The invariant -/

variable (F) (ph)

/-- The descriptor `fd` of a communicator of type `ty` names port `p` of active `a`,
which is in use. -/
structure Bound (ty : CommType) (fd : ℤ) (a p : ℕ) : Prop where
  active_le : a ≤ F.nodesNum
  port_lt : p < F.portNr
  fd_eq : fd = laddressCompose F a p
  used : (ph.ports (a, p)).resource.used = true
  input_iff : ty = .input ↔ a = 0

/-- The port that the master core holds for a communicator to come. -/
def MasterPc.pending : MasterPc → Option (CommType × ℤ)
  | .opened ty cfg => some (ty, cfg.fd)
  | .rollback ty fd => some (ty, fd)
  | _ => none

/-- The type of a communicator that is not counted yet. -/
def MasterPc.uncounted : MasterPc → Option CommType
  | .counting ty _ => some ty
  | _ => none

/-- Allocations less releases of a type, in the arithmetic of the counters. -/
def Counters.balance (c : Counters) : CommType → UInt64
  | .input => c.ncreates - c.nunlinks
  | .output => c.nopens - c.ncloses

def usedComms (s : State) (ty : CommType) : ℕ :=
  tally (fun c : Communicator => c.resource.used && c.fits ty) s.comms F.commMax

def usedPortsOf (a : ℕ) : ℕ :=
  tally (fun q : Port => q.resource.used) (fun p => ph.ports (a, p)) F.portNr

def PortsCounted : Prop :=
  ∀ a, (ph.actives a).refcount = usedPortsOf F ph a ∧ (ph.actives a).usedPorts = usedPortsOf F ph a

/-- The accounts of a facility, with what the master core holds in the middle of a
call. -/
structure Accounts (s : State) : Prop where
  setup : Setup F s.phys
  comm : ∀ i, (s.comms i).resource.used = true → i < F.commMax ∧ ∃ ty a p,
    (s.comms i).fits ty = true ∧ Bound F s.phys ty (s.comms i).config.fd a p ∧
      (s.comms i).config.localAddr = laddressCompose F F.node p
  comm_inj : ∀ i j, (s.comms i).resource.used = true → (s.comms j).resource.used = true →
    (s.comms i).config.fd = (s.comms j).config.fd → i = j
  opening : ∀ ty fd, s.master.pending = some (ty, fd) → (∃ a p, Bound F s.phys ty fd a p) ∧
    ∀ i, (s.comms i).resource.used = true → (s.comms i).config.fd ≠ fd
  address : ∀ ty cfg, s.master = .opened ty cfg →
    cfg.localAddr = laddressCompose F F.node (getPortid F cfg.fd)
  held : ∀ a p, (s.phys.ports (a, p)).resource.used = true → a < F.hwMax ∧ p < F.portNr ∧
    ((∃ i, (s.comms i).resource.used = true ∧ (s.comms i).config.fd = laddressCompose F a p) ∨
      ∃ ty, s.master.pending = some (ty, laddressCompose F a p))
  refs : PortsCounted F s.phys
  counts : ∀ ty, s.counters.balance ty + (if s.master.uncounted = some ty then 1 else 0) =
    UInt64.ofNat (usedComms F s ty)

/-- The part of a communicator that accounting is about. -/
def Communicator.identity (c : Communicator) : Bool × Access × ℤ × ℤ :=
  (c.resource.used, c.resource.access, c.config.fd, c.config.localAddr)

/-- The master core holds nothing that is not accounted for. -/
def MasterPc.settled (pc : MasterPc) : Prop := pc.pending = none ∧ pc.uncounted = none

variable {F ph} {s t : State} {ty : CommType} {fd : ℤ}

theorem Bound.congr (h : Bound F ph ty fd a p)
    (hu : (ph'.ports (a, p)).resource.used = true) : Bound F ph' ty fd a p :=
  ⟨h.active_le, h.port_lt, h.fd_eq, hu, h.input_iff⟩

theorem Bound.portOf_eq (h : Bound F ph ty fd a p) : portOf F fd = (a, p) := by
  rw [h.fd_eq, portOf, getActid_compose h.port_lt, getPortid_compose h.port_lt]
  simp

theorem MasterPc.settled_of_idle {pc : MasterPc} (h : pc = .idle) : pc.settled := by
  subst h; exact ⟨rfl, rfl⟩

theorem identity_used {c d : Communicator} (h : c.identity = d.identity) :
    c.resource.used = d.resource.used := congrArg (·.1) h

theorem identity_fits {c d : Communicator} (h : c.identity = d.identity) (ty : CommType) :
    c.fits ty = d.fits ty := by
  have ha : c.resource.access = d.resource.access := congrArg (·.2.1) h
  cases ty <;> simp only [Communicator.fits, Resource.isReadable, Resource.isWritable, ha]

theorem identity_fd {c d : Communicator} (h : c.identity = d.identity) :
    c.config.fd = d.config.fd := congrArg (·.2.2.1) h

theorem identity_localAddr {c d : Communicator} (h : c.identity = d.identity) :
    c.config.localAddr = d.config.localAddr := congrArg (·.2.2.2) h

theorem setComm_identity {c : Communicator} {i : ℕ} (h : c.identity = (s.comms i).identity) (j : ℕ) :
    ((s.setComm i c).comms j).identity = (s.comms j).identity := by
  by_cases hj : j = i
  · subst hj; simpa using h
  · simp [update_of_ne hj]

theorem usedComms_congr (hc : ∀ i, (t.comms i).identity = (s.comms i).identity) (ty : CommType) :
    usedComms F t ty = usedComms F s ty := by
  apply tally_congr
  intro i _
  rw [identity_used (hc i), identity_fits (hc i)]

theorem usedPortsOf_congr (h : SameHolding ph ph') (a : ℕ) :
    usedPortsOf F ph' a = usedPortsOf F ph a := by
  apply tally_congr
  intro p _
  rw [h.1 (a, p)]

/-- A step that opens and closes nothing keeps the accounts. -/
theorem Accounts.congr (h : Accounts F s)
    (hset : ∀ b, (t.phys.actives b).setup = (s.phys.actives b).setup)
    (hhold : SameHolding s.phys t.phys)
    (hcomm : ∀ i, (t.comms i).identity = (s.comms i).identity)
    (hbal : t.counters.balance = s.counters.balance)
    (hpc : t.master = s.master ∨ s.master.settled ∧ t.master.settled) : Accounts F t := by
  have hpend : t.master.pending = s.master.pending := by
    rcases hpc with hpc | ⟨hs, ht⟩
    · rw [hpc]
    · rw [hs.1, ht.1]
  have hunc : t.master.uncounted = s.master.uncounted := by
    rcases hpc with hpc | ⟨hs, ht⟩
    · rw [hpc]
    · rw [hs.2, ht.2]
  have hbound : ∀ {ty fd a p}, Bound F s.phys ty fd a p → Bound F t.phys ty fd a p :=
    fun hb => hb.congr (by rw [hhold.1]; exact hb.used)
  constructor
  case setup => exact h.setup.congr hset
  case comm =>
    intro i hi
    rw [identity_used (hcomm i)] at hi
    rw [identity_fd (hcomm i), identity_localAddr (hcomm i)]
    obtain ⟨hlt, ty, a, p, hfits, hb, hloc⟩ := h.comm i hi
    exact ⟨hlt, ty, a, p, (identity_fits (hcomm i) ty).trans hfits, hbound hb, hloc⟩
  case comm_inj =>
    intro i j hi hj
    rw [identity_used (hcomm i)] at hi
    rw [identity_used (hcomm j)] at hj
    rw [identity_fd (hcomm i), identity_fd (hcomm j)]
    exact h.comm_inj i j hi hj
  case opening =>
    intro ty fd hp
    rw [hpend] at hp
    obtain ⟨⟨a, p, hb⟩, hno⟩ := h.opening ty fd hp
    refine ⟨⟨a, p, hbound hb⟩, fun i hi => ?_⟩
    rw [identity_used (hcomm i)] at hi
    rw [identity_fd (hcomm i)]
    exact hno i hi
  case address =>
    intro ty cfg hp
    rcases hpc with hpc | ⟨-, ht⟩
    · exact h.address ty cfg (hpc ▸ hp)
    · have := ht.1
      rw [hp] at this
      cases this
  case held =>
    intro a p hu
    rw [hhold.1] at hu
    obtain ⟨ha, hp, hwho⟩ := h.held a p hu
    refine ⟨ha, hp, ?_⟩
    rw [hpend]
    rcases hwho with ⟨i, hi, hfd⟩ | hopen
    · exact .inl ⟨i, (identity_used (hcomm i)).trans hi, (identity_fd (hcomm i)).trans hfd⟩
    · exact .inr hopen
  case refs =>
    intro a
    have hh := hhold.2 a
    simp only [Active.holding, Prod.mk.injEq] at hh
    rw [usedPortsOf_congr hhold, hh.1, hh.2]
    exact h.refs a
  case counts =>
    intro ty
    rw [hbal, hunc, usedComms_congr hcomm]
    exact h.counts ty

/-! ### Taking and giving back a port -/

theorem openPort_used (bq : ℕ × ℕ) :
    ((ph.openPort a p).ports bq).resource.used =
      if bq = (a, p) then true else (ph.ports bq).resource.used := by
  unfold Phys.openPort
  by_cases hb : bq = (a, p) <;> simp [hb]

theorem closePort_used (bq : ℕ × ℕ) :
    ((ph.closePort a p).ports bq).resource.used =
      if bq = (a, p) then false else (ph.ports bq).resource.used := by
  unfold Phys.closePort
  by_cases hb : bq = (a, p) <;> simp [hb]

/-- The ports of an active after one of them has been changed. -/
theorem usedPortsOf_set {u : Bool} (hp : p < F.portNr)
    (hset : ∀ bq, (ph'.ports bq).resource.used =
      if bq = (a, p) then u else (ph.ports bq).resource.used) :
    usedPortsOf F ph' a + (if (ph.ports (a, p)).resource.used then 1 else 0) =
      usedPortsOf F ph a + if u then 1 else 0 := by
  have hrow : usedPortsOf F ph' a = tally (fun q : Port => q.resource.used)
      (update (fun q => ph.ports (a, q)) p { resource := { used := u } }) F.portNr := by
    apply tally_congr
    intro q _
    rw [hset]
    by_cases hq : q = p <;> simp [hq]
  rw [hrow]
  exact tally_update _ (fun q => ph.ports (a, q)) _ hp

theorem usedPortsOf_other {u : Bool} {b : ℕ} (hb : b ≠ a)
    (hset : ∀ bq, (ph'.ports bq).resource.used =
      if bq = (a, p) then u else (ph.ports bq).resource.used) :
    usedPortsOf F ph' b = usedPortsOf F ph b := by
  apply tally_congr
  intro q _
  rw [hset, if_neg (by simp [hb])]

/-- The counters of an active move with the port that is taken or given back. -/
theorem PortsCounted.set {u : Bool} {d : ℤ} (h : PortsCounted F ph) (hp : p < F.portNr)
    (hset : ∀ bq, (ph'.ports bq).resource.used =
      if bq = (a, p) then u else (ph.ports bq).resource.used)
    (hd : (if u then 1 else 0 : ℤ) = (if (ph.ports (a, p)).resource.used then 1 else 0) + d)
    (hact : ph'.actives = update ph.actives a { ph.actives a with
      refcount := (ph.actives a).refcount + d
      usedPorts := (ph.actives a).usedPorts + d }) : PortsCounted F ph' := by
  intro b
  obtain ⟨hr, hu⟩ := h b
  by_cases hb : b = a
  · subst hb
    have hcount := usedPortsOf_set hp hset
    rw [hact, update_self]
    dsimp only
    rw [hr, hu]
    split_ifs at hd hcount <;> omega
  · rw [usedPortsOf_other hb hset, hact, update_of_ne hb]
    exact h b

theorem PortsCounted.openPort (h : PortsCounted F ph) (hp : p < F.portNr)
    (hfree : (ph.ports (a, p)).resource.used = false) : PortsCounted F (ph.openPort a p) :=
  h.set (d := 1) hp openPort_used (by simp [hfree]) rfl

theorem PortsCounted.closePort (h : PortsCounted F ph) (hp : p < F.portNr)
    (hused : (ph.ports (a, p)).resource.used = true) : PortsCounted F (ph.closePort a p) :=
  h.set (d := -1) hp closePort_used (by simp [hused]) rfl

/-! ### The sections of an allocation and of a release -/

theorem Accounts.opened (h : Accounts F s) (hidle : s.master = .idle) {loc rem port : ℤ}
    (ho : AllocOutcome F s.phys loc rem port ty (.ok fd) ph) :
    Accounts F { s with phys := ph, master := .opened ty (newConfig F loc rem port fd ty) } := by
  cases ho with
  | @opened a p ha hmatch hp hin hfree =>
    obtain ⟨hin', hle, hloc⟩ := activeMatches_setup h.setup hmatch
    have hbound : ∀ {ty fd b q}, Bound F s.phys ty fd b q →
        Bound F (s.phys.openPort a p) ty fd b q := fun hb =>
      hb.congr (by rw [openPort_used]; split <;> simp [hb.used])
    have hport : (laddressCompose F a p) % (F.portNr + 1) = p := by
      have := getPortid_compose (a := a) hp
      rwa [getPortid, if_neg (not_lt.mpr (compose_nonneg F a p))] at this
    constructor
    case setup => exact h.setup.congr fun b => openPort_setup b
    case comm =>
      intro i hi
      obtain ⟨hlt, ty, b, q, hfits, hb, hloc⟩ := h.comm i hi
      exact ⟨hlt, ty, b, q, hfits, hbound hb, hloc⟩
    case comm_inj => exact h.comm_inj
    case opening =>
      intro ty' fd' hp'
      cases hp'
      refine ⟨⟨a, p, hle, hp, rfl, by rw [openPort_used, if_pos rfl], hin'⟩, fun i hi hfd => ?_⟩
      -- a communicator with this descriptor would have the port in use
      obtain ⟨-, ty, b, q, -, hb, -⟩ := h.comm i hi
      obtain ⟨rfl, rfl⟩ := compose_inj hb.port_lt hp (hb.fd_eq.symm.trans hfd)
      have := hb.used
      rw [hfree] at this
      cases this
    case address =>
      intro ty' cfg hpc
      cases hpc
      rw [newConfig, hloc, hport, getPortid_compose hp]
    case held =>
      intro b q hu
      rw [openPort_used] at hu
      split at hu
      · rename_i hbq
        cases hbq
        exact ⟨ha, hp, .inr ⟨ty, rfl⟩⟩
      · obtain ⟨hb, hq, hwho⟩ := h.held b q hu
        rw [hidle] at hwho
        rcases hwho with hwho | ⟨ty, hty⟩
        · exact ⟨hb, hq, .inl hwho⟩
        · cases hty
    case refs => exact h.refs.openPort hp hfree
    case counts =>
      intro ty'
      have := h.counts ty'
      rwa [hidle] at this

theorem usedComms_setComm {c : Communicator} {i : ℕ} (hi : i < F.commMax) (ty : CommType) :
    usedComms F (s.setComm i c) ty +
        (if (s.comms i).resource.used && (s.comms i).fits ty then 1 else 0) =
      usedComms F s ty + if c.resource.used && c.fits ty then 1 else 0 :=
  tally_update _ s.comms c hi

theorem fresh_fits (cfg : Config) (ty ty' : CommType) :
    (Communicator.fresh cfg ty).fits ty' = decide (ty' = ty) := by
  cases ty <;> cases ty' <;> rfl

theorem Accounts.allocated (h : Accounts F s) {cfg : Config} {id : ℕ}
    (hpc : s.master = .opened ty cfg) (hid : id < F.commMax)
    (hfree : (s.comms id).resource.used = false) :
    Accounts F { s.setComm id (.fresh cfg ty) with master := .counting ty id } := by
  have hpend : s.master.pending = some (ty, cfg.fd) := by rw [hpc]; rfl
  obtain ⟨⟨a, p, hb⟩, hno⟩ := h.opening ty cfg.fd hpend
  have hfresh : ∀ i, i ≠ id → (update s.comms id (.fresh cfg ty)) i = s.comms i :=
    fun i hi => update_of_ne hi _ _
  constructor
  case setup => exact h.setup
  case comm =>
    intro i hi
    by_cases hii : i = id
    · subst hii
      simp only [State.setComm_comms, update_self] at hi ⊢
      refine ⟨hid, ty, a, p, by simp [fresh_fits], hb, ?_⟩
      have haddr := h.address ty cfg hpc
      rwa [hb.fd_eq, getPortid_compose hb.port_lt] at haddr
    · simp only [State.setComm_comms, hfresh i hii] at hi ⊢
      exact h.comm i hi
  case comm_inj =>
    intro i j hi hj hfd
    simp only [State.setComm_comms] at hi hj hfd
    by_cases hii : i = id <;> by_cases hjj : j = id
    · rw [hii, hjj]
    · subst hii
      rw [hfresh j hjj] at hj hfd
      rw [update_self] at hfd
      exact absurd hfd.symm (hno j hj)
    · subst hjj
      rw [hfresh i hii] at hi hfd
      rw [update_self] at hfd
      exact absurd hfd (hno i hi)
    · rw [hfresh i hii] at hi hfd
      rw [hfresh j hjj] at hj hfd
      exact h.comm_inj i j hi hj hfd
  case opening => intro ty' fd' hp'; cases hp'
  case address => intro ty' cfg' hp'; cases hp'
  case held =>
    intro b q hu
    obtain ⟨hb', hq, hwho⟩ := h.held b q hu
    refine ⟨hb', hq, .inl ?_⟩
    rcases hwho with ⟨i, hi, hfd⟩ | ⟨ty', hty⟩
    · have hne : i ≠ id := by
        intro heq
        rw [heq, hfree] at hi
        cases hi
      refine ⟨i, ?_⟩
      simp only [State.setComm_comms, hfresh i hne]
      exact ⟨hi, hfd⟩
    · rw [hpend, Option.some.injEq, Prod.mk.injEq] at hty
      exact ⟨id, by simp [Communicator.fresh], by simpa [Communicator.fresh] using hty.2⟩
  case refs => exact h.refs
  case counts =>
    intro ty'
    have hcount := usedComms_setComm (c := .fresh cfg ty) (s := s) hid ty'
    have hold := h.counts ty'
    rw [hpc] at hold
    simp only [hfree, Bool.false_and, Bool.false_eq_true, if_false, add_zero, fresh_fits,
      MasterPc.uncounted, reduceCtorEq] at hcount hold
    change _ = UInt64.ofNat (usedComms F (s.setComm id (.fresh cfg ty)) ty')
    rw [hcount, UInt64.ofNat_add, ← hold]
    by_cases hty : ty' = ty
    · simp [hty, Communicator.fresh, MasterPc.uncounted]
    · simp [hty, Ne.symm hty, MasterPc.uncounted]

theorem Accounts.counted (h : Accounts F s) {id : ℕ} (hpc : s.master = .counting ty id) :
    Accounts F { s with counters := s.counters.allocated ty, master := .idle } where
  setup := h.setup
  comm := h.comm
  comm_inj := h.comm_inj
  opening := by intro ty' fd' hp'; cases hp'
  address := by intro ty' cfg' hp'; cases hp'
  held := by
    intro b q hu
    have := h.held b q hu
    rwa [hpc] at this
  refs := h.refs
  counts := by
    intro ty'
    have hold := h.counts ty'
    rw [hpc] at hold
    change _ = UInt64.ofNat (usedComms F s ty')
    rw [← hold]
    cases ty <;> cases ty' <;>
      simp only [Counters.balance, Counters.allocated, MasterPc.uncounted, Option.some.injEq,
        reduceCtorEq, if_true, if_false] <;> grind

theorem Bound.closePort {b q : ℕ} (hb : Bound F ph ty fd b q)
    (hne : fd ≠ laddressCompose F a p) : Bound F (ph.closePort a p) ty fd b q := by
  apply hb.congr
  rw [closePort_used, if_neg]
  · exact hb.used
  · intro hbq
    cases hbq
    exact hne hb.fd_eq

theorem Accounts.rolledBack (h : Accounts F s) (hpc : s.master = .rollback ty fd)
    (ho : ReleaseOutcome F s.phys (portOf F fd).1 (portOf F fd).2 (.ok ()) ph) :
    Accounts F { s with phys := ph, master := .idle } := by
  have hpend : s.master.pending = some (ty, fd) := by rw [hpc]; rfl
  obtain ⟨⟨a, p, hb⟩, hno⟩ := h.opening ty fd hpend
  rw [hb.portOf_eq] at ho
  cases ho with
  | closed hact hport hempty =>
    constructor
    case setup => exact h.setup.congr fun b => closePort_setup b
    case comm =>
      intro i hi
      obtain ⟨hlt, ty, b, q, hfits, hb', hloc⟩ := h.comm i hi
      exact ⟨hlt, ty, b, q, hfits, hb'.closePort (hb.fd_eq ▸ hno i hi), hloc⟩
    case comm_inj => exact h.comm_inj
    case opening => intro ty' fd' hp'; cases hp'
    case address => intro ty' cfg' hp'; cases hp'
    case held =>
      intro b q hu
      rw [closePort_used] at hu
      split at hu
      · cases hu
      rename_i hbq
      obtain ⟨hb', hq, hwho⟩ := h.held b q hu
      rcases hwho with hwho | ⟨ty', hty⟩
      · exact ⟨hb', hq, .inl hwho⟩
      · rw [hpend, Option.some.injEq, Prod.mk.injEq] at hty
        obtain ⟨rfl, rfl⟩ := compose_inj hb.port_lt hq (hb.fd_eq.symm.trans hty.2)
        exact absurd rfl hbq
    case refs => exact h.refs.closePort hb.port_lt hport
    case counts =>
      intro ty'
      have := h.counts ty'
      rwa [hpc] at this

theorem fits_unique {c : Communicator} {ty ty' : CommType} (h : c.fits ty = true)
    (h' : c.fits ty' = true) : ty = ty' := by
  cases ty <;> cases ty' <;>
    simp_all [Communicator.fits, Resource.isReadable, Resource.isWritable]

theorem Accounts.freed (h : Accounts F s) {id : ℕ} (hidle : s.master = .idle)
    (hid : id < F.commMax) (hused : (s.comms id).resource.used = true)
    (hfits : (s.comms id).fits ty = true)
    (ho : ReleaseOutcome F s.phys (portOf F (s.comms id).config.fd).1
      (portOf F (s.comms id).config.fd).2 (.ok ()) ph) :
    Accounts F ({ s with phys := ph, counters := s.counters.freed ty }.setComm id
      { s.comms id with resource := { (s.comms id).resource with used := false } }) := by
  obtain ⟨-, ty', a, p, -, hb, -⟩ := h.comm id hused
  rw [hb.portOf_eq] at ho
  set c : Communicator := { s.comms id with resource := { (s.comms id).resource with used := false } }
    with hc
  -- the communicators in use afterwards are the others
  have hother : ∀ i, (update s.comms id c i).resource.used = true →
      i ≠ id ∧ update s.comms id c i = s.comms i := by
    intro i hi
    by_cases hii : i = id
    · subst hii
      simp [hc] at hi
    · exact ⟨hii, update_of_ne hii _ _⟩
  cases ho with
  | closed hact hport hempty =>
    constructor
    case setup => exact h.setup.congr fun b => closePort_setup b
    case comm =>
      intro i hi
      obtain ⟨hne, heq⟩ := hother i hi
      simp only [State.setComm_comms, State.setComm_phys, heq] at hi ⊢
      obtain ⟨hlt, ty, b, q, hfits, hb', hloc⟩ := h.comm i hi
      refine ⟨hlt, ty, b, q, hfits, hb'.closePort fun hfd => hne ?_, hloc⟩
      exact h.comm_inj i id hi hused (hfd.trans hb.fd_eq.symm)
    case comm_inj =>
      intro i j hi hj hfd
      simp only [State.setComm_comms] at hi hj hfd
      have hi' := (hother i hi).2
      have hj' := (hother j hj).2
      rw [hi'] at hi hfd
      rw [hj'] at hj hfd
      exact h.comm_inj i j hi hj hfd
    case opening =>
      intro ty' fd' hp'
      rw [State.setComm_master, hidle] at hp'
      cases hp'
    case address =>
      intro ty' cfg' hp'
      rw [State.setComm_master, hidle] at hp'
      cases hp'
    case held =>
      intro b q hu
      simp only [State.setComm_phys, closePort_used] at hu
      split at hu
      · cases hu
      rename_i hbq
      obtain ⟨hb', hq, hwho⟩ := h.held b q hu
      rw [hidle] at hwho
      rcases hwho with ⟨i, hi, hfd⟩ | ⟨ty', hty⟩
      · have hne : i ≠ id := by
          rintro rfl
          obtain ⟨rfl, rfl⟩ := compose_inj hb.port_lt hq (hb.fd_eq.symm.trans hfd)
          exact hbq rfl
        refine ⟨hb', hq, .inl ⟨i, ?_⟩⟩
        simp only [State.setComm_comms, update_of_ne hne]
        exact ⟨hi, hfd⟩
      · cases hty
    case refs => exact h.refs.closePort hb.port_lt hport
    case counts =>
      intro ty'
      have hcount := usedComms_setComm (c := c) (s := s) hid ty'
      have hold := h.counts ty'
      rw [hidle] at hold
      simp only [hused, hc, Bool.true_and, Bool.false_and, Bool.false_eq_true, if_false, add_zero,
        MasterPc.uncounted, reduceCtorEq] at hcount hold
      have hfits' : (s.comms id).fits ty' = decide (ty' = ty) := by
        by_cases hty : ty' = ty
        · simp [hty, hfits]
        · simpa [hty] using fun hf => hty (fits_unique hf hfits)
      rw [hfits'] at hcount
      change (s.counters.freed ty).balance ty' + (if s.master.uncounted = some ty' then 1 else 0) =
        UInt64.ofNat (usedComms F (s.setComm id c) ty')
      rw [← hcount, UInt64.ofNat_add] at hold
      rw [hidle]
      cases ty <;> cases ty' <;>
        simp only [Counters.balance, Counters.freed, MasterPc.uncounted, reduceCtorEq, if_true,
          if_false, decide_true, decide_false, Bool.false_eq_true] at hold ⊢ <;> grind

/-! ### Whole runs -/

theorem accounts_init (h : Init F s) : Accounts F s := by
  obtain ⟨ph, hb, rfl⟩ := h
  have hsetup := setup_boot hb
  obtain ⟨hwfd, c, rfl⟩ := hb.eq_bootState
  have hports : ∀ ap, ((bootState F hwfd F.nodesNum c).ports ap).resource.used = false := fun _ => rfl
  constructor
  case setup => exact hsetup
  case comm => intro i hi; cases hi
  case comm_inj => intro i j hi; cases hi
  case opening => intro ty fd hp; cases hp
  case address => intro ty cfg hp; cases hp
  case held =>
    intro a p hu
    rw [initState, hports] at hu
    cases hu
  case refs =>
    intro a
    have hnone : usedPortsOf F (bootState F hwfd F.nodesNum c) a = 0 :=
      List.countP_eq_zero.mpr fun p _ => by simp [hports]
    change (bootActives F hwfd F.nodesNum a).refcount = _ ∧ (bootActives F hwfd F.nodesNum a).usedPorts = _
    rw [initState, hnone]
    cases a with
    | zero => exact ⟨rfl, rfl⟩
    | succ i => by_cases hi : i < F.nodesNum <;> simp [bootActives, hi, outputActive]
  case counts =>
    intro ty
    have hnone : usedComms F (initState (bootState F hwfd F.nodesNum c)) ty = 0 :=
      List.countP_eq_zero.mpr fun i _ => by simp [initState]
    rw [hnone]
    cases ty <;> simp [initState, Counters.balance, MasterPc.uncounted]

theorem CommOutcome.setup {cfg : Config} {env : Env} {ans : Answer}
    (ho : CommOutcome F s cfg env ty ans ph) (b : ℕ) :
    (ph.actives b).setup = (s.phys.actives b).setup := by
  cases ho with
  | aread hv ho => exact ho.setup b
  | awrite hv ho => exact ho.setup b

theorem CommOutcome.holding {cfg : Config} {env : Env} {ans : Answer}
    (ho : CommOutcome F s cfg env ty ans ph) : SameHolding s.phys ph := by
  cases ho with
  | aread hv ho => exact ho.holding
  | awrite hv ho => exact ho.holding

theorem SameHolding.refl (ph : Phys) : SameHolding ph ph := ⟨fun _ => rfl, fun _ => rfl⟩

/-- A step that only changes flags, addresses and statistics of communicators. -/
theorem Accounts.same_phys (h : Accounts F s) (hph : t.phys = s.phys)
    (hcomm : ∀ i, (t.comms i).identity = (s.comms i).identity)
    (hbal : t.counters.balance = s.counters.balance)
    (hpc : t.master = s.master ∨ s.master.settled ∧ t.master.settled) : Accounts F t :=
  h.congr (fun b => by rw [hph]) (by rw [hph]; exact .refl _) hcomm hbal hpc

theorem Counters.operated_balance (k : Counters) (c : Communicator) :
    (k.operated c).balance = k.balance := by
  funext ty
  unfold Counters.operated
  cases ty <;> split <;> rfl

theorem Accounts.step {a : Act} {o : Out} (h : Accounts F s) (hs : steps F s a o t) :
    Accounts F t := by
  cases steps_cases hs with
  | quiet _ _ hans => exact h
  | opened hidle hcall hlocal hport hrem ho => exact h.opened hidle ho
  | allocated env hpc hid hfree => exact h.allocated hpc hid hfree
  | exhausted env hpc hfull =>
    exact { h with
      opening := fun ty fd hp => h.opening ty fd (by rw [hpc]; exact hp)
      address := by intro ty cfg hp; cases hp
      held := fun b q hu => by have := h.held b q hu; rwa [hpc] at this
      counts := fun ty => by have := h.counts ty; rwa [hpc] at this }
  | counted env hpc => exact h.counted hpc
  | rolledBack env hpc hv ho => exact h.rolledBack hpc ho
  | freed hidle hcall hid hused hfits hbusy hv ho => exact h.freed hidle hid hused hfits ho
  | granted hidle hkind hid hused hread hall =>
    exact h.same_phys rfl (fun i => setComm_identity (by rfl) i) rfl (.inl rfl)
  | noted hidle hcall hid hsize hmax hpc =>
    refine h.same_phys rfl (fun i => setComm_identity (by rfl) i) rfl (.inr ⟨MasterPc.settled_of_idle hidle, ?_⟩)
    rcases hpc with rfl | ⟨rfl, -, -⟩ <;> exact ⟨rfl, rfl⟩
  | remoteSet hidle hid hused hbusy =>
    exact h.same_phys rfl (fun i => setComm_identity (by rfl) i) rfl (.inl rfl)
  | allowed env hpc =>
    refine h.same_phys rfl (fun i => setComm_identity (by rfl) i) rfl (.inr ⟨?_, rfl, rfl⟩)
    rw [hpc]; exact ⟨rfl, rfl⟩
  | denied env e hpc =>
    refine h.same_phys rfl (fun _ => rfl) rfl (.inr ⟨?_, rfl, rfl⟩)
    rw [hpc]; exact ⟨rfl, rfl⟩
  | failed hpc hused hfits hbusy ho hret =>
    refine h.congr ho.setup ho.holding (fun _ => rfl) rfl (.inr ⟨?_, rfl, rfl⟩)
    rw [hpc]; exact ⟨rfl, rfl⟩
  | operated hpc hused hfits hbusy ho hret =>
    refine h.congr ho.setup ho.holding (fun i => setComm_identity (by rfl) i) rfl
      (.inr ⟨?_, rfl, rfl⟩)
    rw [hpc]; exact ⟨rfl, rfl⟩
  | checked hpc hid hused hbusy hfin => exact h.same_phys rfl (fun _ => rfl) rfl (.inl rfl)
  | collected hpc hid hused hbusy hfin hans hnext =>
    exact h.same_phys rfl (fun i => setComm_identity (by rfl) i) rfl (.inl rfl)
  | rejected env hpc hcheck => exact h.same_phys rfl (fun _ => rfl) rfl (.inl rfl)
  | entered env hpc hcheck => exact h.same_phys rfl (fun _ => rfl) rfl (.inl rfl)
  | woken env hpc =>
    exact h.congr (fun b => by simp) hwWait_holding (fun _ => rfl) rfl (.inl rfl)
  | completed env hpc hget ho =>
    exact h.congr ho.setup ho.holding (fun i => setComm_identity (by rfl) i) rfl (.inl rfl)
  | left env hpc hret hans =>
    exact h.same_phys rfl (fun i => setComm_identity (by rfl) i) rfl (.inl rfl)
  | succeeded env hpc hans hnext =>
    exact h.same_phys rfl (fun i => setComm_identity (by rfl) i) (Counters.operated_balance _ _)
      (.inl rfl)
  | reset env hpc cfg hcfg =>
    refine h.same_phys rfl (fun i => setComm_identity ?_ i) rfl (.inl rfl)
    rcases hcfg with rfl | ⟨-, rfl⟩ <;> rfl

theorem accounts_runs {tr : List (Event State Act Out)} (h : Runs F tr s) : Accounts F s := by
  obtain ⟨s₀, h₀, hrun⟩ := h
  exact hrun.invariant (P := fun _ => True) (accounts_init h₀) (fun _ _ => trivial)
    fun e hs _ hi => hi.step hs

theorem Bound.validCall (h : Bound F ph ty fd a p) : activeValidCall F fd = true := by
  have ha : a < F.hwMax := h.active_le.trans_lt F.nodesNum_lt
  have hp := h.port_lt
  rw [h.fd_eq, activeValidCall, getActid_compose hp, getPortid_compose hp]
  simp [ha, hp]

/-- Between two calls the communicators and the ports in use are in bijection through the
descriptors, and all counters agree with the tables. -/
theorem resources_accounted {tr : List (Event State Act Out)} (h : Runs F tr s)
    (hidle : s.master = .idle) :
    (∀ i, (s.comms i).resource.used = true → activeValidCall F (s.comms i).config.fd = true ∧
        (s.phys.ports (portOf F (s.comms i).config.fd)).resource.used = true) ∧
      (∀ i j, (s.comms i).resource.used = true → (s.comms j).resource.used = true → i ≠ j →
        (s.comms i).config.fd ≠ (s.comms j).config.fd) ∧
      (∀ ap, (s.phys.ports ap).resource.used = true →
        ∃ i, (s.comms i).resource.used = true ∧ portOf F (s.comms i).config.fd = ap) ∧
      (∀ a, (s.phys.actives a).refcount = usedPortsOf F s.phys a ∧
        (s.phys.actives a).usedPorts = usedPortsOf F s.phys a) ∧
      s.counters.ncreates - s.counters.nunlinks = UInt64.ofNat (usedComms F s .input) ∧
      s.counters.nopens - s.counters.ncloses = UInt64.ofNat (usedComms F s .output) := by
  have hacc := accounts_runs h
  have hcount : ∀ ty, s.counters.balance ty = UInt64.ofNat (usedComms F s ty) := by
    intro ty
    have := hacc.counts ty
    rw [hidle] at this
    simpa [MasterPc.uncounted] using this
  refine ⟨?_, ?_, ?_, hacc.refs, hcount .input, hcount .output⟩
  · intro i hi
    obtain ⟨-, ty, a, p, -, hb, -⟩ := hacc.comm i hi
    rw [hb.portOf_eq]
    exact ⟨hb.validCall, hb.used⟩
  · intro i j hi hj hne hfd
    exact hne (hacc.comm_inj i j hi hj hfd)
  · rintro ⟨a, p⟩ hu
    obtain ⟨-, hp, hwho⟩ := hacc.held a p hu
    rw [hidle] at hwho
    rcases hwho with ⟨i, hi, hfd⟩ | ⟨ty, hty⟩
    · refine ⟨i, hi, ?_⟩
      rw [hfd, portOf, getActid_compose hp, getPortid_compose hp]
      simp
    · cases hty

/-- A call of `create` or `open` with its three sections. -/
def wholeOpen (c : KernelCall) : List Act := [.call c, .master {}, .master {}]

theorem resources_accounted_created : ∃ tr s, Runs quadMailbox tr s ∧ s.master = .idle ∧
    (s.comms 1).config.fd = 17 ∧ (s.phys.actives 1).refcount = usedPortsOf quadMailbox s.phys 1 := by
  obtain ⟨tr, s, hrun, -, hidle, hfd⟩ := exists_runs_of_exec quadBoot_boot
    (wholeOpen (.create 0 3) ++ wholeOpen (.open 0 0 3))
    (fun r => r.2.master = .idle ∧ (r.2.comms 1).config.fd = 17) (by decide +kernel)
  exact ⟨tr, s, hrun, hidle, hfd, ((resources_accounted hrun hidle).2.2.2.1 1).1⟩

/-! ### Rolling back -/

theorem sourceCheck_any (h : Header) : sourceCheck F h (-1) = true := by simp [sourceCheck]

/-- No stored message is addressed to a port of the node. -/
theorem mbufferSearch_none_iff_kept (dest : ℤ) :
    mbufferSearch F .principal dest (-1) ph = none ↔
      ∀ k < F.mbufferMax, (ph.mbuffers k).kept = true → (ph.mbuffers k).message.header.dest ≠ dest := by
  rw [mbufferSearch_none]
  simp only [Pool.base, Pool.nmbuffers, Nat.zero_add, candidate, sourceCheck_any, Bool.and_true]
  apply forall₂_congr
  intro k _
  simp [Mbuffer.kept]

/-- The release of a port in use succeeds unless a message is stored for it. -/
theorem activeRelease_bound (hset : Setup F ph) (hb : Bound F ph ty fd a p) :
    (∃ ph', activeRelease F ph fd = some (.ok (), ph')) ↔
      (ty = .input → ∀ k < F.mbufferMax, (ph.mbuffers k).kept = true →
        (ph.mbuffers k).message.header.dest ≠ laddressCompose F F.node (getPortid F fd)) := by
  have hact : (ph.actives a).resource.used = true := hset.used_iff.mpr hb.active_le
  have hread : (ph.actives a).resource.isReadable = true ↔ ty = .input :=
    hset.readable_iff.trans hb.input_iff.symm
  rw [← mbufferSearch_none_iff_kept, ← hread]
  simp only [activeRelease, hb.validCall, hb.portOf_eq, hact, hset.localNode hact, hb.used,
    Bool.not_true, Bool.false_eq_true, if_false, if_true]
  cases hr : (ph.actives a).resource.isReadable <;>
    cases hm : mbufferSearch F .principal (laddressCompose F F.node (getPortid F fd)) (-1) ph <;>
    simp

/-- When the table of communicators is full, the port taken for a new one is given back
unless it is an input port with a message stored for it. -/
theorem rollback_releases_iff_no_stored_message {tr : List (Event State Act Out)} (h : Runs F tr s)
    (hpc : s.master = .rollback ty fd) :
    (∃ ph, activeRelease F s.phys fd = some (.ok (), ph)) ↔
      (ty = .input → ∀ k < F.mbufferMax, (s.phys.mbuffers k).kept = true →
        (s.phys.mbuffers k).message.header.dest ≠ laddressCompose F F.node (getPortid F fd)) := by
  have hacc := accounts_runs h
  obtain ⟨⟨a, p, hb⟩, -⟩ := hacc.opening ty fd (by rw [hpc]; rfl)
  exact activeRelease_bound hacc.setup hb

/-- All communicators of the small target are opened, then one more port is created; with
`stored` a message to that port has been written before. -/
def fullTable (stored : Bool) : List Act :=
  wholeOpen (.open 0 0 5) ++ (if stored then [.call (.awrite 0 64 1), .master {}] else []) ++
    (List.range 63).flatMap (fun i => wholeOpen (.open 0 ((i + 1) / 16 : ℕ) 5)) ++
    [.call (.create 0 5), .master {}]

theorem rollback_releases_iff_no_stored_message_clean :
    ∃ tr s, Runs quadMailbox tr s ∧ s.master = .rollback .input 5 ∧
      ∃ ph, activeRelease quadMailbox s.phys 5 = some (.ok (), ph) := by
  obtain ⟨tr, s, hrun, -, hpc, hclean⟩ := exists_runs_of_exec quadBoot_boot (fullTable false)
    (fun r => r.2.master = .rollback .input 5 ∧
      ∀ k < quadMailbox.mbufferMax, (r.2.phys.mbuffers k).kept = false) (by decide +kernel)
  refine ⟨tr, s, hrun, hpc, (rollback_releases_iff_no_stored_message hrun hpc).mpr ?_⟩
  intro _ k hk hkept
  rw [hclean k hk] at hkept
  cases hkept

/-- The message to a port that nobody had created makes its release fail: the kernel
stops. -/
theorem stored_message_makes_rollback_panic :
    ∃ tr s, Runs quadMailbox tr s ∧ tr.map (·.act) = fullTable true ∧
      s.master = .rollback .input 5 ∧ (∀ i < quadMailbox.commMax, (s.comms i).resource.used = true) ∧
      (¬ ∃ ph, activeRelease quadMailbox s.phys 5 = some (.ok (), ph)) ∧
      ∀ env, step quadMailbox s (.master env) = .error .kpanic := by
  obtain ⟨tr, s, hrun, hacts, hpc, hfull, hbusy⟩ := exists_runs_of_exec quadBoot_boot
    (fullTable true) (fun r => r.2.master = .rollback .input 5 ∧
      (∀ i < quadMailbox.commMax, (r.2.comms i).resource.used = true) ∧
      (activeRelease quadMailbox r.2.phys 5).map (·.1.toOption) = some none) (by decide +kernel)
  obtain ⟨⟨res, ph⟩, hrel, hres⟩ := Option.map_eq_some_iff.mp hbusy
  cases res with
  | ok u => cases hres
  | error e =>
    refine ⟨tr, s, hrun, hacts, hpc, hfull, ?_, fun env => ?_⟩
    · rintro ⟨ph', hok⟩
      rw [hrel] at hok
      cases hok
    · dsimp only at hpc hrel
      simp only [step, masterStep, hpc, hrel]

end Nanvix.Noc
