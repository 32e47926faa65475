import Nanvix.Noc.LocalDelivery
import Nanvix.Noc.Parties
import Nanvix.Noc.Retry

/-! Where an output communicator sends to. An open call fixes the remote address, every write puts
it into the header of a new message, and a message that could not be sent waits in the mbuffer of the
port. The address is changed by the set-remote request of `communicator_ioctl` alone, and a message
that waits goes to another mailbox only if its own is closed before it is sent. -/

namespace Nanvix.Noc

open Nanvix.Lib Function

/-- The node and port that a call of open on the idle master core asks for. -/
def askedFor (e : Event State Act Out) : Option (ℤ × ℤ) :=
  match e.act, e.pre.master with
  | .call (.open _ rem port), .idle => some (rem, port)
  | _, _ => none

/-- The node and port of the last call of open, and those that the communicators were opened with. -/
structure Opened where
  asked : ℤ × ℤ := (0, 0)
  addr : ℕ → Option (ℤ × ℤ) := fun _ => none

def Opened.next (g : Opened) (e : Event State Act Out) : Opened where
  asked := (askedFor e).getD g.asked
  addr := match takenBy e with
    | some i => update g.addr i (some g.asked)
    | none => g.addr

def openedBy (tr : List (Event State Act Out)) : Opened := tr.foldl Opened.next {}

/-- A set-remote request that an output communicator would take keeps its address. -/
def KeepsTarget (F : Facility) (e : Event State Act Out) : Prop :=
  ∀ i node port, e.act = .call (.ioctl (i : ℕ) (some (.setRemote node port))) →
    e.pre.master = .idle → (e.pre.comms i).resource.used = true →
    (e.pre.comms i).resource.isWritable = true → (e.pre.comms i).resource.busy = false →
    laddressCalc F node port = (e.pre.comms i).config.remoteAddr

/-- An output communicator is closed only when no message waits in its port. -/
def ClosesEmpty (F : Facility) (e : Event State Act Out) : Prop :=
  ∀ i, e.act = .call (.close (i : ℕ)) → e.pre.master = .idle →
    (e.pre.comms i).resource.used = true → (e.pre.comms i).resource.isWritable = true →
    (e.pre.phys.ports (portOf F (e.pre.comms i).config.fd)).mbufferid < 0

def Sends (e : Event State Act Out) (i : ℕ) (m : Message) : Prop :=
  ∃ env ans, Operates .output i env ans e ∧ ans.sent = some m

variable {F : Facility} {s t u : Phys} {a p k : ℕ} {ap : ℕ × ℕ} {cfg : Config} {env : Env} {ans : Answer}

/-! ### Messages that wait in a port -/

/-- What is attached to a port after a step was attached to it before, with the same message. -/
def KeepsAttached (s t : Phys) (ap : ℕ × ℕ) : Prop :=
  ∀ k : ℕ, (t.ports ap).mbufferid = k →
    (s.ports ap).mbufferid = k ∧ (t.mbuffers k).message = (s.mbuffers k).message

namespace KeepsAttached

theorem of_same (hid : (t.ports ap).mbufferid = (s.ports ap).mbufferid)
    (hmsg : ∀ k : ℕ, (s.ports ap).mbufferid = k → (t.mbuffers k).message = (s.mbuffers k).message) :
    KeepsAttached s t ap := by
  intro k hk
  rw [hid] at hk
  exact ⟨hk, hmsg k hk⟩

theorem detached (h : KeepsAttached s t ap) (hs : (s.ports ap).mbufferid < 0) :
    (t.ports ap).mbufferid < 0 := by
  by_contra hno
  obtain ⟨k, hk⟩ := Int.eq_ofNat_of_zero_le (not_lt.mp hno)
  have := (h k hk).1
  omega

theorem aread (ho : AreadOutcome F s 0 p cfg env ans t) (hown : Owned F s) (hap : ap.1 ≠ 0) :
    KeepsAttached s t ap :=
  fun k hk => ho.othersKeep hown ap k (fun he => hap (by rw [he])) hk

theorem awrite (ho : AwriteOutcome F s a p cfg env ans t) (hown : Owned F s) (hap : ap ≠ (a, p)) :
    KeepsAttached s t ap :=
  fun k hk => ho.othersKeep hown ap k hap hk

theorem hwWait (hown : Owned F s) (hset : Setup F s) (hap : ap.1 ≠ 0) : KeepsAttached s (hwWait s a env) ap := by
  refine .of_same (by simp) fun k hk => ?_
  rw [hwWait_message, if_neg]
  rintro ⟨hlent, hread, -⟩
  -- only the input active receives, and it has none of the mbuffers of the others
  have ha : a = 0 := hset.readable_iff.mp hread
  exact hap (((hown.lent a k hlent).2.2 ap hk).trans ha)

theorem wait {ret : ℤ} (ho : WaitOutcome F s a p k ret cfg ans t) (hown : Owned F s)
    (hk : (s.ports (a, p)).mbufferid = k) : KeepsAttached s t ap := by
  obtain ⟨hself, hothers⟩ := ho.othersKeep hown hk
  intro j hj
  by_cases hap : ap = (a, p)
  · rw [hap, hself] at hj
    omega
  · exact hothers ap j hap hj

end KeepsAttached

/-- A write sends, or leaves in its port, a message for the address it is called with. -/
theorem AwriteOutcome.dest (ho : AwriteOutcome F s a p cfg env ans t) (hown : Owned F s)
    (h : ∀ k : ℕ, (s.ports (a, p)).mbufferid = k → (s.mbuffers k).message.header.dest = cfg.remoteAddr) :
    (∀ k : ℕ, (t.ports (a, p)).mbufferid = k → (t.mbuffers k).message.header.dest = cfg.remoteAddr) ∧
      ∀ m, ans.sent = some m → m.header.dest = cfg.remoteAddr := by
  obtain ⟨hport, hsent, -⟩ := ho.attached (P := fun m => m.header.dest = cfg.remoteAddr) hown
    (fun m l => headerConfig_dest _ _) h
  exact ⟨hport, hsent⟩

/-! ### Steps -/

/-- The configuration of an output communicator is that of the node and port it was opened with. -/
def Directed (F : Facility) (target : Option (ℤ × ℤ)) (cfg : Config) : Prop :=
  Names F target cfg.remoteAddr ∧ remoteOf F (portOf F cfg.fd).1 = getActid F cfg.remoteAddr

/-- What the messages of the output communicators rely on. -/
structure Destined (F : Facility) (g : Opened) (s : State) : Prop where
  opening : ∀ cfg, s.master = .opened .output cfg → Directed F (some g.asked) cfg
  directed : ∀ i, (s.comms i).resource.used = true → (s.comms i).resource.isWritable = true →
    Directed F (g.addr i) (s.comms i).config
  carried : ∀ i, (s.comms i).resource.used = true → (s.comms i).resource.isWritable = true →
    ∀ k : ℕ, (s.phys.ports (portOf F (s.comms i).config.fd)).mbufferid = k →
      (s.phys.mbuffers k).message.header.dest = (s.comms i).config.remoteAddr
  bare : ∀ a p, a ≠ 0 → (s.phys.ports (a, p)).resource.used = false →
    (s.phys.ports (a, p)).mbufferid < 0
  empty : ∀ fd, s.master.pending = some (.output, fd) → (s.phys.ports (portOf F fd)).mbufferid < 0

/-- The part of a communicator that says where it sends to. -/
def Communicator.aim (c : Communicator) : Bool × Access × ℤ × ℤ :=
  (c.resource.used, c.resource.access, c.config.fd, c.config.remoteAddr)

section Steps
variable {g g' : Opened} {s t : State} {e : Event State Act Out} {i : ℕ}

theorem aim_writable {c c' : Communicator} (h : c'.aim = c.aim) :
    c'.resource.used = c.resource.used ∧ c'.resource.isWritable = c.resource.isWritable ∧
      c'.config.fd = c.config.fd ∧ c'.config.remoteAddr = c.config.remoteAddr := by
  simp only [Communicator.aim, Prod.mk.injEq] at h
  obtain ⟨hu, ha, hfd, hr⟩ := h
  exact ⟨hu, by simp only [Resource.isWritable, ha], hfd, hr⟩

/-- The port of an output communicator is on an output active. -/
theorem Accounts.output_port (h : Accounts F s) (hu : (s.comms i).resource.used = true)
    (hw : (s.comms i).resource.isWritable = true) : (portOf F (s.comms i).config.fd).1 ≠ 0 := by
  obtain ⟨-, ty, a, p, hfits, hb, -⟩ := h.comm i hu
  obtain rfl : ty = .output := fits_unique hfits hw
  rw [hb.portOf_eq]
  intro h0
  cases hb.input_iff.mpr h0

theorem Accounts.port_inj (h : Accounts F s) {j : ℕ} (hi : (s.comms i).resource.used = true)
    (hj : (s.comms j).resource.used = true)
    (hport : portOf F (s.comms i).config.fd = portOf F (s.comms j).config.fd) : i = j := by
  obtain ⟨-, ty, a, p, -, hb, -⟩ := h.comm i hi
  obtain ⟨-, ty', b, q, -, hb', -⟩ := h.comm j hj
  rw [hb.portOf_eq, hb'.portOf_eq] at hport
  cases hport
  exact h.comm_inj i j hi hj (hb.fd_eq.trans hb'.fd_eq.symm)

/-- A step that leaves the output communicators and what waits in their ports alone. -/
theorem Destined.keep (h : Destined F g s) (hacc : Accounts F s) (haddr : g'.addr = g.addr)
    (hopening : ∀ cfg, t.master = .opened .output cfg → Directed F (some g'.asked) cfg)
    (haim : ∀ i, (t.comms i).resource.used = true → (t.comms i).resource.isWritable = true →
      (t.comms i).aim = (s.comms i).aim)
    (hatt : ∀ ap : ℕ × ℕ, ap.1 ≠ 0 → KeepsAttached s.phys t.phys ap)
    (hbare : ∀ a p, a ≠ 0 → (t.phys.ports (a, p)).resource.used = false →
      (s.phys.ports (a, p)).mbufferid < 0)
    (hempty : ∀ fd, t.master.pending = some (.output, fd) → (t.phys.ports (portOf F fd)).mbufferid < 0) :
    Destined F g' t where
  opening := hopening
  directed i hu hw := by
    obtain ⟨hu', hw', hfd, hr⟩ := aim_writable (haim i hu hw)
    rw [haddr, Directed, hfd, hr]
    exact h.directed i (hu' ▸ hu) (hw' ▸ hw)
  carried i hu hw k hk := by
    obtain ⟨hu', hw', hfd, hr⟩ := aim_writable (haim i hu hw)
    rw [hfd] at hk
    obtain ⟨hold, hmsg⟩ := hatt _ (hacc.output_port (hu' ▸ hu) (hw' ▸ hw)) k hk
    rw [hmsg, hr]
    exact h.carried i (hu' ▸ hu) (hw' ▸ hw) k hold
  bare a p ha hfree := (hatt (a, p) ha).detached (hbare a p ha hfree)
  empty := hempty

theorem askedFor_of_master (h : e.pre.master ≠ .idle) : askedFor e = none := by
  unfold askedFor
  split
  · rename_i hm
    exact absurd hm h
  · rfl

/-- A port that the master core holds for an output communicator to come is on an output active. -/
theorem Accounts.pending_port (h : Accounts F s) {fd : ℤ} (hp : s.master.pending = some (.output, fd)) :
    (portOf F fd).1 ≠ 0 := by
  obtain ⟨⟨a, p, hb⟩, -⟩ := h.opening .output fd hp
  rw [hb.portOf_eq]
  intro h0
  cases hb.input_iff.mpr h0

theorem ty_of_output {ph : Phys} {ty : CommType} {fd : ℤ} (hb : Bound F ph ty fd a p) (ha : a ≠ 0) :
    ty = .output := by
  cases ty with
  | input => exact absurd (hb.input_iff.mp rfl) ha
  | output => rfl

/-- A new communicator takes over the address that was asked for. -/
theorem Destined.allocated (h : Destined F g s) {ty : CommType} {cfg : Config} {id : ℕ}
    (hpc : s.master = .opened ty cfg) (haddr : g'.addr = update g.addr id (some g.asked)) :
    Destined F g' { s.setComm id (.fresh cfg ty) with master := .counting ty id } := by
  have hty : (Communicator.fresh cfg ty).resource.isWritable = true → ty = .output := by
    cases ty <;> simp [Communicator.fresh, Resource.isWritable]
  constructor
  case opening => intro cfg' hm; cases hm
  case directed =>
    intro i hu hw
    by_cases hi : i = id
    · subst hi
      simp only [State.setComm_comms, update_self] at hw ⊢
      obtain rfl := hty hw
      rw [haddr, update_self]
      exact h.opening cfg hpc
    · simp only [State.setComm_comms, update_of_ne hi] at hu hw ⊢
      rw [haddr, update_of_ne hi]
      exact h.directed i hu hw
  case carried =>
    intro i hu hw k hk
    by_cases hi : i = id
    · subst hi
      simp only [State.setComm_comms, update_self] at hw hk ⊢
      obtain rfl := hty hw
      have hnone := h.empty cfg.fd (by rw [hpc]; rfl)
      have hk' : (s.phys.ports (portOf F cfg.fd)).mbufferid = k := hk
      omega
    · simp only [State.setComm_comms, update_of_ne hi] at hu hw hk ⊢
      exact h.carried i hu hw k hk
  case bare => exact h.bare
  case empty => intro fd hp; cases hp

/-- The write of an output communicator. -/
theorem Destined.awrite {ph : Phys} {c : ℕ} (h : Destined F g s) (hacc : Accounts F s) (hown : Owned F s.phys)
    (hu : (s.comms c).resource.used = true) (hw : (s.comms c).resource.isWritable = true)
    (ho : AwriteOutcome F s.phys (portOf F (s.comms c).config.fd).1 (portOf F (s.comms c).config.fd).2
      (s.comms c).config env ans ph)
    (haddr : g'.addr = g.addr) (hphys : t.phys = ph) (haim : ∀ i, (t.comms i).aim = (s.comms i).aim)
    (hmaster : t.master = .idle) : Destined F g' t := by
  have hdest := (ho.dest hown (h.carried c hu hw)).1
  constructor
  case opening => rw [hmaster]; intro cfg hm; cases hm
  case empty => rw [hmaster]; intro fd hp; cases hp
  case directed =>
    intro i hi hwi
    obtain ⟨hu', hw', hfd, hr⟩ := aim_writable (haim i)
    rw [haddr, Directed, hfd, hr]
    exact h.directed i (hu' ▸ hi) (hw' ▸ hwi)
  case carried =>
    intro i hi hwi k hk
    obtain ⟨hu', hw', hfd, hr⟩ := aim_writable (haim i)
    rw [hphys, hfd] at hk
    rw [hphys, hr]
    by_cases hic : i = c
    · subst hic
      exact hdest k hk
    · -- another communicator has another port
      have hne := fun he => hic (hacc.port_inj (hu' ▸ hi) hu he)
      obtain ⟨hold, hmsg⟩ := KeepsAttached.awrite ho hown hne k hk
      rw [hmsg]
      exact h.carried i (hu' ▸ hi) (hw' ▸ hwi) k hold
  case bare =>
    intro a p ha hfree
    rw [hphys, ho.holding.1] at hfree
    rw [hphys]
    have hne : (a, p) ≠ portOf F (s.comms c).config.fd := by
      intro he
      obtain ⟨-, ty, b, q, -, hb, -⟩ := hacc.comm c hu
      rw [he, hb.portOf_eq, hb.used] at hfree
      cases hfree
    exact (KeepsAttached.awrite ho hown hne).detached (h.bare a p ha hfree)

theorem activeMatches_remote {x : Active} {loc rem : ℤ} {ty : CommType}
    (h : activeMatches x loc rem ty = true) : x.remote = rem := by
  unfold activeMatches at h
  split at h
  · cases h
  split at h
  · cases h
  split at h
  · cases h
  split at h
  · cases h
  · rename_i hno
    exact (not_or.mp hno).2 |> not_not.mp

/-- What an open call asks for is where the active of its port leads to. -/
theorem directed_newConfig {loc rem port : ℤ} (hp : p < F.portNr) (hnode : validNode F rem = true)
    (hport : validPort F port = true) (hrem : remoteOf F a = rem) :
    Directed F (some (rem, port)) (newConfig F loc rem port (laddressCompose F a p) .output) := by
  have haddr : (newConfig F loc rem port (laddressCompose F a p) .output).remoteAddr =
      laddressCompose F rem port := by simp [newConfig]
  refine ⟨⟨rem, port, rfl, hnode, hport, haddr⟩, ?_⟩
  rw [haddr, (laddress_parts hnode hport).2.1]
  change remoteOf F (portOf F (laddressCompose F a p)).1 = _
  rw [portOf, getActid_compose hp, Int.toNat_natCast, hrem]

theorem Destined.opened {ty : CommType} {loc rem port fd : ℤ} {ph : Phys} (h : Destined F g s)
    (hacc : Accounts F s) (hw : Wired F s.phys) (ho : AllocOutcome F s.phys loc rem port ty (.ok fd) ph)
    (hnode : ty = .output → validNode F rem = true) (hport : validPort F port = true)
    (haddr : g'.addr = g.addr) (hasked : ty = .output → g'.asked = (rem, port)) :
    Destined F g' { s with phys := ph, master := .opened ty (newConfig F loc rem port fd ty) } := by
  cases ho with
  | @opened a p ha hmatch hp hin hfree =>
    obtain ⟨hinput, -, -⟩ := activeMatches_setup hacc.setup hmatch
    have hout : ty = .output → a ≠ 0 := by
      rintro rfl h0
      cases hinput.mpr h0
    refine h.keep hacc haddr (fun cfg hcfg => ?_) (fun _ _ _ => rfl) (fun ap _ => ?_) (fun b q hb hu => ?_)
      fun fd' hp' => ?_
    · cases hcfg
      rw [hasked rfl]
      refine directed_newConfig hp (hnode rfl) hport ?_
      rw [← hw.remote a (hout rfl)]
      exact activeMatches_remote hmatch
    · exact .of_same (openPort_mbufferid ap) fun _ _ => rfl
    · change ((s.phys.openPort a p).ports (b, q)).resource.used = false at hu
      rw [openPort_used] at hu
      split at hu
      · cases hu
      · exact h.bare b q hb hu
    · cases hp'
      change ((s.phys.openPort a p).ports (portOf F (laddressCompose F a p))).mbufferid < 0
      rw [openPort_mbufferid, portOf, getActid_compose hp, getPortid_compose hp]
      exact h.bare a p (hout rfl) hfree

/-- A port that is closed has nothing attached to it. -/
theorem Destined.bare_closePort (h : Destined F g s) {ty : CommType} {fd : ℤ} {b q : ℕ}
    (hbound : Bound F s.phys ty fd a p)
    (hempty : ty = .output → (s.phys.ports (portOf F fd)).mbufferid < 0) (hb : b ≠ 0)
    (hu : ((s.phys.closePort (portOf F fd).1 (portOf F fd).2).ports (b, q)).resource.used = false) :
    (s.phys.ports (b, q)).mbufferid < 0 := by
  rw [closePort_used] at hu
  split at hu
  · rename_i he
    rw [he]
    rw [hbound.portOf_eq] at he
    cases he
    exact hempty (ty_of_output hbound hb)
  · exact h.bare b q hb hu

/-- The call that `communicator_operate` makes. -/
theorem Destined.operates {ty : CommType} {c : ℕ} {ph : Phys} (h : Destined F g s) (hf : Flight F s)
    (hpc : s.master = .operating ty c) (hu : (s.comms c).resource.used = true)
    (hfits : (s.comms c).fits ty = true) (ho : CommOutcome F s (s.comms c).config env s.doComm ans ph)
    (haddr : g'.addr = g.addr) (hphys : t.phys = ph) (haim : ∀ i, (t.comms i).aim = (s.comms i).aim)
    (hmaster : t.master = .idle) : Destined F g' t := by
  have hdo : s.doComm = ty := hf.dispatched.eq hpc
  rw [hdo] at ho
  cases ho with
  | aread hv ho =>
    obtain ⟨ty', a, p, hfits', hb, hport⟩ := hf.port hu
    obtain rfl := fits_unique hfits hfits'
    obtain rfl := hb.input_iff.mp rfl
    rw [hport] at ho
    refine h.keep hf.accounts haddr ?_ (fun i _ _ => haim i) (fun ap hap => ?_) (fun a p ha hfree => ?_) ?_
    · rw [hmaster]; intro cfg hm; cases hm
    · rw [hphys]; exact .aread ho hf.owned hap
    · rw [hphys, ho.holding.1] at hfree
      exact h.bare a p ha hfree
    · rw [hmaster]; intro fd hp; cases hp
  | awrite hv ho => exact h.awrite hf.accounts hf.owned hu hfits ho haddr hphys haim hmaster

theorem not_readable {r : Resource} (h : r.isWritable = true) : r.isReadable = false := by
  simp only [Resource.isWritable, beq_iff_eq] at h
  simp [Resource.isReadable, h]

theorem Opened.next_addr (h : takenBy e = none) : (g.next e).addr = g.addr := by simp [Opened.next, h]

/-- The master core does not move, and only what is said of the tables changes. -/
theorem Destined.same_master (h : Destined F g e.pre) (hacc : Accounts F e.pre)
    (hm : e.post.master = e.pre.master)
    (haim : ∀ i, (e.post.comms i).resource.used = true → (e.post.comms i).resource.isWritable = true →
      (e.post.comms i).aim = (e.pre.comms i).aim)
    (hatt : ∀ ap : ℕ × ℕ, ap.1 ≠ 0 → KeepsAttached e.pre.phys e.post.phys ap)
    (hbare : ∀ a p, a ≠ 0 → (e.post.phys.ports (a, p)).resource.used = false →
      (e.pre.phys.ports (a, p)).mbufferid < 0) : Destined F (g.next e) e.post := by
  refine h.keep hacc (Opened.next_addr (takenBy_of_master hm)) (fun cfg hcfg => ?_) haim hatt hbare
    fun fd hp => ?_
  · -- an open call that is under way stays as it was asked for
    rw [hm] at hcfg
    rw [Opened.next, askedFor_of_master (by rw [hcfg]; simp)]
    exact h.opening cfg hcfg
  · rw [hm] at hp
    exact (hatt _ (hacc.pending_port hp)).detached (h.empty fd hp)

/-- Only a communicator changes, by a step that is not of the master core. -/
theorem Destined.same_phys (h : Destined F g e.pre) (hacc : Accounts F e.pre)
    (hm : e.post.master = e.pre.master) (hphys : e.post.phys = e.pre.phys)
    (haim : ∀ i, (e.post.comms i).resource.used = true → (e.post.comms i).resource.isWritable = true →
      (e.post.comms i).aim = (e.pre.comms i).aim) : Destined F (g.next e) e.post := by
  refine h.same_master hacc hm haim (fun ap _ => ?_) ?_
  · rw [hphys]
    exact .of_same rfl fun _ _ => rfl
  · rw [hphys]
    exact h.bare

/-- The master core is through with its section, and the tables stay. -/
theorem Destined.moved (h : Destined F g e.pre) (hacc : Accounts F e.pre) (hphys : e.post.phys = e.pre.phys)
    (ht : takenBy e = none) (hm : ∀ cfg, e.post.master ≠ .opened .output cfg)
    (hp : ∀ fd, e.post.master.pending = some (.output, fd) → e.pre.master.pending = some (.output, fd))
    (haim : ∀ i, (e.post.comms i).aim = (e.pre.comms i).aim) : Destined F (g.next e) e.post := by
  refine h.keep hacc (Opened.next_addr ht) (fun cfg hc => absurd hc (hm cfg)) (fun i _ _ => haim i)
    (fun ap _ => ?_) ?_ fun fd hfd => ?_
  · rw [hphys]
    exact .of_same rfl fun _ _ => rfl
  · rw [hphys]
    exact h.bare
  · rw [hphys]
    exact h.empty fd (hp fd hfd)

theorem Destined.step (hf : Flight F e.pre) (hs : steps F e.pre e.act e.out e.post)
    (hkeep : KeepsTarget F e) (hclose : ClosesEmpty F e) (h : Destined F g e.pre) :
    Destined F (g.next e) e.post := by
  have hacc := hf.accounts
  have hasked : ∀ {loc rem port}, e.act = .call (.open loc rem port) → e.pre.master = .idle →
      (g.next e).asked = (rem, port) := by
    intro loc rem port hact hm
    simp [Opened.next, askedFor, hact, hm]
  obtain ⟨s, act, o, t⟩ := e
  dsimp only at hf hs h hacc hasked ⊢
  cases steps_cases hs with
  | quiet a o hans => exact h.same_phys hacc rfl rfl fun _ _ _ => rfl
  | opened hidle hcall hlocal hport hrem ho =>
    refine h.opened hacc hf.wired ho hrem hport (Opened.next_addr (by simp [takenBy, hidle])) fun hty => ?_
    rcases hcall with ⟨-, rfl⟩ | ⟨loc, rfl, -⟩
    · cases hty
    · exact hasked rfl hidle
  | @allocated ty cfg id env hpc hid hfree =>
    exact h.allocated hpc (by simp [Opened.next, takenBy, hpc])
  | @exhausted ty cfg env hpc hfull =>
    refine h.moved hacc rfl (by simp [takenBy, hpc]) (by simp) (fun fd hp => ?_) fun _ => rfl
    dsimp only
    rw [hpc]
    exact hp
  | counted env hpc =>
    exact h.moved hacc rfl (by simp [takenBy, hpc]) (by simp) (by simp [MasterPc.pending]) fun _ => rfl
  | @rolledBack ty fd ph env hpc hv ho =>
    cases ho
    have hpending : s.master.pending = some (ty, fd) := by rw [hpc]; rfl
    obtain ⟨⟨b, q, hb⟩, -⟩ := hacc.opening ty fd hpending
    refine h.keep hacc (Opened.next_addr (by simp [takenBy, hpc])) (fun cfg hc => by cases hc)
      (fun _ _ _ => rfl) (fun ap _ => .of_same (closePort_mbufferid ap) fun _ _ => rfl)
      (fun a p ha hu => h.bare_closePort hb (fun hty => ?_) ha hu) fun fd hp => by cases hp
    exact h.empty fd (by rw [hpending, hty])
  | @freed call id ty ph hidle hcall hid hused hfits hbusy hv ho =>
    cases ho
    obtain ⟨-, ty', b, q, hfits', hb, -⟩ := hacc.comm id hused
    obtain rfl := fits_unique hfits hfits'
    refine h.same_master hacc rfl (fun i hu _ => ?_)
      (fun ap _ => .of_same (closePort_mbufferid ap) fun _ _ => rfl)
      fun a p ha hu => h.bare_closePort hb (fun hty => ?_) ha hu
    · by_cases hi : i = id
      · subst hi
        simp at hu
      · simp [update_of_ne hi]
    · subst hty
      rcases hcall with ⟨-, hty⟩ | ⟨rfl, -⟩
      · cases hty
      · exact hclose id rfl hidle hused hfits
  | @granted id rem port hidle hkind hid hused hread hall =>
    refine h.same_phys hacc rfl rfl fun i _ hw => ?_
    by_cases hi : i = id
    · subst hi
      rw [not_readable (r := (s.comms i).resource) (by simpa using hw)] at hread
      cases hread
    · simp [update_of_ne hi]
  | @noted call id buffer size ty pc hidle hcall hid hsize hmax hpc =>
    refine h.moved hacc rfl (by simp [takenBy, hidle]) ?_ ?_ fun i => ?_
    · rcases hpc with rfl | ⟨rfl, -⟩ <;> simp
    · rcases hpc with rfl | ⟨rfl, -⟩ <;> simp [MasterPc.pending]
    · by_cases hi : i = id <;> simp [hi, State.note, Communicator.aim]
  | @remoteSet id node port hidle hid hused hbusy =>
    refine h.same_phys hacc rfl rfl fun i _ hw => ?_
    by_cases hi : i = id
    · subst hi
      have hold := hkeep i node port rfl hidle hused (by simpa using hw) hbusy
      simp [Communicator.aim, hold]
    · simp [update_of_ne hi]
  | @allowed id env hpc =>
    refine h.moved hacc rfl (by simp [takenBy, hpc]) (by simp) (by simp [MasterPc.pending]) fun i => ?_
    by_cases hi : i = id <;> simp [hi, Communicator.aim]
  | denied env err hpc =>
    exact h.moved hacc rfl (by simp [takenBy, hpc]) (by simp) (by simp [MasterPc.pending]) fun _ => rfl
  | @failed ty id env ans ph err hpc hused hfits hbusy ho hret =>
    exact h.operates hf hpc hused hfits ho (Opened.next_addr (by simp [takenBy, hpc])) rfl (fun _ => rfl) rfl
  | @operated ty id env ans ph status hpc hused hfits hbusy ho hret =>
    refine h.operates hf hpc hused hfits ho (Opened.next_addr (by simp [takenBy, hpc])) rfl (fun i => ?_) rfl
    by_cases hi : i = id <;> simp [hi, Communicator.aim, Communicator.operated]
  | checked | rejected | entered => exact h.same_phys hacc rfl rfl fun _ _ _ => rfl
  | woken env hpc =>
    refine h.same_master hacc rfl (fun _ _ _ => rfl) (fun ap hap => .hwWait hf.owned hacc.setup hap) ?_
    exact fun a p ha hu => h.bare a p ha (by simpa using hu)
  | @collected tid id o pc hpc hid hused hbusy hfin hans hnext =>
    refine h.same_phys hacc rfl rfl fun i _ _ => ?_
    by_cases hi : i = id <;> simp [hi, Communicator.aim, Communicator.released]
  | @completed tid id k fd m ret ans ph env hpc hget ho =>
    obtain ⟨-, -, hl⟩ := hf.woken_loan hpc hget
    refine h.same_master hacc rfl (fun i _ _ => ?_) (fun ap _ => .wait ho hf.owned hl.attached)
      fun a p ha hu => ?_
    · by_cases hi : i = id <;> simp [hi, Communicator.aim]
    · refine h.bare a p ha ?_
      rw [← ho.holding.1]
      exact hu
  | @left tid id ret o env hpc hret hans =>
    refine h.same_phys hacc rfl rfl fun i _ _ => ?_
    by_cases hi : i = id <;> simp [hi, Communicator.aim, Communicator.released]
  | @succeeded tid id o pc env hpc hans hnext =>
    refine h.same_phys hacc rfl rfl fun i _ hw => ?_
    by_cases hi : i = id
    · subst hi
      have hw' : (s.comms i).resource.isWritable = true := by
        simpa [Communicator.released, Communicator.succeeded, Resource.isWritable] using hw
      simp [Communicator.aim, Communicator.released, Communicator.succeeded, not_readable hw']
    · simp [update_of_ne hi]
  | @reset tid id env hpc cfg hcfg =>
    refine h.same_phys hacc rfl rfl fun i _ hw => ?_
    by_cases hi : i = id
    · subst hi
      have hr : (s.comms i).resource.isReadable = false := not_readable (by simpa using hw)
      rcases hcfg with rfl | ⟨hread, -⟩
      · simp [Communicator.aim]
      · rw [hr] at hread
        cases hread
    · simp [update_of_ne hi]

theorem destined_init (h : Init F s) : Destined F {} s := by
  obtain ⟨ph, hb, rfl⟩ := h
  obtain ⟨hwfd, c, rfl⟩ := hb.eq_bootState
  constructor
  case opening => intro cfg hm; cases hm
  case directed => intro i hu; cases hu
  case carried => intro i hu; cases hu
  case bare => intro a p _ _; exact (by decide : (-1 : ℤ) < 0)
  case empty => intro fd hp; cases hp

end Steps

/-! ### Messages -/

/-- A write that stores a message has found its active to lead to the node itself. -/
theorem AwriteOutcome.stored {m : Mbuffer} (ho : AwriteOutcome F s a p cfg env ans t) (hown : Owned F s)
    (hpre : s.slot k = none) (hpost : t.slot k = some m) :
    F.nodeIsLocal (s.actives a).remote = true ∧ Forwarded F s t a p cfg env k m := by
  rcases ho.slots hown with ⟨hslot, -, -⟩ | ⟨hret, j, m', hf⟩
  · rw [hslot, hpre] at hpost
    cases hpost
  have hkj : k = j := by
    by_contra hne
    rw [hf.slots, update_of_ne hne, hpre] at hpost
    cases hpost
  subst hkj
  have hm := hpost
  rw [hf.slots, update_self] at hm
  obtain rfl := Option.some.inj hm
  refine ⟨?_, hf⟩
  have hsub : ∀ {u : Phys} {j : ℕ}, ¬ SubmitOutcome u a p j ans t := by
    intro u j hs
    cases hs <;> cases hret
  cases ho with
  | forwarded k hport hdet hlocal => exact hlocal
  | fresh k _ _ _ _ _ hs => exact absurd hs hsub
  | retried k _ _ _ hs => exact absurd hs hsub
  | refused | starved => cases hret

/-- A reader without a filter finds what a write has stored, whichever pool it looks into. -/
theorem Forwarded.found {m : Mbuffer} (h : Forwarded F s t a p cfg env k m) (P : Pool) :
    mbufferSearch F P m.message.header.dest (-1) t ≠ none := by
  intro hnone
  rw [mbufferSearch_none] at hnone
  have hstored : t.slot k = some m := by rw [h.slots, update_self]
  obtain ⟨hkept, rfl⟩ := slot_eq_some.mp hstored
  have hle := h.aux
  have hlt := h.lt
  have hmax := F.auxMax_le
  have hbase : P.base F ≤ k := by cases P <;> simp only [Pool.base] <;> omega
  have hj := hnone (k - P.base F) (by cases P <;> simp only [Pool.base, Pool.nmbuffers] at * <;> omega)
  rw [Nat.add_sub_cancel' hbase] at hj
  simp only [candidate, sourceCheck_any, Bool.and_true] at hj
  simp [Mbuffer.kept] at hkept
  simp [hkept] at hj

section Events
variable {g : Opened} {e : Event State Act Out} {i : ℕ}

/-- The write of an output communicator, as its event shows it. -/
theorem Flight.awrite (hf : Flight F e.pre) (hs : steps F e.pre e.act e.out e.post)
    (hop : Operates .output i env ans e) :
    (e.pre.comms i).resource.used = true ∧ (e.pre.comms i).resource.isWritable = true ∧
      AwriteOutcome F e.pre.phys (portOf F (e.pre.comms i).config.fd).1
        (portOf F (e.pre.comms i).config.fd).2 (e.pre.comms i).config env ans e.post.phys := by
  obtain ⟨hused, hw, ho⟩ := hf.outcome hs hop
  refine ⟨hused, hw, ?_⟩
  cases ho with
  | awrite _ ho => exact ho

/-- What a mailbox sends goes to where it was opened to. -/
theorem Destined.sends {m : Message} (h : Destined F g e.pre) (hf : Flight F e.pre)
    (hs : steps F e.pre e.act e.out e.post) (hm : Sends e i m) :
    ∃ rem port, g.addr i = some (rem, port) ∧ m.header.dest = laddressCompose F rem port := by
  obtain ⟨env, ans, hop, hsent⟩ := hm
  obtain ⟨hused, hw, ho⟩ := hf.awrite hs hop
  obtain ⟨⟨rem, port, haddr, -, -, hr⟩, -⟩ := h.directed i hused hw
  exact ⟨rem, port, haddr, ((ho.dest hf.owned (h.carried i hused hw)).2 m hsent).trans hr⟩

/-- What a mailbox stores is for where it was opened to, a port of the node itself. -/
theorem Destined.stores {buf : Mbuffer} (h : Destined F g e.pre) (hf : Flight F e.pre)
    (hs : steps F e.pre e.act e.out e.post) (hop : Operates .output i env ans e) (hst : Stores e k buf) :
    ∃ rem port, g.addr i = some (rem, port) ∧ buf.message.header.dest = laddressCompose F rem port ∧
      F.nodeIsLocal rem = true ∧ validPort F port = true ∧
      ∀ P, mbufferSearch F P (laddressCompose F rem port) (-1) e.post.phys ≠ none := by
  obtain ⟨hused, hw, ho⟩ := hf.awrite hs hop
  obtain ⟨⟨rem, port, haddr, hnode, hport, hr⟩, hremote⟩ := h.directed i hused hw
  obtain ⟨hlocal, hfor⟩ := ho.stored hf.owned hst.1 hst.2
  have hto := hfor.header.2.trans hr
  rw [hf.wired.remote _ (hf.accounts.output_port hused hw), hremote, hr,
    (laddress_parts hnode hport).2.1] at hlocal
  exact ⟨rem, port, haddr, hto, hlocal, hport, fun P => hto ▸ hfor.found P⟩

end Events

/-- If waits on a communicator do not overlap, set-remote requests on output communicators keep their
address and none of these is closed while a message waits in its port, then what a mailbox sends or
stores goes to the node and port it was opened with; and a message that is stored is for a port of the
node itself, where a reader without a filter accepts it and finds a message. -/
theorem writes_go_to_opened {tr : List (Event State Act Out)} {s : State} (h : Runs F tr s)
    (hP : ∀ e ∈ tr, NoOverlap e ∧ KeepsTarget F e ∧ ClosesEmpty F e) :
    (∀ l e r i m, tr = l ++ e :: r → Sends e i m → ∃ rem port,
      (openedBy l).addr i = some (rem, port) ∧ m.header.dest = laddressCompose F rem port) ∧
    ∀ l e r i env ans k buf, tr = l ++ e :: r → Operates .output i env ans e → Stores e k buf →
      ∃ rem port, (openedBy l).addr i = some (rem, port) ∧
        buf.message.header.dest = laddressCompose F rem port ∧
        F.nodeIsLocal rem = true ∧ validPort F port = true ∧
        ∀ cfg : Config, cfg.localAddr = laddressCompose F rem port → cfg.remoteAddr = -1 →
          Accepts F cfg buf ∧
          mbufferSearch F (readPool F cfg.remoteAddr) cfg.localAddr cfg.remoteAddr e.post.phys ≠ none := by
  have hdest : ∀ l e r, tr = l ++ e :: r →
      Flight F e.pre ∧ steps F e.pre e.act e.out e.post ∧ Destined F (openedBy l) e.pre := by
    rintro l e r rfl
    exact flight_history Opened.next (J := Destined F) h hP (fun _ h₀ => destined_init h₀)
      fun g e hf hs hC hJ => hJ.step hf hs hC.1 hC.2
  constructor
  · intro l e r i m htr hm
    obtain ⟨hf, hs, hd⟩ := hdest l e r htr
    exact hd.sends hf hs hm
  · intro l e r i env ans k buf htr hop hst
    obtain ⟨hf, hs, hd⟩ := hdest l e r htr
    obtain ⟨rem, port, haddr, hto, hlocal, hport, hfound⟩ := hd.stores hf hs hop hst
    refine ⟨rem, port, haddr, hto, hlocal, hport, fun cfg hl hany => ⟨⟨hto.trans hl.symm, ?_⟩, ?_⟩⟩
    · rw [hany]
      exact sourceCheck_any _
    · rw [hl, hany]
      exact hfound _

/-- The event sends a message, and the first communicator has been opened to `target`. -/
def sentTo (l : List (Event State Act Out)) (e : Event State Act Out) : Option (ℤ × (ℤ × ℤ)) :=
  match operation e, (openedBy l).addr 0 with
  | some (.output, 0, ans), some target => ans.sent.map fun m => (m.header.dest, target)
  | _, _ => none

theorem sends_of_sentTo {l : List (Event State Act Out)} {e : Event State Act Out} {dest : ℤ}
    {target : ℤ × ℤ} (h : sentTo l e = some (dest, target)) :
    ∃ m, Sends e 0 m ∧ m.header.dest = dest ∧ (openedBy l).addr 0 = some target := by
  unfold sentTo at h
  split at h
  · rename_i ans target' hop haddr
    obtain ⟨m, hm, heq⟩ := Option.map_eq_some_iff.mp h
    cases heq
    obtain ⟨env, hop⟩ := operates_of_operation hop
    exact ⟨m, ⟨env, ans, hop, hm⟩, rfl, haddr⟩
  · cases h

def mailboxWrite (rem port : ℤ) (between : List Act) : List Act :=
  wholeOpen (.open 0 rem port) ++ between ++ [.call (.awrite 0 64 1)]

/-- Without a set-remote request, the message goes to the port that the mailbox was opened to. -/
theorem writes_go_to_opened_first : ∃ tr s, Runs quadMailbox tr s ∧
    tr.map (·.act) = mailboxWrite 1 5 [] ++ [.master {}] ∧
    (∀ e ∈ tr, NoOverlap e ∧ KeepsTarget quadMailbox e ∧ ClosesEmpty quadMailbox e) ∧
    ∃ l e m, tr = l ++ [e] ∧ Sends e 0 m ∧ (openedBy l).addr 0 = some (1, 5) ∧
      m.header.dest = laddressCompose quadMailbox 1 5 := by
  obtain ⟨l, e, u, hruns, hall, -, hsent⟩ := exists_runs_last quadBoot_boot (mailboxWrite 1 5 []) (.master {})
    (fun l e => sentTo l e = some (22, (1, 5))) (by decide +kernel)
  have hP : ∀ x ∈ l ++ [e], NoOverlap x ∧ KeepsTarget quadMailbox x ∧ ClosesEmpty quadMailbox x := by
    intro x hx
    have hmem : x.act ∈ mailboxWrite 1 5 [] ++ [.master {}] := hall ▸ List.mem_map_of_mem hx
    refine ⟨noOverlap_of_one_thread hruns (by rw [hall]; decide) x hx, fun i node port hioctl => ?_,
      fun i hclose => ?_⟩
    · rw [hioctl] at hmem
      simp [mailboxWrite, wholeOpen] at hmem
    · rw [hclose] at hmem
      simp [mailboxWrite, wholeOpen] at hmem
  obtain ⟨m, hm, -, haddr⟩ := sends_of_sentTo hsent
  obtain ⟨rem, port, haddr', hto⟩ := (writes_go_to_opened hruns hP).1 l e [] 0 m rfl hm
  cases haddr.symm.trans haddr'
  exact ⟨_, u, hruns, hall, hP, l, e, m, rfl, hm, haddr, hto⟩

/-- The event stores a message of the first communicator, with its address and whether that is of the
node itself. -/
def storedFor (l : List (Event State Act Out)) (e : Event State Act Out) (k : ℕ) :
    Option (ℤ × Bool × (ℤ × ℤ)) :=
  match operation e, (openedBy l).addr 0, e.pre.phys.slot k, e.post.phys.slot k with
  | some (.output, 0, _), some target, none, some m =>
    some (m.message.header.dest, quadMailbox.nodeIsLocal (getActid quadMailbox m.message.header.dest), target)
  | _, _, _, _ => none

theorem stores_of_storedFor {l : List (Event State Act Out)} {e : Event State Act Out} {k : ℕ} {dest : ℤ}
    {own : Bool} {target : ℤ × ℤ} (h : storedFor l e k = some (dest, own, target)) :
    ∃ env ans m, Operates .output 0 env ans e ∧ Stores e k m ∧ m.message.header.dest = dest ∧
      quadMailbox.nodeIsLocal (getActid quadMailbox m.message.header.dest) = own ∧
      (openedBy l).addr 0 = some target := by
  unfold storedFor at h
  split at h
  · rename_i ans target' m hop haddr hpre hpost
    cases h
    obtain ⟨env, hop⟩ := operates_of_operation hop
    exact ⟨env, ans, m, hop, ⟨hpre, hpost⟩, rfl, rfl, haddr⟩
  · cases h

/-- A set-remote request sends the message of a mailbox to another port than the one it was opened to;
and on a mailbox to the node itself it leaves a message in the store that is for another node. -/
theorem not_writes_go_to_opened :
    (∃ tr s, Runs quadMailbox tr s ∧ (∀ e ∈ tr, NoOverlap e) ∧
      tr.map (·.act) = mailboxWrite 1 5 [.call (.ioctl 0 (some (.setRemote 2 3)))] ++ [.master {}] ∧
      ∃ l e m, tr = l ++ [e] ∧ Sends e 0 m ∧ (openedBy l).addr 0 = some (1, 5) ∧
        m.header.dest ≠ laddressCompose quadMailbox 1 5) ∧
    ∃ tr s, Runs quadMailbox tr s ∧ (∀ e ∈ tr, NoOverlap e) ∧
      tr.map (·.act) = mailboxWrite 0 5 [.call (.ioctl 0 (some (.setRemote 1 2)))] ++ [.master {}] ∧
      ∃ l e env ans k m, tr = l ++ [e] ∧ Operates .output 0 env ans e ∧ Stores e k m ∧
        (openedBy l).addr 0 = some (0, 5) ∧ m.message.header.dest ≠ laddressCompose quadMailbox 0 5 ∧
        quadMailbox.nodeIsLocal (getActid quadMailbox m.message.header.dest) = false := by
  constructor
  · obtain ⟨l, e, u, hruns, hall, -, hsent⟩ := exists_runs_last quadBoot_boot
      (mailboxWrite 1 5 [.call (.ioctl 0 (some (.setRemote 2 3)))]) (.master {})
      (fun l e => sentTo l e = some (37, (1, 5))) (by decide +kernel)
    obtain ⟨m, hm, hdest, haddr⟩ := sends_of_sentTo hsent
    exact ⟨_, u, hruns, noOverlap_of_one_thread hruns (by rw [hall]; decide), hall, l, e, m, rfl, hm, haddr,
      by rw [hdest]; decide⟩
  · obtain ⟨l, e, u, hruns, hall, -, hstored⟩ := exists_runs_last quadBoot_boot
      (mailboxWrite 0 5 [.call (.ioctl 0 (some (.setRemote 1 2)))]) (.master {})
      (fun l e => storedFor l e 16 = some (19, false, (0, 5))) (by decide +kernel)
    obtain ⟨env, ans, m, hop, hst, hdest, hown, haddr⟩ := stores_of_storedFor hstored
    exact ⟨_, u, hruns, noOverlap_of_one_thread hruns (by rw [hall]; decide), hall, l, e, env, ans, 16, m, rfl,
      hop, hst, haddr, by rw [hdest]; decide, hown⟩

end Nanvix.Noc
