import Nanvix.Noc.Accounting
import Nanvix.Noc.Ownership

/-! Loans to the hardware. An active that is busy has lent one mbuffer to the
hardware, and the port that the mbuffer is attached to stays in its place until a
wait completes the loan: on an output active it is at the tail of the request FIFO.
The calls on other ports do not disturb a loan. -/

namespace Nanvix.Noc

open Nanvix.Lib Function

variable (F : Facility)

/-- The node that an output active was opened to. -/
def remoteOf (a : ℕ) : ℤ := (bootActives F (fun _ => 0) F.nodesNum a).remote

/-- An output active to the node itself; its messages are stored and never sent. -/
def Forward (a : ℕ) : Prop := a ≠ 0 ∧ F.nodeIsLocal (remoteOf F a) = true

/-- What the sender fields of an mbuffer say: nothing, or a port of a forwarding
active. -/
def SenderOk (m : Mbuffer) : Prop :=
  0 ≤ m.actid → ∃ b q : ℕ, m.actid = b ∧ m.portid = q ∧ q < F.portNr ∧ Forward F b

/-- How the actives are wired to the hardware and to one another. -/
structure Wired (s : Phys) : Prop where
  setup : Setup F s
  fifo : ∀ a, (s.actives a).requests.Wf
  busy : ∀ a, (s.actives a).resource.busy = (s.lent a).isSome
  remote : ∀ a, a ≠ 0 → (s.actives a).remote = remoteOf F a
  forward : ∀ a p, Forward F a → (s.ports (a, p)).mbufferid < 0
  sender : ∀ k, SenderOk F (s.mbuffers k)

/-- Port `p` of active `a` waits for the hardware: it owns mbuffer `k`, which the
active has lent, and has the turn on an output active. -/
structure OnLoan (s : Phys) (a p k : ℕ) : Prop where
  lent : s.lent a = some k
  attached : (s.ports (a, p)).mbufferid = k
  turn : (s.actives a).resource.isWritable = true → doRequestVerify s a p = true

def KeepsLoans (s t : Phys) : Prop := ∀ b q j, OnLoan s b q j → OnLoan t b q j

variable {F} {s t u : Phys} {a p k b q j : ℕ} {ap : ℕ × ℕ} {cfg : Config} {env : Env} {ans : Answer}

theorem KeepsLoans.refl (s : Phys) : KeepsLoans s s := fun _ _ _ h => h

theorem KeepsLoans.trans (h₁ : KeepsLoans s t) (h₂ : KeepsLoans t u) : KeepsLoans s u :=
  fun b q j h => h₂ b q j (h₁ b q j h)

theorem verify_congr (h : (t.actives b).requests = (s.actives b).requests) :
    doRequestVerify t b q = doRequestVerify s b q := by
  simp only [doRequestVerify, h]

theorem OnLoan.congr (h : OnLoan s b q j) (hlent : t.lent b = s.lent b)
    (hport : (t.ports (b, q)).mbufferid = (s.ports (b, q)).mbufferid)
    (hset : (t.actives b).setup = (s.actives b).setup)
    (hturn : doRequestVerify s b q = true → doRequestVerify t b q = true) : OnLoan t b q j := by
  refine ⟨hlent.trans h.lent, hport.trans h.attached, fun hw => hturn (h.turn ?_)⟩
  rwa [isWritable_of_setup hset] at hw

theorem OnLoan.unique (ho : Owned F s) {q' j' : ℕ} (h : OnLoan s b q j)
    (h' : OnLoan s b q' j') : q = q' := by
  obtain rfl : j = j' := Option.some.inj (h.lent.symm.trans h'.lent)
  have := ho.inj (b, q) (b, q') (by rw [h.attached]; omega) (h.attached.trans h'.attached.symm)
  exact congrArg Prod.snd this

theorem Wired.lent_none (h : Wired F s) (hidle : (s.actives a).resource.busy = false) :
    s.lent a = none := by
  have hb := h.busy a
  rw [hidle] at hb
  exact Option.not_isSome_iff_eq_none.mp (by simp [← hb])

/-! ### Changes that do not touch the wiring -/

/-- The part of an active that the hardware and the request FIFO are driven by. -/
def Active.drive (x : Active) : Bool × RequestsFifo := (x.resource.busy, x.requests)

section Drive
variable (rem : ℤ)

@[simp] theorem openPort_drive (b : ℕ) :
    ((s.openPort a p).actives b).drive = (s.actives b).drive := by
  unfold Phys.openPort
  exact setActive_frame Active.drive (by rfl) b

@[simp] theorem closePort_drive (b : ℕ) :
    ((s.closePort a p).actives b).drive = (s.actives b).drive := by
  unfold Phys.closePort
  exact setActive_frame Active.drive (by rfl) b

@[simp] theorem allow_drive (b : ℕ) :
    ((s.allow a rem).actives b).drive = (s.actives b).drive := by
  unfold Phys.allow
  exact setActive_frame Active.drive (by rfl) b

@[simp] theorem disallow_drive (b : ℕ) :
    ((s.disallow a).actives b).drive = (s.actives b).drive := by
  unfold Phys.disallow
  exact setActive_frame Active.drive (by rfl) b

@[simp] theorem openPort_remote (b : ℕ) :
    ((s.openPort a p).actives b).remote = (s.actives b).remote := by
  unfold Phys.openPort
  exact setActive_frame (·.remote) (by rfl) b

@[simp] theorem closePort_remote (b : ℕ) :
    ((s.closePort a p).actives b).remote = (s.actives b).remote := by
  unfold Phys.closePort
  exact setActive_frame (·.remote) (by rfl) b

@[simp] theorem register_remote (b : ℕ) :
    ((s.register a p).actives b).remote = (s.actives b).remote := by
  unfold Phys.register
  exact setActive_frame (·.remote) (by rfl) b

@[simp] theorem complete_remote (b : ℕ) :
    ((s.complete a p).actives b).remote = (s.actives b).remote := by
  unfold Phys.complete
  exact setActive_frame (·.remote) (by rfl) b

@[simp] theorem doRequestClear_remote (b : ℕ) :
    ((doRequestClear s a p).actives b).remote = (s.actives b).remote := by
  unfold doRequestClear
  exact setActive_frame (·.remote) (by rfl) b

@[simp] theorem register_busy (b : ℕ) :
    ((s.register a p).actives b).resource = (s.actives b).resource := by
  unfold Phys.register
  exact setActive_frame (·.resource) (by rfl) b

@[simp] theorem complete_busy (b : ℕ) :
    ((s.complete a p).actives b).resource = (s.actives b).resource := by
  unfold Phys.complete
  exact setActive_frame (·.resource) (by rfl) b

@[simp] theorem doRequestClear_busy (b : ℕ) :
    ((doRequestClear s a p).actives b).resource = (s.actives b).resource := by
  unfold doRequestClear
  exact setActive_frame (·.resource) (by rfl) b

theorem allow_remote (hb : b ≠ a) : ((s.allow a rem).actives b).remote = (s.actives b).remote := by
  simp [Phys.allow, update_of_ne hb]

theorem disallow_remote (hb : b ≠ a) : ((s.disallow a).actives b).remote = (s.actives b).remote := by
  simp [Phys.disallow, update_of_ne hb]

end Drive

theorem drive_busy {x y : Active} (h : x.drive = y.drive) : x.resource.busy = y.resource.busy :=
  congrArg (·.1) h

theorem drive_requests {x y : Active} (h : x.drive = y.drive) : x.requests = y.requests :=
  congrArg (·.2) h

/-- The sender fields of an mbuffer. -/
def Mbuffer.origin (m : Mbuffer) : ℤ × ℤ := (m.actid, m.portid)

theorem SenderOk.congr {m m' : Mbuffer} (h : SenderOk F m) (ho : m'.origin = m.origin) :
    SenderOk F m' := by
  simp only [Mbuffer.origin, Prod.mk.injEq] at ho
  unfold SenderOk
  rw [ho.1, ho.2]
  exact h

@[simp] theorem lend_origin (l : UInt64) (j : ℕ) :
    ((s.lend a k l).mbuffers j).origin = (s.mbuffers j).origin := by
  unfold Phys.lend
  exact setMbuffer_frame Mbuffer.origin (by rfl) j

@[simp] theorem addLatency_origin (l : UInt64) (j : ℕ) :
    ((s.addLatency k l).mbuffers j).origin = (s.mbuffers j).origin := by
  unfold Phys.addLatency
  exact setMbuffer_frame Mbuffer.origin (by rfl) j

@[simp] theorem hwWait_origin (j : ℕ) :
    ((hwWait s a env).mbuffers j).origin = (s.mbuffers j).origin := by
  unfold hwWait
  split
  · split
    · exact setMbuffer_frame Mbuffer.origin (by rfl) j
    · rfl
  · rfl

theorem senderOk_none {m : Mbuffer} (h : m.actid = -1) : SenderOk F m := by
  intro hm
  omega

/-- A change of the actives and ports outside their wiring. -/
theorem Wired.congr (h : Wired F s) (hset : ∀ b, (t.actives b).setup = (s.actives b).setup)
    (hdrive : ∀ b, (t.actives b).drive = (s.actives b).drive)
    (hrem : ∀ b, b ≠ 0 → (t.actives b).remote = (s.actives b).remote)
    (hport : ∀ bq, (t.ports bq).mbufferid = (s.ports bq).mbufferid) (hlent : t.lent = s.lent)
    (hmb : ∀ k, SenderOk F (s.mbuffers k) → SenderOk F (t.mbuffers k)) : Wired F t where
  setup := h.setup.congr hset
  fifo a := by rw [drive_requests (hdrive a)]; exact h.fifo a
  busy a := by rw [drive_busy (hdrive a), hlent]; exact h.busy a
  remote a ha := (hrem a ha).trans (h.remote a ha)
  forward a p ha := by rw [hport]; exact h.forward a p ha
  sender k := hmb k (h.sender k)

theorem KeepsLoans.congr (hset : ∀ b, (t.actives b).setup = (s.actives b).setup)
    (hdrive : ∀ b, (t.actives b).drive = (s.actives b).drive)
    (hport : ∀ bq, (t.ports bq).mbufferid = (s.ports bq).mbufferid) (hlent : t.lent = s.lent) :
    KeepsLoans s t := by
  intro b q j h
  refine h.congr (by rw [hlent]) (hport _) (hset b) fun hv => ?_
  rw [verify_congr (drive_requests (hdrive b))]
  exact hv

theorem Wired.of_mbuffers (h : Wired F s) (hact : t.actives = s.actives) (hport : t.ports = s.ports)
    (hlent : t.lent = s.lent) (hmb : ∀ k, SenderOk F (s.mbuffers k) → SenderOk F (t.mbuffers k)) :
    Wired F t :=
  h.congr (fun b => by rw [hact]) (fun b => by rw [hact]) (fun b _ => by rw [hact])
    (fun bq => by rw [hport]) hlent hmb

theorem KeepsLoans.of_mbuffers (hact : t.actives = s.actives) (hport : t.ports = s.ports)
    (hlent : t.lent = s.lent) : KeepsLoans s t :=
  .congr (fun b => by rw [hact]) (fun b => by rw [hact]) (fun bq => by rw [hport]) hlent

theorem senderOk_setMbuffer {m : Mbuffer} (hm : SenderOk F m) (j : ℕ)
    (hj : SenderOk F (s.mbuffers j)) : SenderOk F ((s.setMbuffer k m).mbuffers j) := by
  by_cases hjk : j = k
  · subst hjk; simpa using hm
  · simpa [update_of_ne hjk] using hj

theorem senderOk_releaseMbuffer (hk : SenderOk F (s.mbuffers k)) (keep : Bool) (j : ℕ)
    (hj : SenderOk F (s.mbuffers j)) : SenderOk F ((s.releaseMbuffer k keep).mbuffers j) := by
  cases keep with
  | false => exact senderOk_setMbuffer (senderOk_none rfl) j hj
  | true =>
    have hm : SenderOk F { s.mbuffers k with
        age := s.age, resource := { (s.mbuffers k).resource with busy := true } } := hk.congr rfl
    exact senderOk_setMbuffer hm j hj

theorem Wired.releaseMbuffer (h : Wired F s) (keep : Bool) : Wired F (s.releaseMbuffer k keep) :=
  h.of_mbuffers (by simp) (by simp) (by simp) (senderOk_releaseMbuffer (h.sender k) keep)

theorem Wired.dropMbuffer (h : Wired F s) (keep : Bool) : Wired F (s.dropMbuffer k keep) := by
  unfold Phys.dropMbuffer
  split
  · exact h.releaseMbuffer keep
  · exact h

theorem Wired.addLatency (h : Wired F s) (l : UInt64) : Wired F (s.addLatency k l) :=
  h.of_mbuffers rfl rfl rfl fun j hj => hj.congr (addLatency_origin l j)

theorem Wired.setMbuffer (h : Wired F s) {m : Mbuffer} (hm : SenderOk F m) :
    Wired F (s.setMbuffer k m) :=
  h.of_mbuffers rfl rfl rfl (senderOk_setMbuffer hm)

/-! ### The request FIFO -/

/-- With a proper ring the turn is with the first of the queue. -/
theorem verify_iff_head (hw : (s.actives a).requests.Wf) :
    doRequestVerify s a p = true ↔ (s.actives a).requests.queue.head? = some (p : ℤ) := by
  rw [doRequestVerify_iff]
  by_cases hn : (s.actives a).requests.nelements = 0
  · simp [hn, RequestsFifo.queue]
  · rw [RequestsFifo.queue_eq_cons hw hn]
    simp [hn]

theorem register_requests (b : ℕ) :
    ((s.register a p).actives b).requests =
      if b = a then (s.actives a).requests.push p else (s.actives b).requests := by
  by_cases hb : b = a
  · subst hb; simp [Phys.register]
  · simp [Phys.register, hb]

theorem complete_requests (b : ℕ) :
    ((s.complete a p).actives b).requests =
      if b = a then (s.actives a).requests.pop else (s.actives b).requests := by
  by_cases hb : b = a
  · subst hb; simp [Phys.complete]
  · simp [Phys.complete, hb]

theorem doRequestClear_requests (b : ℕ) :
    ((doRequestClear s a p).actives b).requests =
      if b = a then ((s.actives a).requests.clear p).2 else (s.actives b).requests := by
  by_cases hb : b = a
  · subst hb; simp [doRequestClear]
  · simp [doRequestClear, hb]

theorem Wired.of_requests (h : Wired F s) (hset : ∀ b, (t.actives b).setup = (s.actives b).setup)
    (hres : ∀ b, (t.actives b).resource = (s.actives b).resource)
    (hrem : ∀ b, (t.actives b).remote = (s.actives b).remote)
    (hport : ∀ bq, (t.ports bq).mbufferid = (s.ports bq).mbufferid) (hlent : t.lent = s.lent)
    (hmb : t.mbuffers = s.mbuffers) (hfifo : ∀ b, (t.actives b).requests.Wf) : Wired F t where
  setup := h.setup.congr hset
  fifo := hfifo
  busy a := by rw [hres, hlent]; exact h.busy a
  remote a ha := (hrem a).trans (h.remote a ha)
  forward a p ha := by rw [hport]; exact h.forward a p ha
  sender k := by rw [hmb]; exact h.sender k

theorem Wired.register (h : Wired F s)
    (hroom : (s.actives a).requests.nelements ≠ (s.actives a).requests.maxCapacity) :
    Wired F (s.register a p) := by
  refine h.of_requests (by simp) (by simp) (by simp) (by simp) rfl rfl fun b => ?_
  rw [register_requests]
  split
  · exact RequestsFifo.push_wf (h.fifo a) hroom
  · exact h.fifo b

theorem KeepsLoans.register (h : Wired F s)
    (hroom : (s.actives a).requests.nelements ≠ (s.actives a).requests.maxCapacity) :
    KeepsLoans s (s.register a p) := by
  intro b q j hl
  refine hl.congr rfl (by simp) (by simp) fun hv => ?_
  by_cases hb : b = a
  · -- a port behind the tail does not take the turn
    subst hb
    rw [verify_iff_head (h.fifo b)] at hv
    rw [verify_iff_head ((h.register hroom).fifo b), register_requests, if_pos rfl,
      RequestsFifo.push_queue (h.fifo b) hroom, List.head?_append, hv]
    rfl
  · have hreq : ((s.register a p).actives b).requests = (s.actives b).requests := by
      rw [register_requests, if_neg hb]
    rwa [verify_congr hreq]

theorem Wired.complete (h : Wired F s) (hn : (s.actives a).requests.nelements ≠ 0) :
    Wired F (s.complete a p) := by
  refine h.of_requests (by simp) (by simp) (by simp) (by simp) rfl rfl fun b => ?_
  rw [complete_requests]
  split
  · exact RequestsFifo.pop_wf (h.fifo a) hn
  · exact h.fifo b

theorem Wired.clear (h : Wired F s) : Wired F (doRequestClear s a p) := by
  refine h.of_requests (by simp) (by simp) (by simp) (by simp) rfl rfl fun b => ?_
  rw [doRequestClear_requests]
  split
  · by_cases hn : (s.actives a).requests.nelements = (s.actives a).requests.maxCapacity
    · rw [RequestsFifo.clear_full (h.fifo a) hn]
      exact h.fifo a
    · exact (RequestsFifo.clear_spec (h.fifo a) hn).1
  · exact h.fifo b

/-- A forwarding active has no loans. -/
theorem Wired.not_onLoan (h : Wired F s) (ha : Forward F a) : ¬ OnLoan s a p j := by
  intro hl
  have := h.forward a p ha
  have := hl.attached
  omega

theorem KeepsLoans.clear (h : Wired F s) (ha : Forward F a) : KeepsLoans s (doRequestClear s a p) := by
  intro b q j hl
  have hb : b ≠ a := by
    rintro rfl
    exact h.not_onLoan ha hl
  have hreq : ((doRequestClear s a p).actives b).requests = (s.actives b).requests := by
    rw [doRequestClear_requests, if_neg hb]
  refine hl.congr rfl (by simp) (by simp) fun hv => ?_
  rwa [verify_congr hreq]

/-- Withdrawing the sender of a stored message succeeds and disturbs no loan. -/
theorem Wired.clearSender (h : Wired F s) (k : ℕ) :
    ∃ t, clearSender F s (s.mbuffers k) = some t ∧ Wired F t ∧ KeepsLoans s t := by
  unfold Noc.clearSender
  split
  · rename_i hm
    obtain ⟨b, q, hb, hq, hlt, hfwd⟩ := h.sender k hm.1
    rw [if_pos (by rw [hq]; exact_mod_cast hlt), hb, hq]
    exact ⟨_, rfl, h.clear, .clear h hfwd⟩
  · exact ⟨s, rfl, h, .refl s⟩

/-! ### Attaching, lending and settling -/

theorem Wired.attach (h : Wired F s) (hfwd : ¬ Forward F a) : Wired F (s.attach (a, p) k) where
  setup := h.setup
  fifo := h.fifo
  busy := h.busy
  remote := h.remote
  forward b q hb := by
    have hne : (b, q) ≠ (a, p) := by
      intro heq
      cases heq
      exact hfwd hb
    simpa [Phys.attach, update_of_ne hne] using h.forward b q hb
  sender := h.sender

theorem Wired.detach (h : Wired F s) : Wired F (s.detach ap) where
  setup := h.setup
  fifo := h.fifo
  busy := h.busy
  remote := h.remote
  forward b q hb := by
    by_cases hne : (b, q) = ap
    · subst hne; simp [Phys.detach]
    · simpa [Phys.detach, update_of_ne hne] using h.forward b q hb
  sender := h.sender

theorem KeepsLoans.attach (hfree : ∀ j, ¬ OnLoan s a p j) : KeepsLoans s (s.attach (a, p) k) := by
  intro b q j hl
  have hne : (b, q) ≠ (a, p) := by
    intro heq
    cases heq
    exact hfree j hl
  exact hl.congr rfl (by simp [Phys.attach, update_of_ne hne]) rfl id

theorem KeepsLoans.detach (hfree : ∀ j, ¬ OnLoan s a p j) : KeepsLoans s (s.detach (a, p)) := by
  intro b q j hl
  have hne : (b, q) ≠ (a, p) := by
    intro heq
    cases heq
    exact hfree j hl
  exact hl.congr rfl (by simp [Phys.detach, update_of_ne hne]) rfl id

@[simp] theorem lend_requests (l : UInt64) (b : ℕ) :
    ((s.lend a k l).actives b).requests = (s.actives b).requests := by
  unfold Phys.lend
  exact setActive_frame (·.requests) (by rfl) b

@[simp] theorem lend_remote (l : UInt64) (b : ℕ) :
    ((s.lend a k l).actives b).remote = (s.actives b).remote := by
  unfold Phys.lend
  exact setActive_frame (·.remote) (by rfl) b

@[simp] theorem settle_requests (b : ℕ) :
    ((s.settle a p).actives b).requests = (s.actives b).requests := by
  unfold Phys.settle
  exact setActive_frame (·.requests) (by rfl) b

@[simp] theorem settle_remote (b : ℕ) :
    ((s.settle a p).actives b).remote = (s.actives b).remote := by
  unfold Phys.settle
  exact setActive_frame (·.remote) (by rfl) b

theorem lend_lent (l : UInt64) : (s.lend a k l).lent = update s.lent a (some k) := rfl

theorem settle_lent : (s.settle a p).lent = update s.lent a none := rfl

theorem Wired.lend (h : Wired F s) (l : UInt64) : Wired F (s.lend a k l) where
  setup := h.setup.congr (by simp)
  fifo b := by rw [lend_requests]; exact h.fifo b
  busy b := by
    by_cases hb : b = a
    · subst hb; simp [Phys.lend]
    · simpa [Phys.lend, update_of_ne hb] using h.busy b
  remote b hb := by rw [lend_remote]; exact h.remote b hb
  forward := h.forward
  sender j := (h.sender j).congr (lend_origin l j)

theorem KeepsLoans.lend (hidle : s.lent a = none) (l : UInt64) : KeepsLoans s (s.lend a k l) := by
  intro b q j hl
  have hb : b ≠ a := by
    rintro rfl
    rw [hl.lent] at hidle
    cases hidle
  refine hl.congr (by rw [lend_lent, update_of_ne hb]) rfl (by simp) fun hv => ?_
  rwa [verify_congr (lend_requests l b)]

/-- The port whose mbuffer is lent is on loan, if it has the turn. -/
theorem onLoan_lend (hatt : (s.ports (a, p)).mbufferid = k) (l : UInt64)
    (hturn : (s.actives a).resource.isWritable = true → doRequestVerify s a p = true) :
    OnLoan (s.lend a k l) a p k := by
  refine ⟨by simp [lend_lent], hatt, fun hw => ?_⟩
  rw [verify_congr (lend_requests l a)]
  apply hturn
  rwa [isWritable_of_setup (lend_setup l a)] at hw

theorem Wired.settle (h : Wired F s) : Wired F (s.settle a p) where
  setup := h.setup.congr (by simp)
  fifo b := by rw [settle_requests]; exact h.fifo b
  busy b := by
    by_cases hb : b = a
    · subst hb; simp [Phys.settle]
    · simpa [Phys.settle, update_of_ne hb] using h.busy b
  remote b hb := by rw [settle_remote]; exact h.remote b hb
  forward := (show Wired F (s.detach (a, p)) from h.detach).forward
  sender := h.sender

/-- Only the loan of the active itself ends. -/
theorem OnLoan.settle (hl : OnLoan s b q j) (hb : b ≠ a) : OnLoan (s.settle a p) b q j := by
  refine hl.congr (by rw [settle_lent, update_of_ne hb]) ?_ (by simp) fun hv => ?_
  · have hne : (b, q) ≠ (a, p) := by simp [hb]
    simp [Phys.settle, Phys.detach, update_of_ne hne]
  · rwa [verify_congr (settle_requests b)]

/-! ### The calls -/

/-- What a read or write that has returned `ret` has done to the loans: a success lends
an mbuffer of the port, anything else lends nothing. -/
structure Started (s t : Phys) (a p : ℕ) (ret : Except Err CommStatus) : Prop where
  keeps : KeepsLoans s t
  success : ret = .ok .success → s.lent a = none ∧ (∃ k, OnLoan t a p k) ∧
    ∀ b, b ≠ a → t.lent b = s.lent b
  other : ret ≠ .ok .success → t.lent = s.lent
  not_again : ret ≠ .ok .again

theorem Started.of_error {e : Err} (hk : KeepsLoans s t) (hl : t.lent = s.lent) :
    Started s t a p (.error e) :=
  ⟨hk, by simp, fun _ => hl, by simp⟩

theorem Started.of_received (hk : KeepsLoans s t) (hl : t.lent = s.lent) :
    Started s t a p (.ok .received) :=
  ⟨hk, by simp, fun _ => hl, by simp⟩

theorem Wired.allow (h : Wired F s) (rem : ℤ) : Wired F (s.allow 0 rem) :=
  h.congr (by simp) (by simp) (fun _ hb => allow_remote rem hb) (by simp) rfl fun _ => id

theorem Wired.disallow (h : Wired F s) : Wired F (s.disallow 0) :=
  h.congr (by simp) (by simp) (fun _ hb => disallow_remote hb) (by simp) rfl fun _ => id

theorem KeepsLoans.allow (rem : ℤ) : KeepsLoans s (s.allow a rem) :=
  .congr (by simp) (by simp) (by simp) rfl

theorem KeepsLoans.disallow : KeepsLoans s (s.disallow a) := .congr (by simp) (by simp) (by simp) rfl

theorem KeepsLoans.setMbuffer (s : Phys) (k : ℕ) (m : Mbuffer) : KeepsLoans s (s.setMbuffer k m) :=
  .of_mbuffers rfl rfl rfl

theorem KeepsLoans.releaseMbuffer (s : Phys) (k : ℕ) (keep : Bool) :
    KeepsLoans s (s.releaseMbuffer k keep) :=
  .of_mbuffers (by simp) (by simp) (by simp)

theorem not_onLoan_of_none (h : s.lent a = none) (j : ℕ) : ¬ OnLoan s a p j := by
  intro hl
  rw [hl.lent] at h
  cases h

theorem not_forward_zero : ¬ Forward F 0 := fun h => h.1 rfl

theorem Wired.aread (h : Wired F s) (ho : AreadOutcome F s 0 p cfg env ans t) :
    Wired F t ∧ Started s t 0 p ans.ret := by
  set rem := getActid F cfg.remoteAddr
  have hattached : ∀ k, Wired F (((s.allow 0 rem).allocate k).attach (0, p) k) := fun k =>
    ((h.allow rem).setMbuffer (senderOk_none rfl)).attach not_forward_zero
  cases ho with
  | refused e => exact ⟨h, .of_error (.refl s) rfl⟩
  | stored i hport hfound hclear =>
    obtain ⟨u, hu, hw, hk⟩ := h.clearSender ((readPool F cfg.remoteAddr).base F + i)
    obtain rfl := Option.some.inj (hclear.symm.trans hu)
    refine ⟨hw.releaseMbuffer false, .of_received (hk.trans (.releaseMbuffer _ _ _)) ?_⟩
    rw [releaseMbuffer_lent, (clearSender_mbuffers hclear).2.1]
  | exhausted hidle => exact ⟨h.allow rem, .of_error (.allow rem) rfl⟩
  | failed k hidle hk hfree =>
    have hnone : ∀ {u : Phys}, u.lent = s.lent → ∀ j, ¬ OnLoan u 0 p j := fun hu =>
      not_onLoan_of_none (by rw [hu, h.lent_none hidle])
    refine ⟨((hattached k).releaseMbuffer false).detach, .of_error ?_ (by simp)⟩
    have h₁ : KeepsLoans s (((s.allow 0 rem).allocate k).attach (0, p) k) :=
      ((KeepsLoans.allow rem).trans (.setMbuffer _ _ _)).trans (.attach (hnone rfl))
    exact (h₁.trans (.releaseMbuffer _ _ _)).trans (.detach (hnone (by simp)))
  | submitted k hport hidle hk hfree l =>
    have hnone : ∀ {u : Phys}, u.lent = s.lent → u.lent 0 = none := fun hu => by
      rw [hu, h.lent_none hidle]
    have h₁ : KeepsLoans s (((s.allow 0 rem).allocate k).attach (0, p) k) :=
      ((KeepsLoans.allow rem).trans (.setMbuffer _ _ _)).trans
        (.attach (not_onLoan_of_none (hnone rfl)))
    have h₂ : KeepsLoans s ((((s.allow 0 rem).allocate k).attach (0, p) k).disallow 0) :=
      h₁.trans .disallow
    have hidle' : ((((s.allow 0 rem).allocate k).attach (0, p) k).disallow 0).lent 0 = none :=
      h.lent_none hidle
    refine ⟨(hattached k).disallow.lend l, h₂.trans (.lend hidle' l), ?_, by simp, by simp⟩
    intro _
    refine ⟨hnone rfl, ⟨k, onLoan_lend (by simp [Phys.disallow, Phys.attach]) l fun hw => ?_⟩, ?_⟩
    · -- the input active is not writable
      have := ((hattached k).disallow.setup.writable_iff).mp hw
      exact absurd rfl this.1
    · intro b hb
      rw [lend_lent, update_of_ne hb]
      rfl

theorem Wired.registered (h : Wired F s) (hr : Registered s a p t) :
    Wired F t ∧ KeepsLoans s t ∧ t.lent = s.lent := by
  cases hr with
  | already hreq => exact ⟨h, .refl s, rfl⟩
  | now hreq hroom => exact ⟨h.register hroom, .register h hroom, rfl⟩

theorem Wired.submit (h : Wired F s) (hatt : (s.ports (a, p)).mbufferid = k)
    (ho : SubmitOutcome s a p k ans t) : Wired F t ∧ Started s t a p ans.ret := by
  cases ho with
  | full hreq hfull => exact ⟨h, .of_error (.refl s) rfl⟩
  | waiting hreg e =>
    obtain ⟨hw, hk, hl⟩ := h.registered hreg
    exact ⟨hw, .of_error hk hl⟩
  | sent hreg hturn hidle l =>
    obtain ⟨hw, hk, hl⟩ := h.registered hreg
    have hnone := h.lent_none hidle
    refine ⟨hw.lend l, hk.trans (.lend (by rw [hl, hnone]) l), ?_, by simp, by simp⟩
    intro _
    refine ⟨hnone, ⟨k, onLoan_lend (by rw [hreg.mbufferid]; exact hatt) l fun _ => hturn⟩, ?_⟩
    intro b hb
    rw [lend_lent, update_of_ne hb, hl]

theorem Started.of_keeps {ret : Except Err CommStatus} (hk : KeepsLoans s t) (hl : t.lent = s.lent)
    (h : Started t u a p ret) : Started s u a p ret where
  keeps := hk.trans h.keeps
  success hr := by
    obtain ⟨hnone, hloan, hother⟩ := h.success hr
    exact ⟨by rw [← hl, hnone], hloan, fun b hb => by rw [hother b hb, hl]⟩
  other hr := (h.other hr).trans hl
  not_again := h.not_again

theorem Wired.awrite (h : Wired F s) (hown : Owned F s) (ha : a ≠ 0) (hp : p < F.portNr)
    (ho : AwriteOutcome F s a p cfg env ans t) : Wired F t ∧ Started s t a p ans.ret := by
  have hfwd : Forward F a ↔ F.nodeIsLocal (s.actives a).remote = true := by
    rw [Forward, h.remote a ha]
    simp [ha]
  cases ho with
  | refused e => exact ⟨h, .of_error (.refl s) rfl⟩
  | starved hport hdet hlocal hreq hroom =>
    exact ⟨h.register hroom, .of_error (.register h hroom) rfl⟩
  | forwarded k hport hdet hlocal hreq hroom hlow hk hfree =>
    have hsender : SenderOk F (forwardedMbuffer F s a p k cfg env) :=
      fun _ => ⟨a, p, rfl, rfl, hp, hfwd.mpr hlocal⟩
    refine ⟨((h.register hroom).setMbuffer hsender).releaseMbuffer true, .of_received ?_ (by simp)⟩
    exact ((KeepsLoans.register h hroom).trans (.setMbuffer _ _ _)).trans (.releaseMbuffer _ _ _)
  | fresh k hport hremote hdet hk hfree hsub =>
    have hnot : ¬ Forward F a := by rw [hfwd, hremote]; simp
    have hprep : Wired F (s.prepare F a p k cfg env) :=
      (h.setMbuffer (senderOk_none rfl)).attach hnot
    have hkeep : KeepsLoans s (s.prepare F a p k cfg env) := by
      refine (KeepsLoans.setMbuffer _ _ _).trans (.attach ?_)
      -- the port has no mbuffer yet
      intro j hl
      have hj : (s.ports (a, p)).mbufferid = j := hl.attached
      omega
    obtain ⟨hw, hst⟩ := hprep.submit (by simp [Phys.prepare, Phys.attach]) hsub
    exact ⟨hw, .of_keeps hkeep rfl hst⟩
  | retried k hport hatt hget hsub => exact h.submit (hown.entry_eq hatt hget) hsub

theorem Wired.openPort (h : Wired F s) : Wired F (s.openPort a p) :=
  h.congr (by simp) (by simp) (by simp) (by simp) rfl fun _ => id

theorem KeepsLoans.openPort : KeepsLoans s (s.openPort a p) :=
  .congr (by simp) (by simp) (by simp) rfl

theorem Wired.closePort (h : Wired F s) : Wired F (s.closePort a p) :=
  h.congr (by simp) (by simp) (by simp) (by simp) rfl fun _ => id

theorem KeepsLoans.closePort : KeepsLoans s (s.closePort a p) :=
  .congr (by simp) (by simp) (by simp) rfl

theorem Wired.hwWait (h : Wired F s) : Wired F (hwWait s a env) :=
  h.of_mbuffers hwWait_actives hwWait_ports hwWait_lent fun j hj => hj.congr (hwWait_origin j)

theorem KeepsLoans.hwWait : KeepsLoans s (hwWait s a env) :=
  .of_mbuffers hwWait_actives hwWait_ports hwWait_lent

/-- Completing the wait of the port on loan ends that loan and no other. -/
theorem Wired.wait (h : Wired F s) {ret : ℤ} (hl : OnLoan s a p k)
    (ho : WaitOutcome F s a p k ret cfg ans t) :
    Wired F t ∧ t.lent = update s.lent a none ∧
      ∀ b q j, b ≠ a → OnLoan s b q j → OnLoan t b q j := by
  have hdrop : ∀ (u : Phys), (∀ j, SenderOk F (s.mbuffers j) → SenderOk F (u.mbuffers j)) →
      u.actives = s.actives → u.ports = s.ports → u.lent = s.lent →
      Wired F (u.settle a p) ∧ (u.settle a p).lent = update s.lent a none ∧
        ∀ b q j, b ≠ a → OnLoan s b q j → OnLoan (u.settle a p) b q j := by
    intro u hmb ha hp hlent
    refine ⟨(h.of_mbuffers ha hp hlent hmb).settle, by rw [settle_lent, hlent], ?_⟩
    intro b q j hb hbq
    exact (KeepsLoans.of_mbuffers ha hp hlent b q j hbq).settle hb
  have hlat : ∀ l keep, Wired F (((s.addLatency k l).dropMbuffer k keep).settle a p) ∧
      (((s.addLatency k l).dropMbuffer k keep).settle a p).lent = update s.lent a none ∧
        ∀ b q j, b ≠ a → OnLoan s b q j →
          OnLoan (((s.addLatency k l).dropMbuffer k keep).settle a p) b q j := fun l keep =>
    hdrop _ (fun j _ => ((h.addLatency l).dropMbuffer keep).sender j) (by simp) (by simp) (by simp)
  cases ho with
  | failed hret => exact hdrop _ (fun j _ => (h.dropMbuffer false).sender j) (by simp) (by simp) (by simp)
  | consumed hret hread hcheck l l' => exact hlat l false
  | ignored hret hread hcheck keep hkeep l => exact hlat l keep
  | written hret hwrite hturn l =>
    have hn := (doRequestVerify_iff.mp (hl.turn hwrite)).1
    have hw : Wired F ((s.addLatency k l).complete a p) := (h.addLatency l).complete hn
    refine ⟨(hw.dropMbuffer false).settle, by simp [settle_lent], fun b q j hb hbq => ?_⟩
    have hreq : ((((s.addLatency k l).complete a p).dropMbuffer k false).actives b).requests =
        (s.actives b).requests := by
      rw [dropMbuffer_actives, complete_requests, if_neg hb, addLatency_actives]
    refine OnLoan.settle (hbq.congr (by simp) (by simp) (by simp) fun hv => ?_) hb
    rwa [verify_congr hreq]
  | plain hret hread hwrite l => exact hlat l false

theorem wired_boot (hb : Boot F s) : Wired F s := by
  have hsetup := setup_boot hb
  obtain ⟨hwfd, c, rfl⟩ := hb.eq_bootState
  have hact : ∀ a, (bootActives F hwfd F.nodesNum a).requests = { maxCapacity := F.portNr } ∧
      (bootActives F hwfd F.nodesNum a).resource.busy = false ∧
      (bootActives F hwfd F.nodesNum a).remote = remoteOf F a := by
    intro a
    cases a with
    | zero => exact ⟨rfl, rfl, rfl⟩
    | succ i => by_cases hi : i < F.nodesNum <;> simp [bootActives, hi, outputActive, remoteOf]
  constructor
  case setup => exact hsetup
  case fifo =>
    intro a
    change (bootActives F hwfd F.nodesNum a).requests.Wf
    rw [(hact a).1]
    exact ⟨by simp, by simp, F.portNr_pos, by simp⟩
  case busy => exact fun a => (hact a).2.1
  case remote => exact fun a _ => (hact a).2.2
  case forward => intro a p _; simp [bootState, tableInit]
  case sender => exact fun k => senderOk_none rfl

end Nanvix.Noc
