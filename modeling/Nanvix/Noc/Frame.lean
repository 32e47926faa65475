import Nanvix.Noc.Outcome

/-! What the named updates leave alone. Every update touches a few fields of one
active, one port or one mbuffer; these equations let a proof about the rest pass
over it. -/

namespace Nanvix.Noc

open Function

variable {s : Phys} {env : Env} {α : Type*} {a p k : ℕ} {ap : ℕ × ℕ}

theorem setActive_frame (f : Active → α) {x : Active} (h : f x = f (s.actives a)) (b : ℕ) :
    f ((s.setActive a x).actives b) = f (s.actives b) := by
  by_cases hb : b = a
  · subst hb; simpa using h
  · simp [update_of_ne hb]

theorem setPort_frame (f : Port → α) {x : Port} (h : f x = f (s.ports ap)) (bq : ℕ × ℕ) :
    f ((s.setPort ap x).ports bq) = f (s.ports bq) := by
  by_cases hb : bq = ap
  · subst hb; simpa using h
  · simp [update_of_ne hb]

theorem setMbuffer_frame (f : Mbuffer → α) {x : Mbuffer} (h : f x = f (s.mbuffers k)) (j : ℕ) :
    f ((s.setMbuffer k x).mbuffers j) = f (s.mbuffers j) := by
  by_cases hj : j = k
  · subst hj; simpa using h
  · simp [update_of_ne hj]

@[simp] theorem register_mbufferid (bq : ℕ × ℕ) :
    ((s.register a p).ports bq).mbufferid = (s.ports bq).mbufferid := by
  unfold Phys.register
  exact setPort_frame (·.mbufferid) (by rfl) bq

@[simp] theorem register_mbufferpool (bq : ℕ × ℕ) :
    ((s.register a p).ports bq).mbufferpool = (s.ports bq).mbufferpool := by
  unfold Phys.register
  exact setPort_frame (·.mbufferpool) (by rfl) bq

@[simp] theorem register_resource (bq : ℕ × ℕ) :
    ((s.register a p).ports bq).resource = (s.ports bq).resource := by
  unfold Phys.register
  exact setPort_frame (·.resource) (by rfl) bq

@[simp] theorem complete_mbufferid (bq : ℕ × ℕ) :
    ((s.complete a p).ports bq).mbufferid = (s.ports bq).mbufferid := by
  unfold Phys.complete
  exact setPort_frame (·.mbufferid) (by rfl) bq

@[simp] theorem complete_mbufferpool (bq : ℕ × ℕ) :
    ((s.complete a p).ports bq).mbufferpool = (s.ports bq).mbufferpool := by
  unfold Phys.complete
  exact setPort_frame (·.mbufferpool) (by rfl) bq

@[simp] theorem complete_resource (bq : ℕ × ℕ) :
    ((s.complete a p).ports bq).resource = (s.ports bq).resource := by
  unfold Phys.complete
  exact setPort_frame (·.resource) (by rfl) bq

@[simp] theorem doRequestClear_mbufferid (bq : ℕ × ℕ) :
    ((doRequestClear s a p).ports bq).mbufferid = (s.ports bq).mbufferid := by
  unfold doRequestClear
  exact setPort_frame (·.mbufferid) (by rfl) bq

@[simp] theorem doRequestClear_mbufferpool (bq : ℕ × ℕ) :
    ((doRequestClear s a p).ports bq).mbufferpool = (s.ports bq).mbufferpool := by
  unfold doRequestClear
  exact setPort_frame (·.mbufferpool) (by rfl) bq

@[simp] theorem doRequestClear_resource (bq : ℕ × ℕ) :
    ((doRequestClear s a p).ports bq).resource = (s.ports bq).resource := by
  unfold doRequestClear
  exact setPort_frame (·.resource) (by rfl) bq

@[simp] theorem openPort_mbufferid (bq : ℕ × ℕ) :
    ((s.openPort a p).ports bq).mbufferid = (s.ports bq).mbufferid := by
  unfold Phys.openPort
  exact setPort_frame (·.mbufferid) (by rfl) bq

@[simp] theorem openPort_mbufferpool (bq : ℕ × ℕ) :
    ((s.openPort a p).ports bq).mbufferpool = (s.ports bq).mbufferpool := by
  unfold Phys.openPort
  exact setPort_frame (·.mbufferpool) (by rfl) bq

@[simp] theorem closePort_mbufferid (bq : ℕ × ℕ) :
    ((s.closePort a p).ports bq).mbufferid = (s.ports bq).mbufferid := by
  unfold Phys.closePort
  exact setPort_frame (·.mbufferid) (by rfl) bq

@[simp] theorem closePort_requested (bq : ℕ × ℕ) :
    ((s.closePort a p).ports bq).requested = (s.ports bq).requested := by
  unfold Phys.closePort
  exact setPort_frame (·.requested) (by rfl) bq

@[simp] theorem closePort_mbufferpool (bq : ℕ × ℕ) :
    ((s.closePort a p).ports bq).mbufferpool = (s.ports bq).mbufferpool := by
  unfold Phys.closePort
  exact setPort_frame (·.mbufferpool) (by rfl) bq

section Untouched
variable (rem : ℤ) (l : UInt64)

@[simp] theorem openPort_mbuffers : (s.openPort a p).mbuffers = s.mbuffers := rfl
@[simp] theorem closePort_mbuffers : (s.closePort a p).mbuffers = s.mbuffers := rfl
@[simp] theorem allow_ports : (s.allow a rem).ports = s.ports := rfl
@[simp] theorem allow_mbuffers : (s.allow a rem).mbuffers = s.mbuffers := rfl
@[simp] theorem allow_lent : (s.allow a rem).lent = s.lent := rfl
@[simp] theorem allow_clockError : (s.allow a rem).clockError = s.clockError := rfl
@[simp] theorem disallow_ports : (s.disallow a).ports = s.ports := rfl
@[simp] theorem disallow_mbuffers : (s.disallow a).mbuffers = s.mbuffers := rfl
@[simp] theorem disallow_clockError : (s.disallow a).clockError = s.clockError := rfl
@[simp] theorem attach_actives : (s.attach ap k).actives = s.actives := rfl
@[simp] theorem attach_mbuffers : (s.attach ap k).mbuffers = s.mbuffers := rfl
@[simp] theorem attach_lent : (s.attach ap k).lent = s.lent := rfl
@[simp] theorem attach_clockError : (s.attach ap k).clockError = s.clockError := rfl
@[simp] theorem detach_actives : (s.detach ap).actives = s.actives := rfl
@[simp] theorem detach_lent : (s.detach ap).lent = s.lent := rfl
@[simp] theorem allocate_actives : (s.allocate k).actives = s.actives := rfl
@[simp] theorem allocate_ports : (s.allocate k).ports = s.ports := rfl
@[simp] theorem allocate_lent : (s.allocate k).lent = s.lent := rfl
@[simp] theorem addLatency_actives : (s.addLatency k l).actives = s.actives := rfl
@[simp] theorem addLatency_ports : (s.addLatency k l).ports = s.ports := rfl
@[simp] theorem addLatency_lent : (s.addLatency k l).lent = s.lent := rfl
@[simp] theorem addLatency_clockError : (s.addLatency k l).clockError = s.clockError := rfl
@[simp] theorem lend_ports : (s.lend a k l).ports = s.ports := rfl

/-- What is fixed about an active when the facility is initialised. -/
def Active.setup (x : Active) : Bool × Access × ℤ :=
  (x.resource.used, x.resource.access, x.localNode)

@[simp] theorem register_setup (b : ℕ) :
    ((s.register a p).actives b).setup = (s.actives b).setup := by
  unfold Phys.register
  exact setActive_frame Active.setup (by rfl) b

@[simp] theorem complete_setup (b : ℕ) :
    ((s.complete a p).actives b).setup = (s.actives b).setup := by
  unfold Phys.complete
  exact setActive_frame Active.setup (by rfl) b

@[simp] theorem doRequestClear_setup (b : ℕ) :
    ((doRequestClear s a p).actives b).setup = (s.actives b).setup := by
  unfold doRequestClear
  exact setActive_frame Active.setup (by rfl) b

@[simp] theorem openPort_setup (b : ℕ) :
    ((s.openPort a p).actives b).setup = (s.actives b).setup := by
  unfold Phys.openPort
  exact setActive_frame Active.setup (by rfl) b

@[simp] theorem closePort_setup (b : ℕ) :
    ((s.closePort a p).actives b).setup = (s.actives b).setup := by
  unfold Phys.closePort
  exact setActive_frame Active.setup (by rfl) b

@[simp] theorem allow_setup (b : ℕ) :
    ((s.allow a rem).actives b).setup = (s.actives b).setup := by
  unfold Phys.allow
  exact setActive_frame Active.setup (by rfl) b

@[simp] theorem disallow_setup (b : ℕ) :
    ((s.disallow a).actives b).setup = (s.actives b).setup := by
  unfold Phys.disallow
  exact setActive_frame Active.setup (by rfl) b

@[simp] theorem lend_setup (b : ℕ) :
    ((s.lend a k l).actives b).setup = (s.actives b).setup := by
  unfold Phys.lend
  exact setActive_frame Active.setup (by rfl) b

@[simp] theorem settle_setup (b : ℕ) :
    ((s.settle a p).actives b).setup = (s.actives b).setup := by
  unfold Phys.settle
  exact setActive_frame Active.setup (by rfl) b

/-- What an active keeps about its ports. -/
def Active.holding (x : Active) : ℤ × ℤ := (x.refcount, x.usedPorts)

@[simp] theorem register_holding (b : ℕ) :
    ((s.register a p).actives b).holding = (s.actives b).holding := by
  unfold Phys.register
  exact setActive_frame Active.holding (by rfl) b

@[simp] theorem complete_holding (b : ℕ) :
    ((s.complete a p).actives b).holding = (s.actives b).holding := by
  unfold Phys.complete
  exact setActive_frame Active.holding (by rfl) b

@[simp] theorem doRequestClear_holding (b : ℕ) :
    ((doRequestClear s a p).actives b).holding = (s.actives b).holding := by
  unfold doRequestClear
  exact setActive_frame Active.holding (by rfl) b

@[simp] theorem allow_holding (b : ℕ) :
    ((s.allow a rem).actives b).holding = (s.actives b).holding := by
  unfold Phys.allow
  exact setActive_frame Active.holding (by rfl) b

@[simp] theorem disallow_holding (b : ℕ) :
    ((s.disallow a).actives b).holding = (s.actives b).holding := by
  unfold Phys.disallow
  exact setActive_frame Active.holding (by rfl) b

@[simp] theorem lend_holding (b : ℕ) :
    ((s.lend a k l).actives b).holding = (s.actives b).holding := by
  unfold Phys.lend
  exact setActive_frame Active.holding (by rfl) b

@[simp] theorem settle_holding (b : ℕ) :
    ((s.settle a p).actives b).holding = (s.actives b).holding := by
  unfold Phys.settle
  exact setActive_frame Active.holding (by rfl) b

@[simp] theorem attach_resource (bq : ℕ × ℕ) :
    ((s.attach ap k).ports bq).resource = (s.ports bq).resource := by
  unfold Phys.attach
  exact setPort_frame (·.resource) (by rfl) bq

@[simp] theorem detach_resource (bq : ℕ × ℕ) :
    ((s.detach ap).ports bq).resource = (s.ports bq).resource := by
  unfold Phys.detach
  exact setPort_frame (·.resource) (by rfl) bq

@[simp] theorem settle_resource (bq : ℕ × ℕ) :
    ((s.settle a p).ports bq).resource = (s.ports bq).resource :=
  detach_resource bq

end Untouched

@[simp] theorem releaseMbuffer_actives (keep : Bool) :
    (s.releaseMbuffer k keep).actives = s.actives := by
  cases keep <;> rfl

@[simp] theorem releaseMbuffer_ports (keep : Bool) :
    (s.releaseMbuffer k keep).ports = s.ports := by
  cases keep <;> rfl

@[simp] theorem releaseMbuffer_lent (keep : Bool) :
    (s.releaseMbuffer k keep).lent = s.lent := by
  cases keep <;> rfl

@[simp] theorem dropMbuffer_actives (keep : Bool) :
    (s.dropMbuffer k keep).actives = s.actives := by
  unfold Phys.dropMbuffer; split <;> simp

@[simp] theorem dropMbuffer_ports (keep : Bool) :
    (s.dropMbuffer k keep).ports = s.ports := by
  unfold Phys.dropMbuffer; split <;> simp

@[simp] theorem dropMbuffer_lent (keep : Bool) :
    (s.dropMbuffer k keep).lent = s.lent := by
  unfold Phys.dropMbuffer; split <;> simp

@[simp] theorem hwWait_actives : (hwWait s a env).actives = s.actives := by
  unfold hwWait; split
  · split <;> rfl
  · rfl

@[simp] theorem hwWait_ports : (hwWait s a env).ports = s.ports := by
  unfold hwWait; split
  · split <;> rfl
  · rfl

@[simp] theorem hwWait_lent : (hwWait s a env).lent = s.lent := by
  unfold hwWait; split
  · split <;> rfl
  · rfl

/-! ### The calls do not change the setup of an active -/

variable {F : Facility} {t : Phys} {cfg : Config} {ans : Answer}

theorem isWritable_of_setup {x y : Active} (h : x.setup = y.setup) :
    x.resource.isWritable = y.resource.isWritable := by
  simp only [Active.setup, Prod.mk.injEq] at h
  simp only [Resource.isWritable, h.2.1]

theorem clearSender_setup {m : Mbuffer} (hc : clearSender F s m = some t) (b : ℕ) :
    (t.actives b).setup = (s.actives b).setup := by
  unfold clearSender at hc
  split at hc
  · split at hc
    · cases hc; simp
    · cases hc
  · cases hc; rfl

theorem AllocOutcome.setup {loc rem portid : ℤ} {ty : CommType} {x : Except Err ℤ}
    (ho : AllocOutcome F s loc rem portid ty x t) (b : ℕ) :
    (t.actives b).setup = (s.actives b).setup := by
  cases ho <;> simp

theorem ReleaseOutcome.setup {x : Except Err Unit} (ho : ReleaseOutcome F s a p x t) (b : ℕ) :
    (t.actives b).setup = (s.actives b).setup := by
  cases ho <;> simp

theorem AreadOutcome.setup (ho : AreadOutcome F s a p cfg env ans t) (b : ℕ) :
    (t.actives b).setup = (s.actives b).setup := by
  cases ho with
  | stored i hport hfound hclear => simpa using clearSender_setup hclear b
  | _ => simp

theorem Registered.setup (hr : Registered s a p t) (b : ℕ) :
    (t.actives b).setup = (s.actives b).setup := by
  cases hr <;> simp

theorem SubmitOutcome.setup (ho : SubmitOutcome s a p k ans t) (b : ℕ) :
    (t.actives b).setup = (s.actives b).setup := by
  cases ho with
  | full hreq hfull => rfl
  | waiting hreg e => exact hreg.setup b
  | sent hreg hturn hidle l => simpa using hreg.setup b

theorem AwriteOutcome.setup (ho : AwriteOutcome F s a p cfg env ans t) (b : ℕ) :
    (t.actives b).setup = (s.actives b).setup := by
  cases ho with
  | refused e => rfl
  | starved hport hdet hlocal hreq hroom => simp
  | forwarded k hport hdet hlocal hreq hroom hlow hk hfree => simp
  | fresh k hport hremote hdet hk hfree hsub => exact hsub.setup b
  | retried k hport hatt hget hsub => exact hsub.setup b

theorem WaitOutcome.setup {ret : ℤ} (ho : WaitOutcome F s a p k ret cfg ans t) (b : ℕ) :
    (t.actives b).setup = (s.actives b).setup := by
  cases ho <;> simp

/-! ### Only allocation and release change which ports are held -/

def SameHolding (s t : Phys) : Prop :=
  (∀ ap, (t.ports ap).resource = (s.ports ap).resource) ∧
    ∀ b, (t.actives b).holding = (s.actives b).holding

theorem clearSender_holding {m : Mbuffer} (hc : clearSender F s m = some t) : SameHolding s t := by
  unfold clearSender at hc
  split at hc
  · split at hc
    · cases hc
      constructor <;> intro <;> simp
    · cases hc
  · cases hc
    exact ⟨fun _ => rfl, fun _ => rfl⟩

theorem AreadOutcome.holding (ho : AreadOutcome F s a p cfg env ans t) : SameHolding s t := by
  cases ho with
  | stored i hport hfound hclear =>
    obtain ⟨hr, hh⟩ := clearSender_holding hclear
    exact ⟨fun ap => by simpa using hr ap, fun b => by simpa using hh b⟩
  | _ => constructor <;> intro <;> simp

theorem Registered.holding (hr : Registered s a p t) : SameHolding s t := by
  cases hr <;> constructor <;> intro <;> simp

theorem SubmitOutcome.holding (ho : SubmitOutcome s a p k ans t) : SameHolding s t := by
  cases ho with
  | full hreq hfull => exact ⟨fun _ => rfl, fun _ => rfl⟩
  | waiting hreg e => exact hreg.holding
  | sent hreg hturn hidle l =>
    obtain ⟨hr, hh⟩ := hreg.holding
    exact ⟨hr, fun b => by simpa using hh b⟩

theorem AwriteOutcome.holding (ho : AwriteOutcome F s a p cfg env ans t) : SameHolding s t := by
  cases ho with
  | refused e => exact ⟨fun _ => rfl, fun _ => rfl⟩
  | starved hport hdet hlocal hreq hroom => constructor <;> intro <;> simp
  | forwarded k hport hdet hlocal hreq hroom hlow hk hfree => constructor <;> intro <;> simp
  | fresh k hport hremote hdet hk hfree hsub =>
    obtain ⟨hr, hh⟩ := hsub.holding
    exact ⟨fun ap => (hr ap).trans (attach_resource ap), hh⟩
  | retried k hport hatt hget hsub => exact hsub.holding

theorem hwWait_holding : SameHolding s (hwWait s a env) := by
  constructor <;> intro <;> simp

theorem WaitOutcome.holding {ret : ℤ} (ho : WaitOutcome F s a p k ret cfg ans t) :
    SameHolding s t := by
  cases ho <;> constructor <;> intro <;> simp

end Nanvix.Noc
