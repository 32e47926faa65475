import Nanvix.Noc.Calls

/-! Request FIFOs, request flags and ports in use over whole runs. Registering,
completing and withdrawing a request keep the three in step on every path; the
one call that can part them is the release of a port whose request is pending,
which frees the port and leaves it in the FIFO. -/

namespace Nanvix.Noc

open Nanvix.Lib Function

variable (F : Facility)

/-- The live window of the FIFO of active `a`, the flags of its ports and their
use agree. -/
structure FifoOk (s : Phys) (a : ℕ) : Prop where
  wf : (s.actives a).requests.Wf
  nodup : (s.actives a).requests.queue.Nodup
  mem_iff : ∀ p < F.portNr,
    (p : ℤ) ∈ (s.actives a).requests.queue ↔ (s.ports (a, p)).requested = true
  used : ∀ x ∈ (s.actives a).requests.queue,
    ∃ p < F.portNr, x = p ∧ (s.ports (a, p)).resource.used = true

def FifoInv (s : Phys) : Prop := ∀ a, FifoOk F s a

/-- `active_release` takes the descriptor: its active and its port are in use, and no message is stored
for the port of an input active. -/
structure Releasable (s : Phys) (id : ℤ) : Prop where
  active : (s.actives (portOf F id).1).resource.used = true
  port : (s.ports (portOf F id)).resource.used = true
  empty : (s.actives (portOf F id).1).resource.isReadable = true →
    mbufferSearch F .principal (laddressCompose F (s.actives (portOf F id).1).localNode (portOf F id).2)
      (-1) s = none

/-- A release that the state allows, of a port whose request is pending. -/
def ReleasesPending (e : Event Phys Call Reply) : Prop :=
  ∃ id, e.act = .release id ∧ Releasable F e.pre id ∧ (e.pre.ports (portOf F id)).requested = true

/-- Two states with the same FIFOs, flags and uses of ports. -/
structure SameFifo (s t : Phys) : Prop where
  requests : ∀ a, (t.actives a).requests = (s.actives a).requests
  requested : ∀ ap, (t.ports ap).requested = (s.ports ap).requested
  resource : ∀ ap, (t.ports ap).resource = (s.ports ap).resource

variable {F} {s t u : Phys} {a p : ℕ}

namespace SameFifo

theorem of_eq (ha : t.actives = s.actives) (hp : t.ports = s.ports) : SameFifo s t :=
  ⟨fun a => by rw [ha], fun ap => by rw [hp], fun ap => by rw [hp]⟩

theorem trans (h₁ : SameFifo s t) (h₂ : SameFifo t u) : SameFifo s u :=
  ⟨fun a => (h₂.requests a).trans (h₁.requests a),
    fun ap => (h₂.requested ap).trans (h₁.requested ap),
    fun ap => (h₂.resource ap).trans (h₁.resource ap)⟩

theorem setActive {x : Active} (h : x.requests = (s.actives a).requests) :
    SameFifo s (s.setActive a x) :=
  ⟨setActive_frame (·.requests) h, fun _ => rfl, fun _ => rfl⟩

theorem setPort {ap : ℕ × ℕ} {x : Port} (h : x.requested = (s.ports ap).requested)
    (h' : x.resource = (s.ports ap).resource) : SameFifo s (s.setPort ap x) :=
  ⟨fun _ => rfl, setPort_frame (·.requested) h, setPort_frame (·.resource) h'⟩

theorem allow (s : Phys) (a : ℕ) (rem : ℤ) : SameFifo s (s.allow a rem) := .setActive rfl

theorem disallow (s : Phys) (a : ℕ) : SameFifo s (s.disallow a) := .setActive rfl

theorem allocate (s : Phys) (k : ℕ) : SameFifo s (s.allocate k) := .of_eq rfl rfl

theorem attach (s : Phys) (ap : ℕ × ℕ) (k : ℕ) : SameFifo s (s.attach ap k) := .setPort rfl rfl

theorem detach (s : Phys) (ap : ℕ × ℕ) : SameFifo s (s.detach ap) := .setPort rfl rfl

theorem prepare (s : Phys) (a p k : ℕ) (cfg : Config) (env : Env) :
    SameFifo s (s.prepare F a p k cfg env) :=
  trans (t := s.setMbuffer k _) (of_eq rfl rfl) (.attach _ (a, p) k)

theorem lend (s : Phys) (a k : ℕ) (l : UInt64) : SameFifo s (s.lend a k l) :=
  ⟨setActive_frame (s := s) (·.requests) rfl, fun _ => rfl, fun _ => rfl⟩

theorem settle (s : Phys) (a p : ℕ) : SameFifo s (s.settle a p) :=
  (detach s (a, p)).trans ⟨setActive_frame (s := s) (·.requests) rfl, fun _ => rfl, fun _ => rfl⟩

end SameFifo

theorem FifoOk.congr (h : FifoOk F s a) (hr : (t.actives a).requests = (s.actives a).requests)
    (hp : ∀ p, (t.ports (a, p)).requested = (s.ports (a, p)).requested ∧
      (t.ports (a, p)).resource = (s.ports (a, p)).resource) : FifoOk F t a where
  wf := by rw [hr]; exact h.wf
  nodup := by rw [hr]; exact h.nodup
  mem_iff := by
    intro p hlt
    rw [hr, (hp p).1]
    exact h.mem_iff p hlt
  used := by
    intro x hx
    rw [hr] at hx
    obtain ⟨p, hlt, rfl, hu⟩ := h.used x hx
    exact ⟨p, hlt, rfl, by rw [(hp p).2]; exact hu⟩

theorem FifoInv.congr (h : FifoInv F s) (hst : SameFifo s t) : FifoInv F t := fun a =>
  (h a).congr (hst.requests a) fun p => ⟨hst.requested (a, p), hst.resource (a, p)⟩

/-- An update of port `p` of active `a` has to be checked at `a` only. -/
theorem FifoInv.update (h : FifoInv F s) {x : Active} {y : Port}
    (ha : FifoOk F ((s.setPort (a, p) y).setActive a x) a) :
    FifoInv F ((s.setPort (a, p) y).setActive a x) := by
  intro b
  by_cases hb : b = a
  · subst hb; exact ha
  · refine (h b).congr (by simp [update_of_ne hb]) fun q => ?_
    have hne : (b, q) ≠ (a, p) := fun he => hb (congrArg Prod.fst he)
    simp [update_of_ne hne]

/-! ### The updates that touch a FIFO -/

theorem FifoInv.register (h : FifoInv F s) (hp : p < F.portNr)
    (hu : (s.ports (a, p)).resource.used = true) (hreq : (s.ports (a, p)).requested = false)
    (hroom : (s.actives a).requests.nelements ≠ (s.actives a).requests.maxCapacity) :
    FifoInv F (s.register a p) := by
  have hnot : (p : ℤ) ∉ (s.actives a).requests.queue := by
    rw [(h a).mem_iff p hp, hreq]; simp
  have hq := RequestsFifo.push_queue (x := p) (h a).wf hroom
  refine h.update ⟨?_, ?_, fun q hlt => ?_, fun x hx => ?_⟩
  · simpa using RequestsFifo.push_wf (h a).wf hroom
  · simp only [Phys.setActive_actives, update_self, hq]
    refine List.nodup_append.mpr ⟨(h a).nodup, by simp, fun x hx y hy => ?_⟩
    rw [List.mem_singleton.mp hy]
    exact fun he => hnot (he ▸ hx)
  · simp only [Phys.setActive_actives, update_self, hq, List.mem_append,
      (h a).mem_iff q hlt, List.mem_singleton, Nat.cast_inj, Phys.setActive_ports,
      Phys.setPort_ports]
    by_cases hqp : q = p
    · simp [hqp]
    · simp [hqp]
  · simp only [Phys.setActive_actives, update_self, hq, List.mem_append,
      List.mem_singleton] at hx
    rcases hx with hx | rfl
    · obtain ⟨q, hlt, rfl, hqu⟩ := (h a).used x hx
      exact ⟨q, hlt, rfl, (congrArg _ (register_resource (a, q))).trans hqu⟩
    · exact ⟨p, hp, rfl, (congrArg _ (register_resource (a, p))).trans hu⟩

theorem FifoInv.complete (h : FifoInv F s) (hn : (s.actives a).requests.nelements ≠ 0)
    (hturn : (s.actives a).requests.fifo (s.actives a).requests.tail = p) :
    FifoInv F (s.complete a p) := by
  have hq := RequestsFifo.queue_eq_cons (h a).wf hn
  rw [hturn] at hq
  have hnd := (h a).nodup
  rw [hq, List.nodup_cons] at hnd
  refine h.update ⟨?_, ?_, fun q hlt => ?_, fun x hx => ?_⟩
  · simpa using RequestsFifo.pop_wf (h a).wf hn
  · simpa using hnd.2
  · simp only [Phys.setActive_actives, update_self, Phys.setActive_ports,
      Phys.setPort_ports]
    by_cases hqp : q = p
    · subst hqp; simpa using hnd.1
    · have hm := (h a).mem_iff q hlt
      rw [hq, List.mem_cons, Nat.cast_inj] at hm
      simpa [hqp] using hm
  · simp only [Phys.setActive_actives, update_self] at hx
    obtain ⟨q, hlt, rfl, hqu⟩ := (h a).used x (by rw [hq]; exact List.mem_cons_of_mem _ hx)
    exact ⟨q, hlt, rfl, (congrArg _ (complete_resource (a, q))).trans hqu⟩

/-- A full FIFO is left as it is, any other loses the port. -/
theorem FifoInv.clear (h : FifoInv F s) : FifoInv F (doRequestClear s a p) := by
  have hwf := (h a).wf
  by_cases hfull : (s.actives a).requests.nelements = (s.actives a).requests.maxCapacity
  · have hc := RequestsFifo.clear_full (x := p) hwf hfull
    have hst : SameFifo s (doRequestClear s a p) := by
      refine SameFifo.trans (t := s.setPort (a, p) { s.ports (a, p) with
        requested := (s.ports (a, p)).requested && !((s.actives a).requests.clear p).1 })
        (.setPort (by simp [hc]) rfl) (.setActive ?_)
      simp [hc]
    exact h.congr hst
  obtain ⟨hwf', hq, hfound, -⟩ := RequestsFifo.clear_spec (x := p) hwf hfull
  refine h.update ⟨?_, ?_, fun q hlt => ?_, fun x hx => ?_⟩
  · simpa using hwf'
  · simp only [Phys.setActive_actives, update_self, hq]
    exact (h a).nodup.erase _
  · simp only [Phys.setActive_actives, update_self, hq, Phys.setActive_ports,
      Phys.setPort_ports, (h a).nodup.mem_erase_iff, (h a).mem_iff q hlt, ne_eq, Nat.cast_inj]
    by_cases hqp : q = p
    · subst hqp
      have hm := (h a).mem_iff q hlt
      cases hr : (s.ports (a, q)).requested <;> simp_all
    · simp [hqp]
  · simp only [Phys.setActive_actives, update_self, hq] at hx
    obtain ⟨q, hlt, rfl, hqu⟩ := (h a).used x (List.mem_of_mem_erase hx)
    exact ⟨q, hlt, rfl, (congrArg _ (doRequestClear_resource (a, q))).trans hqu⟩

/-- A free port is in no FIFO, so clearing its flags when it is opened is right. -/
theorem FifoInv.openPort (h : FifoInv F s) (hp : p < F.portNr)
    (hfree : (s.ports (a, p)).resource.used = false) : FifoInv F (s.openPort a p) := by
  have hnot : (p : ℤ) ∉ (s.actives a).requests.queue := by
    intro hm
    obtain ⟨q, -, he, hu⟩ := (h a).used _ hm
    rw [← Nat.cast_inj.mp he, hfree] at hu
    cases hu
  refine h.update ⟨?_, ?_, fun q hlt => ?_, fun x hx => ?_⟩
  · simpa using (h a).wf
  · simpa using (h a).nodup
  · simp only [Phys.setActive_actives, update_self, Phys.setActive_ports,
      Phys.setPort_ports]
    by_cases hqp : q = p
    · subst hqp; simpa using hnot
    · simpa [hqp] using (h a).mem_iff q hlt
  · simp only [Phys.setActive_actives, update_self] at hx
    obtain ⟨q, hlt, rfl, hqu⟩ := (h a).used x hx
    refine ⟨q, hlt, rfl, ?_⟩
    by_cases hqp : q = p
    · simp [hqp]
    · simpa [hqp] using hqu

theorem FifoInv.closePort (h : FifoInv F s) (hp : p < F.portNr)
    (hreq : (s.ports (a, p)).requested = false) : FifoInv F (s.closePort a p) := by
  have hnot : (p : ℤ) ∉ (s.actives a).requests.queue := by
    rw [(h a).mem_iff p hp, hreq]; simp
  refine h.update ⟨?_, ?_, fun q hlt => ?_, fun x hx => ?_⟩
  · simpa using (h a).wf
  · simpa using (h a).nodup
  · have hm : (q : ℤ) ∈ ((s.closePort a p).actives a).requests.queue ↔
        (s.ports (a, q)).requested = true := by
      simpa [Phys.closePort] using (h a).mem_iff q hlt
    rw [← closePort_requested (a := a) (p := p)] at hm
    exact hm
  · simp only [Phys.setActive_actives, update_self] at hx
    obtain ⟨q, hlt, rfl, hqu⟩ := (h a).used x hx
    have hqp : q ≠ p := fun he => hnot (he ▸ hx)
    exact ⟨q, hlt, rfl, by simpa [hqp] using hqu⟩

/-! ### The calls -/

section Calls
variable {cfg : Config} {env : Env} {ans : Answer}

theorem FifoInv.clearSender (h : FifoInv F s) {m : Mbuffer} (hc : clearSender F s m = some t) :
    FifoInv F t := by
  unfold Noc.clearSender at hc
  split at hc
  · split at hc
    · cases hc; exact h.clear
    · cases hc
  · cases hc; exact h

/-- A read that returns no stored message leaves the FIFOs and flags alone. -/
theorem SameFifo.aread (ho : AreadOutcome F s a p cfg env ans t) (hret : ans.ret ≠ .ok .received) :
    SameFifo s t := by
  have hallow := SameFifo.allow s a (getActid F cfg.remoteAddr)
  cases ho with
  | refused e => exact .of_eq rfl rfl
  | stored i hport hfound hclear => exact absurd rfl hret
  | exhausted hidle => exact hallow
  | failed k hidle hk hfree =>
    have hatt := (hallow.trans (.allocate _ k)).trans (.attach _ (a, p) k)
    exact (hatt.trans (.of_eq (by simp) (by simp))).trans (.detach _ _)
  | submitted k hport hidle hk hfree l =>
    have hatt := (hallow.trans (.allocate _ k)).trans (.attach _ (a, p) k)
    exact (hatt.trans (.disallow _ _)).trans (.lend _ _ _ _)

theorem FifoInv.aread (h : FifoInv F s) (ho : AreadOutcome F s a p cfg env ans t) :
    FifoInv F t := by
  by_cases hret : ans.ret = .ok .received
  · cases ho with
    | stored i hport hfound hclear =>
      exact (h.clearSender hclear).congr (.of_eq (by simp) (by simp))
    | refused | exhausted | failed | submitted => cases hret
  · exact h.congr (.aread ho hret)

theorem FifoInv.registered (h : FifoInv F s) (hp : p < F.portNr)
    (hu : (s.ports (a, p)).resource.used = true) (hr : Registered s a p t) : FifoInv F t := by
  cases hr with
  | already hreq => exact h
  | now hreq hroom => exact h.register hp hu hreq hroom

theorem FifoInv.submit (h : FifoInv F s) (hp : p < F.portNr)
    (hu : (s.ports (a, p)).resource.used = true) {k : ℕ} (ho : SubmitOutcome s a p k ans t) :
    FifoInv F t := by
  cases ho with
  | full hreq hfull => exact h
  | waiting hreg e => exact h.registered hp hu hreg
  | sent hreg hturn hidle l => exact (h.registered hp hu hreg).congr (.lend _ _ _ _)

theorem FifoInv.awrite (h : FifoInv F s) (hp : p < F.portNr)
    (ho : AwriteOutcome F s a p cfg env ans t) : FifoInv F t := by
  cases ho with
  | refused e => exact h
  | starved hport hdet hlocal hreq hroom => exact h.register hp hport hreq hroom
  | forwarded k hport hdet hlocal hreq hroom hlow hk hfree =>
    exact (h.register hp hport hreq hroom).congr (.of_eq (by simp) (by simp))
  | fresh k hport hremote hdet hk hfree hsub =>
    have hst := SameFifo.prepare (F := F) s a p k cfg env
    refine (h.congr hst).submit hp ?_ hsub
    rw [hst.resource]
    exact hport
  | retried k hport hatt hget hsub => exact h.submit hp hport hsub

theorem FifoInv.wait (h : FifoInv F s) {k : ℕ} {ret : ℤ}
    (hturn : (s.actives a).resource.isWritable = true → doRequestVerify s a p = true)
    (ho : WaitOutcome F s a p k ret cfg ans t) : FifoInv F t := by
  have hlat : ∀ l keep, FifoInv F (((s.addLatency k l).dropMbuffer k keep).settle a p) :=
    fun l keep => h.congr (SameFifo.trans (.of_eq (by simp [Phys.addLatency])
      (by simp [Phys.addLatency])) (.settle _ _ _))
  cases ho with
  | failed hret =>
    exact h.congr (SameFifo.trans (.of_eq (by simp) (by simp)) (.settle _ _ _))
  | consumed hret hread hcheck l l' => exact hlat l false
  | ignored hret hread hcheck keep hkeep l => exact hlat l keep
  | written hret hwrite htail l =>
    have hn := (doRequestVerify_iff.mp (hturn hwrite)).1
    have hl : FifoInv F (s.addLatency k l) := h.congr (.of_eq rfl rfl)
    have hdone : FifoInv F ((s.addLatency k l).complete a p) := hl.complete hn htail
    exact hdone.congr (SameFifo.trans (.of_eq (by simp) (by simp)) (.settle _ _ _))
  | plain hret hread hwrite l => exact hlat l false

end Calls

/-- What one call does to the agreement of FIFO, flags and ports. -/
theorem FifoInv.step {e : Event Phys Call Reply} (he : calls F e.pre e.act e.out e.post)
    (hok : ¬ ReleasesPending F e) (h : FifoInv F e.pre) : FifoInv F e.post := by
  obtain ⟨pre, act, out, post⟩ := e
  dsimp only at he h ⊢
  cases act with
  | alloc loc rem portid ty =>
    obtain ⟨x, -, ho⟩ := calls_alloc he
    cases ho with
    | refused e => exact h
    | opened ha hm hp hin hfree => exact h.openPort hp hfree
  | release id =>
    obtain ⟨x, rfl, hv, ho⟩ := calls_release he
    cases ho with
    | refused e => exact h
    | closed hact hport hempty =>
      refine h.closePort (portOf_lt hv).2 ?_
      by_contra hreq
      exact hok ⟨id, rfl, ⟨hact, hport, hempty⟩, by simpa using hreq⟩
  | aread id cfg env =>
    obtain ⟨ans, -, -, ho⟩ := calls_aread he
    exact h.aread ho
  | awrite id cfg env =>
    obtain ⟨ans, -, hv, ho⟩ := calls_awrite he
    exact h.awrite (portOf_lt hv).2 ho
  | wait id cfg env =>
    rcases calls_wait he with rfl | ⟨ans, k, mbufferid, -, hcheck, -, ho⟩
    · exact h
    · have hw : FifoInv F (hwWait pre (portOf F id).1 env) := h.congr (.of_eq (by simp) (by simp))
      refine hw.wait (fun hwr => ?_) ho
      simpa [doRequestVerify] using (waitCheck_ok hcheck).2.2.2.2.2 (by simpa using hwr)

theorem fifoInv_boot (hb : Boot F s) : FifoInv F s := by
  obtain ⟨hwfd, c, rfl⟩ := hb.eq_bootState
  intro a
  have hr : ((bootState F hwfd F.nodesNum c).actives a).requests = { maxCapacity := F.portNr } := by
    cases a with
    | zero => rfl
    | succ i =>
      change (bootActives F hwfd F.nodesNum (i + 1)).requests = _
      simp only [bootActives]
      split <;> rfl
  refine ⟨?_, ?_, fun p _ => ?_, fun x hx => ?_⟩
  · rw [hr]
    exact ⟨le_rfl, by simp, F.portNr_pos, by simp⟩
  · simp [hr, RequestsFifo.queue]
  · rw [hr]
    simp [RequestsFifo.queue, bootState, tableInit]
  · simp [hr, RequestsFifo.queue] at hx

theorem Releasable.closes {id : ℤ} {r : Reply} (h : Releasable F s id) (he : calls F s (.release id) r t) :
    activeValidCall F id = true ∧ t = s.closePort (portOf F id).1 (portOf F id).2 := by
  obtain ⟨x, rfl, hv, -⟩ := calls_release he
  have hport : getPortid F id = (portOf F id).2 := by
    simp only [activeValidCall, Bool.and_eq_true, decide_eq_true_eq] at hv
    simp only [portOf]
    omega
  have hfree : ((s.actives (portOf F id).1).resource.isReadable && (mbufferSearch F .principal
      (laddressCompose F (s.actives (portOf F id).1).localNode (getPortid F id)) (-1) s).isSome) = false := by
    rw [hport]
    cases hr : (s.actives (portOf F id).1).resource.isReadable with
    | false => rfl
    | true => rw [h.empty hr]; rfl
  simp only [calls, call, activeRelease, hv, h.active, hfree, h.port] at he
  cases he
  exact ⟨hv, rfl⟩

/-- A released port with a pending request stays in the FIFO. -/
theorem ReleasesPending.not_fifoInv {e : Event Phys Call Reply}
    (he : calls F e.pre e.act e.out e.post) (hr : ReleasesPending F e) (h : FifoInv F e.pre) :
    ¬ FifoInv F e.post := by
  obtain ⟨id, hact, hrel, hreq⟩ := hr
  rw [hact] at he
  obtain ⟨hv, hclosed⟩ := hrel.closes he
  intro hpost
  have hp := (portOf_lt hv).2
  have hmem := ((h (portOf F id).1).mem_iff _ hp).mpr hreq
  rw [hclosed] at hpost
  obtain ⟨q, -, hq, hu⟩ := (hpost (portOf F id).1).used (portOf F id).2
    (by simpa [Phys.closePort] using hmem)
  rw [← Nat.cast_inj.mp hq] at hu
  simp [Phys.closePort] at hu

/-- In every state of a run the FIFOs list each port at most once, list exactly the
ports whose request flag is set, and list ports in use only, if and only if no
port was released while its request was pending. -/
theorem fifo_agrees_iff_no_pending_release {tr : List (Event Phys Call Reply)} (hb : Boot F s)
    (hrun : Run (calls F) s tr t) :
    (FifoInv F s ∧ ∀ e ∈ tr, FifoInv F e.post) ↔ ∀ e ∈ tr, ¬ ReleasesPending F e := by
  constructor
  · rintro ⟨hs, hall⟩ e he hr
    obtain ⟨l, r, rfl⟩ := List.append_of_mem he
    obtain ⟨hl, hstep, -⟩ := Run.at_event hrun
    have hpre : FifoInv F e.pre := by
      rcases hl.eq_or_exists_post with hp | ⟨d, hd, hp⟩
      · rw [hp]; exact hs
      · rw [← hp]; exact hall d (List.mem_append_left _ hd)
    exact hr.not_fifoInv hstep hpre (hall e he)
  · intro hno
    refine ⟨fifoInv_boot hb, fun e he => ?_⟩
    exact (hrun.invariant_of_mem (P := fun e => ¬ ReleasesPending F e) (fifoInv_boot hb) hno
      (fun _ hstep hok h => h.step hstep hok) he).2

/-- A port is opened, a message is written through it, and it is closed when the write is over. -/
theorem fifo_agrees_iff_no_pending_release_closed :
    ∃ tr t, Run (calls quadMailbox) quadBoot tr t ∧
      tr.map (·.act) = [.alloc 0 1 3 .output, .awrite 34 { buffer := 64, size := 1 } {},
        .wait 34 { buffer := 64, size := 1 } {}, .release 34] ∧
      (t.ports (2, 0)).resource.used = false ∧ (∀ e ∈ tr, ¬ ReleasesPending quadMailbox e) ∧
      ∀ e ∈ tr, FifoInv quadMailbox e.post := by
  obtain ⟨tr, t, hrun, hacts, hclosed, hclear⟩ := exists_run_of_exec (f := call quadMailbox) (s := quadBoot)
    [.alloc 0 1 3 .output, .awrite 34 { buffer := 64, size := 1 } {},
      .wait 34 { buffer := 64, size := 1 } {}, .release 34]
    (fun r => (r.2.ports (2, 0)).resource.used = false ∧
      (r.1.getLast?.map fun e => (e.pre.ports (2, 0)).requested) = some false) (by decide +kernel)
  have hnone : ∀ e ∈ tr, ¬ ReleasesPending quadMailbox e := by
    obtain ⟨e₁, e₂, e₃, e₄, rfl, h₁, h₂, h₃, h₄⟩ : ∃ e₁ e₂ e₃ e₄, tr = [e₁, e₂, e₃, e₄] ∧
        e₁.act = .alloc 0 1 3 .output ∧ e₂.act = .awrite 34 { buffer := 64, size := 1 } {} ∧
        e₃.act = .wait 34 { buffer := 64, size := 1 } {} ∧ e₄.act = .release 34 := by
      simpa [List.map_eq_cons_iff] using hacts
    rintro e he ⟨id, hact, -, hreq⟩
    simp only [List.mem_cons, List.not_mem_nil, or_false] at he
    rcases he with rfl | rfl | rfl | rfl
    · simp [h₁] at hact
    · simp [h₂] at hact
    · simp [h₃] at hact
    · obtain rfl : id = 34 := by simpa [h₄] using hact.symm
      exact absurd (hreq.symm.trans (Option.some.inj hclear)) (by simp)
  exact ⟨tr, t, hrun, hacts, hclosed, hnone,
    ((fifo_agrees_iff_no_pending_release quadBoot_boot hrun).mpr hnone).2⟩

/-- An output port is opened, its first write is refused by the hardware, and it is
released. -/
def refusedThenReleased : List Call :=
  [.alloc 0 1 3 .output, .awrite 34 { buffer := 64, size := 1 } { hwRet := -1 }, .release 34]

/-- After it the FIFO of the output active holds a port that is free. -/
theorem pending_release_breaks_fifo :
    Boot quadMailbox quadBoot ∧ ∃ tr t, Run (calls quadMailbox) quadBoot tr t ∧
      tr.map (·.act) = refusedThenReleased ∧ ¬ FifoInv quadMailbox t := by
  obtain ⟨tr, t, hrun, hacts, hq, hu⟩ := exists_run_of_exec (f := call quadMailbox) (s := quadBoot)
    refusedThenReleased
    (fun r => (r.2.actives 2).requests.queue = [0] ∧ (r.2.ports (2, 0)).resource.used = false)
    (by decide +kernel)
  refine ⟨quadBoot_boot, tr, t, hrun, hacts, fun h => ?_⟩
  obtain ⟨p, -, hp, hused⟩ := (h 2).used 0 (by rw [hq]; simp)
  rw [← Nat.cast_inj.mp (hp : ((0 : ℕ) : ℤ) = p)] at hused
  exact absurd (hused.symm.trans hu) (by simp)

end Nanvix.Noc
