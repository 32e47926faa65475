import Nanvix.Noc.Calls

/-! Ownership of mbuffers. An mbuffer attached to a port is in use, holds no
stored message and is attached to no other port, and what an active has lent to
the hardware is attached to its own ports at most. The calls keep this whatever
their arguments are. -/

namespace Nanvix.Noc

open Function

variable (F : Facility)

structure Owned (s : Phys) : Prop where
  entry : ∀ ap, 0 ≤ (s.ports ap).mbufferid → ∃ k < F.mbufferMax,
    (s.ports ap).mbufferid = k ∧ (s.ports ap).mbufferpool = some .principal ∧
      (s.mbuffers k).resource.used = true ∧ (s.mbuffers k).resource.busy = false
  inj : ∀ ap bq, 0 ≤ (s.ports ap).mbufferid → (s.ports ap).mbufferid = (s.ports bq).mbufferid →
    ap = bq
  lent : ∀ a k, s.lent a = some k → (s.mbuffers k).resource.used = true ∧
    (s.mbuffers k).resource.busy = false ∧ ∀ ap, (s.ports ap).mbufferid = k → ap.1 = a

variable {F} {s t : Phys} {a p k : ℕ} {ap : ℕ × ℕ} {cfg : Config} {env : Env} {ans : Answer}

theorem dropMbuffer_of_ne {j : ℕ} {keep : Bool} (hj : j ≠ k) :
    (s.dropMbuffer k keep).mbuffers j = s.mbuffers j := by
  unfold Phys.dropMbuffer
  split
  · cases keep <;> simp [Phys.releaseMbuffer, update_of_ne hj]
  · rfl

theorem clearSender_mbufferid {m : Mbuffer} (hc : clearSender F s m = some t) (bq : ℕ × ℕ) :
    (t.ports bq).mbufferid = (s.ports bq).mbufferid := by
  unfold clearSender at hc
  split at hc
  · split at hc
    · cases hc; simp
    · cases hc
  · cases hc; rfl

theorem Registered.mbuffers (hr : Registered s a p t) : t.mbuffers = s.mbuffers := by
  cases hr <;> rfl

theorem Registered.mbufferid (hr : Registered s a p t) (bq : ℕ × ℕ) :
    (t.ports bq).mbufferid = (s.ports bq).mbufferid := by
  cases hr with
  | already hreq => rfl
  | now hreq hroom => simp

namespace Owned

/-- Only the attachments, the use of mbuffers and the loans matter. -/
theorem congr (h : Owned F s)
    (hport : ∀ ap, (t.ports ap).mbufferid = (s.ports ap).mbufferid ∧
      (t.ports ap).mbufferpool = (s.ports ap).mbufferpool)
    (hres : ∀ k, (t.mbuffers k).resource = (s.mbuffers k).resource) (hlent : t.lent = s.lent) :
    Owned F t where
  entry := by
    intro ap hap
    rw [(hport ap).1] at hap ⊢
    obtain ⟨k, hk, he, hpool, hu⟩ := h.entry ap hap
    exact ⟨k, hk, he, by rw [(hport ap).2, hpool], by rw [hres]; exact hu⟩
  inj := by
    intro ap bq hap he
    rw [(hport ap).1] at hap he
    rw [(hport bq).1] at he
    exact h.inj ap bq hap he
  lent := by
    intro a k hk
    rw [hlent] at hk
    obtain ⟨hu, hb, hown⟩ := h.lent a k hk
    refine ⟨by rw [hres]; exact hu, by rw [hres]; exact hb, fun ap he => hown ap ?_⟩
    rw [← he, (hport ap).1]

theorem of_ports_eq (h : Owned F s) (hport : t.ports = s.ports)
    (hres : ∀ k, (t.mbuffers k).resource = (s.mbuffers k).resource) (hlent : t.lent = s.lent) :
    Owned F t :=
  h.congr (fun ap => by rw [hport]; exact ⟨rfl, rfl⟩) hres hlent

/-- The entry that an attached port names. -/
theorem entry_eq (h : Owned F s) (hatt : 0 ≤ (s.ports ap).mbufferid)
    (hget : mbufferGet F (s.ports ap).mbufferpool (s.ports ap).mbufferid = some k) :
    (s.ports ap).mbufferid = k := by
  obtain ⟨j, hj, he, hpool, -⟩ := h.entry ap hatt
  rw [hpool, he, mbufferGet_principal hj] at hget
  rw [he, Option.some.inj hget]

/-- An mbuffer that is free or holds a stored message is nobody's. -/
theorem unattached (h : Owned F s)
    (hk : (s.mbuffers k).resource.used = false ∨ (s.mbuffers k).resource.busy = true) :
    (∀ ap, (s.ports ap).mbufferid ≠ k) ∧ ∀ a, s.lent a ≠ some k := by
  constructor
  · intro ap he
    obtain ⟨j, -, hj, -, hu, hb⟩ := h.entry ap (by omega)
    obtain rfl : k = j := by exact_mod_cast he.symm.trans hj
    rcases hk with hk | hk <;> simp_all
  · intro a he
    obtain ⟨hu, hb, -⟩ := h.lent a k he
    rcases hk with hk | hk <;> simp_all

/-- An mbuffer that is nobody's may change in any way. -/
theorem setMbuffer (h : Owned F s) (m : Mbuffer)
    (hk : (s.mbuffers k).resource.used = false ∨ (s.mbuffers k).resource.busy = true) :
    Owned F (s.setMbuffer k m) := by
  obtain ⟨hatt, hlent⟩ := h.unattached hk
  have hne : ∀ ap (j : ℕ), (s.ports ap).mbufferid = j → j ≠ k :=
    fun ap j hj he => hatt ap (he ▸ hj)
  refine ⟨fun ap hap => ?_, h.inj, fun a j hj => ?_⟩
  · obtain ⟨j, hj, he, hpool, hu⟩ := h.entry ap hap
    refine ⟨j, hj, he, hpool, ?_⟩
    simpa [update_of_ne (hne ap j he)] using hu
  · have hjk : j ≠ k := fun he => hlent a (he ▸ hj)
    simpa [update_of_ne hjk] using h.lent a j hj

theorem releaseMbuffer (h : Owned F s) (keep : Bool)
    (hk : (s.mbuffers k).resource.used = false ∨ (s.mbuffers k).resource.busy = true) :
    Owned F (s.releaseMbuffer k keep) := by
  cases keep with
  | false => exact h.setMbuffer _ hk
  | true =>
    have hset := h.setMbuffer
      { s.mbuffers k with age := s.age, resource := { (s.mbuffers k).resource with busy := true } } hk
    exact hset.of_ports_eq rfl (fun _ => rfl) rfl

theorem attach (h : Owned F s) (hk : k < F.mbufferMax)
    (hfree : (s.mbuffers k).resource.used = false) {m : Mbuffer} (hu : m.resource.used = true)
    (hb : m.resource.busy = false) : Owned F ((s.setMbuffer k m).attach ap k) := by
  obtain ⟨hatt, hlent⟩ := h.unattached (.inl hfree)
  have hm := h.setMbuffer m (.inl hfree)
  refine ⟨fun bq hbq => ?_, fun bq cr hbq he => ?_, fun a j hj => ?_⟩
  · by_cases hb' : bq = ap
    · subst hb'
      exact ⟨k, hk, by simp [Phys.attach], by simp [Phys.attach], by simpa [Phys.attach] using hu,
        by simpa [Phys.attach] using hb⟩
    · simp only [Phys.attach, Phys.setPort_ports, update_of_ne hb'] at hbq ⊢
      exact hm.entry bq hbq
  · have hcase : ∀ dr, dr ≠ ap →
        (((s.setMbuffer k m).attach ap k).ports dr).mbufferid = (s.ports dr).mbufferid :=
      fun dr hdr => by simp [Phys.attach, update_of_ne hdr]
    have hself : (((s.setMbuffer k m).attach ap k).ports ap).mbufferid = k := by simp [Phys.attach]
    by_cases hb' : bq = ap <;> by_cases hc : cr = ap
    · rw [hb', hc]
    · subst hb'
      rw [hself, hcase cr hc] at he
      exact absurd he.symm (hatt cr)
    · subst hc
      rw [hself, hcase bq hb'] at he
      exact absurd he (hatt bq)
    · rw [hcase bq hb', hcase cr hc] at he
      rw [hcase bq hb'] at hbq
      exact h.inj bq cr hbq he
  · obtain ⟨hju, hjb, hown⟩ := hm.lent a j hj
    refine ⟨hju, hjb, fun bq he => ?_⟩
    by_cases hb' : bq = ap
    · subst hb'
      obtain rfl : k = j := by simpa [Phys.attach] using he
      exact absurd hj (hlent a)
    · exact hown bq (by simpa [Phys.attach, update_of_ne hb'] using he)

theorem detach (h : Owned F s) (ap : ℕ × ℕ) : Owned F (s.detach ap) := by
  have hself : ((s.detach ap).ports ap).mbufferid = -1 := by simp [Phys.detach]
  have hcase : ∀ bq, bq ≠ ap → (s.detach ap).ports bq = s.ports bq :=
    fun bq hb => by simp [Phys.detach, update_of_ne hb]
  refine ⟨fun bq hbq => ?_, fun bq cr hbq he => ?_, fun a j hj => ?_⟩
  · by_cases hb : bq = ap
    · subst hb; omega
    · rw [hcase bq hb] at hbq ⊢
      exact h.entry bq hbq
  · by_cases hb : bq = ap
    · subst hb; omega
    · by_cases hc : cr = ap
      · subst hc; omega
      · rw [hcase bq hb] at hbq he
        rw [hcase cr hc] at he
        exact h.inj bq cr hbq he
  · obtain ⟨hu, hb, hown⟩ := h.lent a j hj
    refine ⟨hu, hb, fun bq he => ?_⟩
    by_cases hb : bq = ap
    · subst hb; omega
    · rw [hcase bq hb] at he
      exact hown bq he

theorem lend (h : Owned F s) (hatt : (s.ports (a, p)).mbufferid = k) (l : UInt64) :
    Owned F (s.lend a k l) := by
  have hres : ∀ j, ((s.lend a k l).mbuffers j).resource = (s.mbuffers j).resource := by
    intro j
    by_cases hj : j = k
    · subst hj; simp [Phys.lend]
    · simp [Phys.lend, update_of_ne hj]
  obtain ⟨j, -, hj, -, hu, hb⟩ := h.entry (a, p) (by omega)
  obtain rfl : k = j := by exact_mod_cast hatt.symm.trans hj
  refine ⟨fun ap hap => ?_, h.inj, fun b i hi => ?_⟩
  · obtain ⟨i, hi, he, hpool, hiu⟩ := h.entry ap hap
    exact ⟨i, hi, he, hpool, by rw [hres]; exact hiu⟩
  · rw [hres]
    by_cases hba : b = a
    · subst hba
      obtain rfl : k = i := by simpa [Phys.lend] using hi
      refine ⟨hu, hb, fun ap he => ?_⟩
      rw [h.inj ap (b, p) (by rw [show (s.ports ap).mbufferid = k from he]; omega)
        (he.trans hatt.symm)]
    · exact h.lent b i (by simpa [Phys.lend, update_of_ne hba] using hi)

/-- The hardware gives an mbuffer back: it leaves its port and may then change. -/
theorem settle (h : Owned F s) (hatt : (s.ports (a, p)).mbufferid = k) {u : Phys}
    (hport : ∀ bq, (u.ports bq).mbufferid = (s.ports bq).mbufferid ∧
      (u.ports bq).mbufferpool = (s.ports bq).mbufferpool)
    (hlent : u.lent = s.lent)
    (hres : ∀ j ≠ k, (u.mbuffers j).resource = (s.mbuffers j).resource) :
    Owned F (u.settle a p) := by
  have hself : ((u.settle a p).ports (a, p)).mbufferid = -1 := by
    simp [Phys.settle, Phys.detach]
  have hcase : ∀ bq, bq ≠ (a, p) → (u.settle a p).ports bq = u.ports bq := by
    intro bq hb
    simp [Phys.settle, Phys.detach, update_of_ne hb]
  have hne : ∀ bq (j : ℕ), bq ≠ (a, p) → (s.ports bq).mbufferid = j → j ≠ k := by
    rintro bq j hb hj rfl
    exact hb (h.inj bq (a, p) (by omega) (hj.trans hatt.symm))
  refine ⟨fun bq hbq => ?_, fun bq cr hbq he => ?_, fun b j hj => ?_⟩
  · by_cases hb : bq = (a, p)
    · subst hb; omega
    · rw [hcase bq hb, (hport bq).1] at hbq ⊢
      obtain ⟨j, hj, he, hpool, hu⟩ := h.entry bq hbq
      refine ⟨j, hj, he, (hport bq).2.trans hpool, ?_⟩
      change (u.mbuffers j).resource.used = true ∧ (u.mbuffers j).resource.busy = false
      rw [hres j (hne bq j hb he)]
      exact hu
  · by_cases hb : bq = (a, p)
    · subst hb; omega
    · by_cases hc : cr = (a, p)
      · subst hc; omega
      · rw [hcase bq hb, (hport bq).1] at hbq he
        rw [hcase cr hc, (hport cr).1] at he
        exact h.inj bq cr hbq he
  · -- the loan of `a` is over, and no other active has lent an mbuffer of its ports
    by_cases hba : b = a
    · subst hba; simp [Phys.settle] at hj
    · have hj' : s.lent b = some j := by
        simpa [Phys.settle, Phys.detach, update_of_ne hba, hlent] using hj
      obtain ⟨hu, hb, hown⟩ := h.lent b j hj'
      have hjk : j ≠ k := fun he => hba (hown (a, p) (by rw [hatt, he])).symm
      change (u.mbuffers j).resource.used = true ∧ (u.mbuffers j).resource.busy = false ∧ _
      rw [hres j hjk]
      refine ⟨hu, hb, fun bq he => ?_⟩
      by_cases hbq : bq = (a, p)
      · subst hbq; omega
      · rw [hcase bq hbq, (hport bq).1] at he
        exact hown bq he

/-! ### The calls -/

theorem register (h : Owned F s) : Owned F (s.register a p) :=
  h.congr (fun bq => by simp) (fun _ => rfl) rfl

theorem clearSender (h : Owned F s) {m : Mbuffer} (hc : clearSender F s m = some t) :
    Owned F t := by
  unfold Noc.clearSender at hc
  split at hc
  · split at hc
    · cases hc
      exact h.congr (fun bq => by simp) (fun _ => rfl) rfl
    · cases hc
  · cases hc; exact h

theorem alloc (h : Owned F s) {loc rem portid : ℤ} {ty : CommType} {x : Except Err ℤ}
    (ho : AllocOutcome F s loc rem portid ty x t) : Owned F t := by
  cases ho with
  | refused e => exact h
  | opened ha hm hp hin hfree =>
    exact h.congr (fun bq => by simp) (fun _ => rfl) rfl

theorem release (h : Owned F s) {x : Except Err Unit} (ho : ReleaseOutcome F s a p x t) :
    Owned F t := by
  cases ho with
  | refused e => exact h
  | closed hact hport hempty =>
    exact h.congr (fun bq => by simp) (fun _ => rfl) rfl

theorem aread (h : Owned F s) (ho : AreadOutcome F s a p cfg env ans t) : Owned F t := by
  have hallow : Owned F (s.allow a (getActid F cfg.remoteAddr)) :=
    h.of_ports_eq rfl (fun _ => rfl) rfl
  cases ho with
  | refused e => exact h
  | stored i hport hfound hclear =>
    have hc := (mbufferSearch_some hfound).2.1
    simp only [candidate, Bool.and_eq_true] at hc
    refine (h.clearSender hclear).releaseMbuffer false (.inr ?_)
    rw [(clearSender_mbuffers hclear).1]
    exact hc.1.1.2
  | exhausted hidle => exact hallow
  | failed k hidle hk hfree =>
    -- the mbuffer comes and goes, and the port ends without one
    have hset := hallow.setMbuffer (k := k)
      ((s.mbuffers k).allocated.discarded) (.inl hfree)
    refine (hset.detach (a, p)).congr (fun bq => ?_) (fun j => ?_) rfl
    · by_cases hb : bq = (a, p)
      · subst hb; simp [Phys.detach, Phys.attach]
      · simp [Phys.detach, Phys.attach, Phys.allocate, Phys.releaseMbuffer,
          update_of_ne hb]
    · by_cases hj : j = k
      · subst hj; simp [Phys.detach, Phys.attach, Phys.allocate, Phys.releaseMbuffer, Phys.allow]
      · simp [Phys.detach, Phys.attach, Phys.allocate, Phys.releaseMbuffer, Phys.allow,
          update_of_ne hj]
  | submitted k hport hidle hk hfree l =>
    have hatt : Owned F (((s.allow a (getActid F cfg.remoteAddr)).allocate k).attach (a, p) k) :=
      hallow.attach hk hfree rfl rfl
    have hdis : Owned F ((((s.allow a (getActid F cfg.remoteAddr)).allocate k).attach (a, p)
        k).disallow a) := hatt.of_ports_eq rfl (fun _ => rfl) rfl
    exact hdis.lend (p := p) (by simp [Phys.disallow, Phys.attach]) l

theorem registered (h : Owned F s) (hr : Registered s a p t) : Owned F t := by
  cases hr with
  | already hreq => exact h
  | now hreq hroom => exact h.register

theorem submit (h : Owned F s) (hatt : (s.ports (a, p)).mbufferid = k)
    (ho : SubmitOutcome s a p k ans t) : Owned F t := by
  cases ho with
  | full hreq hfull => exact h
  | waiting hreg e => exact h.registered hreg
  | sent hreg hturn hidle l =>
    exact (h.registered hreg).lend (p := p) (by rw [hreg.mbufferid]; exact hatt) l

theorem awrite (h : Owned F s) (ho : AwriteOutcome F s a p cfg env ans t) : Owned F t := by
  cases ho with
  | refused e => exact h
  | starved hport hdet hlocal hreq hroom => exact h.register
  | forwarded k hport hdet hlocal hreq hroom hlow hk hfree =>
    have hset := (h.register (a := a) (p := p)).setMbuffer (k := k)
      { forwardedMbuffer F s a p k cfg env with
        age := s.age, resource := { used := true, busy := true } } (.inl hfree)
    refine hset.of_ports_eq rfl (fun j => ?_) rfl
    by_cases hj : j = k
    · subst hj
      simp [Phys.releaseMbuffer, forwardedMbuffer, Mbuffer.filled, Mbuffer.allocated]
    · simp [Phys.releaseMbuffer, update_of_ne hj]
  | fresh k hport hremote hdet hk hfree hsub =>
    exact (h.attach hk hfree rfl rfl).submit (by simp [Phys.attach]) hsub
  | retried k hport hatt hget hsub => exact h.submit (h.entry_eq hatt hget) hsub

theorem hwWait (h : Owned F s) : Owned F (hwWait s a env) := by
  refine h.of_ports_eq hwWait_ports (fun j => ?_) hwWait_lent
  unfold Noc.hwWait
  split
  · rename_i k hk
    split
    · by_cases hj : j = k
      · subst hj; simp
      · simp [update_of_ne hj]
    · rfl
  · rfl

/-- Completing a wait on the port that owns `k`. -/
theorem wait (h : Owned F s) {ret : ℤ} (hatt : (s.ports (a, p)).mbufferid = k)
    (ho : WaitOutcome F s a p k ret cfg ans t) : Owned F t := by
  have hlat : ∀ l keep, Owned F (((s.addLatency k l).dropMbuffer k keep).settle a p) :=
    fun l keep => h.settle hatt (fun bq => by simp [Phys.addLatency])
      (by simp [Phys.addLatency])
      (fun j hj => by rw [dropMbuffer_of_ne hj]; simp [Phys.addLatency, update_of_ne hj])
  cases ho with
  | failed hret =>
    exact h.settle hatt (fun bq => by simp) (by simp) fun j hj => by rw [dropMbuffer_of_ne hj]
  | consumed hret hread hcheck l l' => exact hlat l false
  | ignored hret hread hcheck keep hkeep l => exact hlat l keep
  | written hret hwrite hturn l =>
    refine h.settle hatt (fun bq => ?_) (by simp [Phys.addLatency]) fun j hj => ?_
    · simp [Phys.addLatency]
    · rw [dropMbuffer_of_ne hj]
      simp [Phys.addLatency, update_of_ne hj]
  | plain hret hread hwrite l => exact hlat l false

/-- A wait that passes its first section is on the port that owns the mbuffer. -/
theorem wait_entry (h : Owned F s) {id mbufferid : ℤ}
    (hcheck : waitCheck F s id = some (.ok mbufferid))
    (hget : mbufferGet F (s.ports (portOf F id)).mbufferpool mbufferid = some k) :
    (s.ports (portOf F id)).mbufferid = k := by
  obtain ⟨-, -, -, rfl, hnn, -⟩ := waitCheck_ok hcheck
  exact h.entry_eq hnn hget

theorem step {c : Call} {r : Reply} (hc : calls F s c r t) (h : Owned F s) : Owned F t := by
  cases c with
  | alloc loc rem portid ty =>
    obtain ⟨x, -, ho⟩ := calls_alloc hc
    exact h.alloc ho
  | release id =>
    obtain ⟨x, -, -, ho⟩ := calls_release hc
    exact h.release ho
  | aread id cfg env =>
    obtain ⟨ans, -, -, ho⟩ := calls_aread hc
    exact h.aread ho
  | awrite id cfg env =>
    obtain ⟨ans, -, -, ho⟩ := calls_awrite hc
    exact h.awrite ho
  | wait id cfg env =>
    rcases calls_wait hc with rfl | ⟨ans, k, mbufferid, -, hcheck, hget, ho⟩
    · exact h
    · exact h.hwWait.wait (by simpa using h.wait_entry hcheck hget) ho

end Owned

theorem owned_boot (hb : Boot F s) : Owned F s := by
  obtain ⟨hwfd, c, rfl⟩ := hb.eq_bootState
  exact ⟨fun ap h => absurd h (by simp [bootState, tableInit]),
    fun ap bq h => absurd h (by simp [bootState, tableInit]),
    fun a k h => absurd h (by simp [bootState, tableInit])⟩

end Nanvix.Noc
