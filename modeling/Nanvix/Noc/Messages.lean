import Nanvix.Noc.Ownership

/-! The messages in the mbuffers, whether stored or not, and what the calls do to
them. A read clears entries that are free or stored, a write fills a free one, the
hardware fills the one it was lent, and a wait clears the one it gets back. -/

namespace Nanvix.Noc

open Function

/-- In use, and not for a stored message. -/
def Mbuffer.held (m : Mbuffer) : Bool := m.resource.used && !m.resource.busy

variable {F : Facility} {s t : Phys} {a p k : ℕ} {cfg : Config} {env : Env} {ans : Answer}

theorem Owned.held_of_lent (h : Owned F s) (hk : s.lent a = some k) : (s.mbuffers k).held = true := by
  obtain ⟨hused, hbusy, -⟩ := h.lent a k hk
  simp [Mbuffer.held, hused, hbusy]

theorem Owned.held_of_attached (h : Owned F s) {ap : ℕ × ℕ} (hk : (s.ports ap).mbufferid = k) :
    (s.mbuffers k).held = true := by
  obtain ⟨j, -, hj, -, hused, hbusy⟩ := h.entry ap (by omega)
  obtain rfl : k = j := by omega
  simp [Mbuffer.held, hused, hbusy]

theorem not_held_of_unused {m : Mbuffer} (h : m.resource.used = false) : m.held = false := by
  simp [Mbuffer.held, h]

theorem setMbuffer_message {m : Mbuffer} (j : ℕ) :
    ((s.setMbuffer k m).mbuffers j).message = if j = k then m.message else (s.mbuffers j).message := by
  by_cases hj : j = k
  · subst hj; simp
  · simp [hj]

theorem AreadOutcome.message (ho : AreadOutcome F s a p cfg env ans t) (j : ℕ) :
    (t.mbuffers j).message = (s.mbuffers j).message ∨
      ((s.mbuffers j).held = false ∧ (t.mbuffers j).message.header = {}) := by
  have hset : ∀ {k : ℕ} {m : Mbuffer}, (s.mbuffers k).held = false → m.message.header = {} →
      (t.mbuffers j).message = ((s.setMbuffer k m).mbuffers j).message →
      (t.mbuffers j).message = (s.mbuffers j).message ∨
        ((s.mbuffers j).held = false ∧ (t.mbuffers j).message.header = {}) := by
    intro k m hk hm ht
    rw [ht, setMbuffer_message]
    by_cases hj : j = k
    · subst hj
      exact .inr ⟨hk, by simpa using hm⟩
    · exact .inl (if_neg hj)
  cases ho with
  | refused e => exact .inl rfl
  | exhausted hidle => exact .inl rfl
  | failed k hidle hk hfree =>
    refine hset (k := k) (m := (s.mbuffers k).allocated.discarded) (not_held_of_unused hfree) rfl ?_
    by_cases hj : j = k <;> simp [hj, Phys.detach, Phys.releaseMbuffer, Phys.attach, Phys.allocate,
      Phys.allow]
  | submitted k hport hidle hk hfree l =>
    refine hset (k := k) (m := (s.mbuffers k).allocated) (not_held_of_unused hfree) rfl ?_
    by_cases hj : j = k <;> simp [hj, Phys.lend, Phys.disallow, Phys.attach, Phys.allocate, Phys.allow]
  | @stored i u hport hfound hclear =>
    obtain ⟨hmb, -⟩ := clearSender_mbuffers hclear
    obtain ⟨-, hc, -⟩ := mbufferSearch_some hfound
    simp only [candidate, Bool.and_eq_true] at hc
    set k := (readPool F cfg.remoteAddr).base F + i
    refine hset (k := k) (m := (s.mbuffers k).discarded) (by simp [Mbuffer.held, hc.1.1.2]) rfl ?_
    by_cases hj : j = k <;> simp [hj, Phys.releaseMbuffer, hmb]

theorem SubmitOutcome.message (ho : SubmitOutcome s a p k ans t) (j : ℕ) :
    (t.mbuffers j).message = (s.mbuffers j).message ∧
      (t.mbuffers j).resource = (s.mbuffers j).resource := by
  cases ho with
  | full hreq hfull => exact ⟨rfl, rfl⟩
  | waiting hr e => rw [hr.mbuffers]; exact ⟨rfl, rfl⟩
  | sent hr hturn hidle l =>
    by_cases hj : j = k <;> simp [hj, Phys.lend, hr.mbuffers]

/-- A write changes at most one message, in an entry that it takes into use. -/
theorem AwriteOutcome.message (ho : AwriteOutcome F s a p cfg env ans t) (j : ℕ) :
    ((t.mbuffers j).message = (s.mbuffers j).message ∧
        (t.mbuffers j).resource.used = (s.mbuffers j).resource.used) ∨
      ((s.mbuffers j).resource.used = false ∧ (t.mbuffers j).resource.used = true ∧
        readMem env.mem cfg.buffer cfg.size <+: (t.mbuffers j).message.data) := by
  cases ho with
  | refused e => exact .inl ⟨rfl, rfl⟩
  | starved => exact .inl ⟨rfl, rfl⟩
  | forwarded k hport hdet hlocal hreq hroom hlow hk hfree =>
    by_cases hj : j = k
    · subst hj
      refine .inr ⟨hfree, ?_, ?_⟩
      · simp [Phys.releaseMbuffer, forwardedMbuffer, Mbuffer.filled, Mbuffer.allocated]
      · simp [Phys.releaseMbuffer, forwardedMbuffer, Mbuffer.filled]
    · exact .inl (by simp [Phys.releaseMbuffer, update_of_ne hj])
  | fresh k hport hremote hdet hk hfree hsub =>
    obtain ⟨hmsg, hres⟩ := hsub.message j
    rw [hmsg, hres]
    by_cases hj : j = k
    · subst hj
      refine .inr ⟨hfree, ?_, ?_⟩ <;> simp [Phys.prepare, Phys.attach, Mbuffer.filled, Mbuffer.allocated]
    · exact .inl (by simp [Phys.prepare, Phys.attach, update_of_ne hj])
  | retried k hport hatt hget hsub =>
    obtain ⟨hmsg, hres⟩ := hsub.message j
    exact .inl ⟨hmsg, by rw [hres]⟩

theorem hwWait_message (s : Phys) (a : ℕ) (env : Env) (j : ℕ) :
    ((hwWait s a env).mbuffers j).message =
      if s.lent a = some j ∧ (s.actives a).resource.isReadable = true ∧ env.hwRet = 0 then env.arrived
      else (s.mbuffers j).message := by
  unfold hwWait
  cases hk : s.lent a with
  | none => simp
  | some k =>
    dsimp only
    by_cases hc : (s.actives a).resource.isReadable = true ∧ env.hwRet = 0
    · rw [if_pos hc, setMbuffer_message]
      by_cases hj : j = k
      · subst hj; simp [hc]
      · have hne : ¬ k = j := fun h => hj h.symm
        simp [hj, hne]
    · simp [hc]

theorem dropMbuffer_message (keep : Bool) (j : ℕ) :
    ((s.dropMbuffer k keep).mbuffers j).message = (s.mbuffers j).message ∨
      (j = k ∧ keep = false ∧ ((s.dropMbuffer k keep).mbuffers j).message.header = {}) := by
  unfold Phys.dropMbuffer
  split
  · cases keep with
    | true =>
      left
      unfold Phys.releaseMbuffer
      exact setMbuffer_frame (·.message) (by rfl) j
    | false =>
      by_cases hj : j = k
      · subst hj
        exact .inr ⟨rfl, rfl, by simp [Phys.releaseMbuffer, Mbuffer.discarded, Message.reset]⟩
      · exact .inl (by simp [Phys.releaseMbuffer, update_of_ne hj])
  · exact .inl rfl

/-- A wait changes at most the message of its own entry, by clearing it. -/
theorem WaitOutcome.message {ret : ℤ} (ho : WaitOutcome F s a p k ret cfg ans t) (j : ℕ) :
    (t.mbuffers j).message = (s.mbuffers j).message ∨
      (j = k ∧ (t.mbuffers j).message.header = {}) := by
  have hlat : ∀ l, ((s.addLatency k l).mbuffers j).message = (s.mbuffers j).message := by
    intro l
    unfold Phys.addLatency
    exact setMbuffer_frame (·.message) (by rfl) j
  have hdrop : ∀ (u : Phys) keep, (u.mbuffers j).message = (s.mbuffers j).message →
      ((u.dropMbuffer k keep).mbuffers j).message = (s.mbuffers j).message ∨
        (j = k ∧ ((u.dropMbuffer k keep).mbuffers j).message.header = {}) := by
    intro u keep hu
    rcases dropMbuffer_message (s := u) (k := k) keep j with hsame | ⟨hj, -, hclear⟩
    · exact .inl (hsame.trans hu)
    · exact .inr ⟨hj, hclear⟩
  cases ho with
  | failed hret => exact hdrop s false rfl
  | consumed hret hread hcheck l l' => exact hdrop _ false (hlat l)
  | ignored hret hread hcheck keep hkeep l => exact hdrop _ keep (hlat l)
  | written hret hwrite hturn l => exact hdrop _ false (hlat l)
  | plain hret hread hwrite l => exact hdrop _ false (hlat l)

end Nanvix.Noc
