import Nanvix.Noc.Flight

/-! Where the output actives point. The remote of an output active never changes, and the ports
of an active to the node itself never have an mbuffer attached: its messages are stored in the
auxiliary pool and not lent to the hardware. This holds however the waits interleave. -/

namespace Nanvix.Noc

open Nanvix.Lib

variable {F : Facility} {s t u : Phys} {a p k : ℕ} {cfg : Config} {env : Env} {ans : Answer}

theorem clearSender_remote {m : Mbuffer} (h : clearSender F s m = some t) (b : ℕ) :
    (t.actives b).remote = (s.actives b).remote := by
  unfold clearSender at h
  split at h
  · split at h
    · cases h
      simp
    · cases h
  · cases h
    rfl

/-- A change that keeps the remotes of the output actives and attaches nothing to the ports of
those to the node itself. -/
structure KeepsAim (F : Facility) (s t : Phys) : Prop where
  remote : ∀ b, b ≠ 0 → (t.actives b).remote = (s.actives b).remote
  detached : ∀ b q, Forward F b → (s.ports (b, q)).mbufferid < 0 → (t.ports (b, q)).mbufferid < 0

namespace KeepsAim

theorem refl (s : Phys) : KeepsAim F s s := ⟨fun _ _ => rfl, fun _ _ _ h => h⟩

theorem trans (h₁ : KeepsAim F s t) (h₂ : KeepsAim F t u) : KeepsAim F s u :=
  ⟨fun b hb => (h₂.remote b hb).trans (h₁.remote b hb),
    fun b q hf h => h₂.detached b q hf (h₁.detached b q hf h)⟩

theorem congr (hrem : ∀ b, (t.actives b).remote = (s.actives b).remote)
    (hport : ∀ bq, (t.ports bq).mbufferid = (s.ports bq).mbufferid) : KeepsAim F s t :=
  ⟨fun b _ => hrem b, fun b q _ h => by rw [hport]; exact h⟩

theorem attach (ha : ¬ Forward F a) : KeepsAim F s (s.attach (a, p) k) := by
  refine ⟨fun _ _ => rfl, fun b q hf h => ?_⟩
  have hne : (b, q) ≠ (a, p) := by
    rintro ⟨⟩
    exact ha hf
  simpa [Phys.attach, Function.update_of_ne hne] using h

theorem detach (ap : ℕ × ℕ) : KeepsAim F s (s.detach ap) := by
  refine ⟨fun _ _ => rfl, fun b q hf h => ?_⟩
  by_cases hne : (b, q) = ap
  · simp [Phys.detach, hne]
  · simpa [Phys.detach, Function.update_of_ne hne] using h

theorem settle (a p : ℕ) : KeepsAim F s (s.settle a p) :=
  (detach (a, p)).trans
    (.congr (setActive_frame (s := s.detach (a, p)) (·.remote) rfl) fun _ => rfl)

theorem lend (a k : ℕ) (l : UInt64) : KeepsAim F s (s.lend a k l) :=
  .congr (setActive_frame (s := s) (·.remote) rfl) fun _ => rfl

theorem aread (ho : AreadOutcome F s 0 p cfg env ans t) : KeepsAim F s t := by
  have hallow : ∀ rem, KeepsAim F s (s.allow 0 rem) := fun rem =>
    ⟨fun b hb => allow_remote rem hb, fun _ _ _ h => h⟩
  have hattached : ∀ rem k, KeepsAim F s (((s.allow 0 rem).allocate k).attach (0, p) k) := fun rem k =>
    ((hallow rem).trans (u := (s.allow 0 rem).allocate k) (.congr (fun _ => rfl) fun _ => rfl)).trans
      (.attach not_forward_zero)
  cases ho with
  | refused e => exact .refl s
  | stored i hport hfound hclear =>
    exact .congr (by simpa using clearSender_remote hclear) (by simpa using clearSender_mbufferid hclear)
  | exhausted hidle => exact hallow _
  | failed k hidle hk hfree =>
    exact ((hattached (getActid F cfg.remoteAddr) k).trans (.congr (by simp) (by simp))).trans (.detach _)
  | submitted k hport hidle hk hfree l =>
    have hdis : ∀ v : Phys, KeepsAim F v (v.disallow 0) := fun v =>
      ⟨fun b hb => disallow_remote hb, fun _ _ _ h => h⟩
    exact ((hattached _ k).trans (hdis _)).trans (.lend 0 k l)

theorem registered (hr : Registered s a p t) : KeepsAim F s t := by
  cases hr with
  | already => exact .refl s
  | now => exact .congr (by simp) (by simp)

theorem submit (ho : SubmitOutcome s a p k ans t) : KeepsAim F s t := by
  cases ho with
  | full => exact .refl s
  | waiting hreg => exact .registered hreg
  | sent hreg hturn hidle l => exact (registered hreg).trans (.lend a k l)

theorem awrite (hrem : (s.actives a).remote = remoteOf F a)
    (ho : AwriteOutcome F s a p cfg env ans t) : KeepsAim F s t := by
  cases ho with
  | refused e => exact .refl s
  | starved => exact .congr (by simp) (by simp)
  | forwarded => exact .congr (by simp) (by simp)
  | fresh k hport hremote hdet hk hfree hsub =>
    have hnot : ¬ Forward F a := by
      intro hf
      rw [hrem, hf.2] at hremote
      cases hremote
    have hprep : KeepsAim F s (s.prepare F a p k cfg env) :=
      trans (t := s.setMbuffer k _) (.congr (fun _ => rfl) fun _ => rfl) (.attach hnot)
    exact hprep.trans (.submit hsub)
  | retried k hport hatt hget hsub => exact .submit hsub

theorem wait {ret : ℤ} (ho : WaitOutcome F s a p k ret cfg ans t) : KeepsAim F s t := by
  cases ho with
  | failed | consumed | ignored | written | plain =>
    exact trans (.congr (by simp) (by simp)) (.settle a p)

end KeepsAim

/-- What the writes to the node itself rely on, whatever the waits do. -/
structure Aimed (F : Facility) (s : State) : Prop where
  dispatched : Dispatched s
  remote : ∀ a, a ≠ 0 → (s.phys.actives a).remote = remoteOf F a
  detached : ∀ a p, Forward F a → (s.phys.ports (a, p)).mbufferid < 0

theorem Aimed.keep {s t : State} (h : Aimed F s) (hd : Dispatched t) (hk : KeepsAim F s.phys t.phys) :
    Aimed F t where
  dispatched := hd
  remote a ha := (hk.remote a ha).trans (h.remote a ha)
  detached a p hf := hk.detached a p hf (h.detached a p hf)

/-- The call that `communicator_operate` makes. -/
theorem Aimed.operate {s : State} {ty : CommType} {c : ℕ} {ph : Phys} (h : Aimed F s)
    (hacc : Accounts F s) (hpc : s.master = .operating ty c)
    (hused : (s.comms c).resource.used = true) (hfits : (s.comms c).fits ty = true)
    (ho : CommOutcome F s (s.comms c).config env s.doComm ans ph) : KeepsAim F s.phys ph := by
  obtain ⟨-, ty', a, p, hfits', hb, -⟩ := hacc.comm c hused
  obtain rfl := fits_unique hfits hfits'
  have hdo : s.doComm = ty := h.dispatched.eq hpc
  rw [hdo] at ho
  cases ho with
  | aread hv ho =>
    rw [hb.portOf_eq] at ho
    obtain rfl := hb.input_iff.mp rfl
    exact .aread ho
  | awrite hv ho =>
    rw [hb.portOf_eq] at ho
    refine .awrite (h.remote a fun h0 => ?_) ho
    cases hb.input_iff.mpr h0

theorem Aimed.step {s t : State} {act : Act} {o : Out} (hs : steps F s act o t) (hacc : Accounts F s)
    (h : Aimed F s) : Aimed F t := by
  have hop : ∀ {ty c env ans ph}, s.master = .operating ty c → (s.comms c).resource.used = true →
      (s.comms c).fits ty = true → CommOutcome F s (s.comms c).config env s.doComm ans ph →
      KeepsAim F s.phys ph := h.operate hacc
  cases steps_cases hs with
  | quiet => exact h
  | opened hidle hcall hlocal hport hrem ho =>
    cases ho
    exact h.keep trivial (.congr (by simp) (by simp))
  | allocated | exhausted | counted => exact h.keep trivial (.refl _)
  | rolledBack env hpc hv ho =>
    cases ho
    exact h.keep trivial (.congr (by simp) (by simp))
  | freed hidle hcall hid hused hfits hbusy hv ho =>
    cases ho
    exact h.keep h.dispatched (.congr (by simp) (by simp))
  | noted hidle hcall hid hsize hmax hpc =>
    refine h.keep ?_ (.refl _)
    rcases hpc with rfl | ⟨rfl, rfl, -⟩ <;> rfl
  | allowed env hpc =>
    refine h.keep ?_ (.refl _)
    have := h.dispatched
    rwa [Dispatched, hpc] at this
  | denied => exact h.keep trivial (.refl _)
  | failed hpc hused hfits hbusy ho hret => exact h.keep trivial (hop hpc hused hfits ho)
  | operated hpc hused hfits hbusy ho hret => exact h.keep trivial (hop hpc hused hfits ho)
  | woken env hpc => exact h.keep h.dispatched (.congr (by simp) (by simp))
  | completed env hpc hget ho => exact h.keep h.dispatched (.wait ho)
  | granted | remoteSet | checked | collected | rejected | entered | left | succeeded | reset =>
    exact h.keep h.dispatched (.refl _)

theorem aimed_runs {tr : List (Event State Act Out)} {s : State} (h : Runs F tr s) : Aimed F s := by
  obtain ⟨s₀, h₀, hrun⟩ := h
  have hinit : Accounts F s₀ ∧ Aimed F s₀ := by
    refine ⟨accounts_runs ⟨s₀, h₀, .nil⟩, ?_⟩
    obtain ⟨ph, hb, rfl⟩ := h₀
    exact ⟨trivial, (wired_boot hb).remote, (wired_boot hb).forward⟩
  exact (hrun.invariant (P := fun _ => True) (I := fun s => Accounts F s ∧ Aimed F s) hinit
    (fun _ _ => trivial) fun e hs _ hi => ⟨hi.1.step hs, hi.2.step hs hi.1⟩).2

end Nanvix.Noc
