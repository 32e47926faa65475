import Nanvix.Noc.Messages

/-! Retried writes. A write through the network that is not accepted leaves its
message in an mbuffer attached to the port, and the next write on that port sends
what it finds there. So a write sends its own message as long as every write on a
port that still holds an mbuffer repeats the write before it. -/

namespace Nanvix.Noc

open Nanvix.Lib Function

structure Written where
  src : ℤ
  dest : ℤ
  bytes : List UInt8

def Written.of (cfg : Config) (env : Env) : Written :=
  ⟨cfg.localAddr, cfg.remoteAddr, readMem env.mem cfg.buffer cfg.size⟩

def Message.Carries (m : Message) (w : Written) : Prop :=
  m.header.src = w.src ∧ m.header.dest = w.dest ∧ m.data.take w.bytes.length = w.bytes

/-- A write asks for a part of what an earlier one asked for. -/
def Written.Within (w w' : Written) : Prop :=
  w.src = w'.src ∧ w.dest = w'.dest ∧ w.bytes <+: w'.bytes

variable (F : Facility)

/-- The last write on each port since the port was opened. -/
def noteWrite (g : ℕ × ℕ → Option Written) (e : Event Phys Call Reply) : ℕ × ℕ → Option Written :=
  match e.act, e.out with
  | .alloc .., .fd (.ok id) => update g (portOf F id) none
  | .release id, .done (.ok _) => update g (portOf F id) none
  | .aread id _ _, _ => update g (portOf F id) none
  | .awrite id cfg env, _ => update g (portOf F id) (some (.of cfg env))
  | _, _ => g

/-- A write on a port that holds an mbuffer repeats the last write on the port. -/
def Repeats (g : ℕ × ℕ → Option Written) (e : Event Phys Call Reply) : Prop :=
  ∀ id cfg env, e.act = .awrite id cfg env → 0 ≤ (e.pre.ports (portOf F id)).mbufferid →
    ∃ w, g (portOf F id) = some w ∧ (Written.of cfg env).Within w

/-- An mbuffer attached to an output port carries the last write on that port. -/
def CarriesLast (g : ℕ × ℕ → Option Written) (s : Phys) : Prop :=
  ∀ ap w (k : ℕ), (s.actives ap.1).resource.isWritable = true → g ap = some w →
    (s.ports ap).mbufferid = k → (s.mbuffers k).message.Carries w

/-- The mbuffers attached to the ports other than `ap` stay with their message. -/
def OthersKeep (s t : Phys) (ap : ℕ × ℕ) : Prop :=
  ∀ bq (k : ℕ), bq ≠ ap → (t.ports bq).mbufferid = k →
    (s.ports bq).mbufferid = k ∧ (t.mbuffers k).message = (s.mbuffers k).message

variable {F} {s t : Phys} {a p k : ℕ} {cfg : Config} {env : Env} {ans : Answer}
  {g : ℕ × ℕ → Option Written}

theorem Message.Carries.within {m : Message} {w w' : Written} (h : m.Carries w')
    (hw : w.Within w') : m.Carries w := by
  obtain ⟨hs, hd, hb⟩ := h
  obtain ⟨hs', hd', hp⟩ := hw
  refine ⟨hs.trans hs'.symm, hd.trans hd'.symm, ?_⟩
  calc m.data.take w.bytes.length
      = (m.data.take w'.bytes.length).take w.bytes.length := by
        rw [List.take_take, min_eq_left hp.length_le]
    _ = w'.bytes.take w.bytes.length := by rw [hb]
    _ = w.bytes := (List.prefix_iff_eq_take.mp hp).symm

theorem filled_carries (m : Mbuffer) (l : UInt64) :
    (m.filled F cfg (readMem env.mem cfg.buffer cfg.size) l).message.Carries (.of cfg env) :=
  ⟨headerConfig_src _ _, headerConfig_dest _ _, by simp [Mbuffer.filled, Written.of]⟩

/-! ### Other ports -/

/-- A change of port `ap` and of mbuffers that are nobody's is not felt by others. -/
theorem Owned.othersKeep (h : Owned F s) {ap : ℕ × ℕ}
    (hport : ∀ bq, bq ≠ ap → (t.ports bq).mbufferid = (s.ports bq).mbufferid)
    (hmsg : ∀ j, (t.mbuffers j).message = (s.mbuffers j).message ∨ (s.mbuffers j).held = false) :
    OthersKeep s t ap := by
  intro bq j hb hj
  rw [hport bq hb] at hj
  refine ⟨hj, (hmsg j).resolve_right ?_⟩
  simp [h.held_of_attached hj]

theorem AreadOutcome.othersKeep (h : Owned F s) (ho : AreadOutcome F s a p cfg env ans t) :
    OthersKeep s t (a, p) := by
  refine h.othersKeep (fun bq hb => ?_) fun j => (ho.message j).imp_right And.left
  cases ho with
  | refused e => rfl
  | stored i hport hfound hclear => rw [releaseMbuffer_ports, clearSender_mbufferid hclear]
  | exhausted hidle => rfl
  | failed k hidle hk hfree =>
    simp [Phys.detach, Phys.attach, Phys.allow, Phys.allocate, update_of_ne hb]
  | submitted k hport hidle hk hfree l =>
    simp [Phys.lend, Phys.disallow, Phys.attach, Phys.allow, Phys.allocate, update_of_ne hb]

/-- The second half of a write moves no mbuffer. -/
theorem SubmitOutcome.mbufferid (ho : SubmitOutcome s a p k ans t) (bq : ℕ × ℕ) :
    (t.ports bq).mbufferid = (s.ports bq).mbufferid := by
  cases ho with
  | full hreq hfull => rfl
  | waiting hreg e => exact hreg.mbufferid bq
  | sent hreg hturn hidle l => exact hreg.mbufferid bq

theorem AwriteOutcome.othersKeep (h : Owned F s) (ho : AwriteOutcome F s a p cfg env ans t) :
    OthersKeep s t (a, p) := by
  refine h.othersKeep (fun bq hb => ?_) fun j =>
    (ho.message j).imp And.left fun hfresh => not_held_of_unused hfresh.1
  cases ho with
  | refused e => rfl
  | starved hport hdet hlocal hreq hroom => simp
  | forwarded k hport hdet hlocal hreq hroom hlow hk hfree => simp
  | fresh k hport hremote hdet hk hfree hsub =>
    rw [hsub.mbufferid]
    simp [Phys.prepare, Phys.attach, update_of_ne hb]
  | retried k hport hatt hget hsub => exact hsub.mbufferid bq

/-- Completing a wait on the port that owns `k` leaves the others with their message. -/
theorem WaitOutcome.othersKeep (h : Owned F s) (hatt : (s.ports (a, p)).mbufferid = k) {ret : ℤ}
    (ho : WaitOutcome F s a p k ret cfg ans t) :
    (t.ports (a, p)).mbufferid = -1 ∧ OthersKeep s t (a, p) := by
  have hset : ∀ u : Phys, (∀ bq, (u.ports bq).mbufferid = (s.ports bq).mbufferid) →
      ((u.settle a p).ports (a, p)).mbufferid = -1 ∧
        ∀ bq, bq ≠ (a, p) → ((u.settle a p).ports bq).mbufferid = (s.ports bq).mbufferid := by
    intro u hport
    refine ⟨by simp [Phys.settle, Phys.detach], fun bq hb => ?_⟩
    rw [← hport]
    simp [Phys.settle, Phys.detach, update_of_ne hb]
  have hports : (t.ports (a, p)).mbufferid = -1 ∧
      ∀ bq, bq ≠ (a, p) → (t.ports bq).mbufferid = (s.ports bq).mbufferid := by
    cases ho <;> exact hset _ (by simp [Phys.addLatency])
  refine ⟨hports.1, fun bq j hb hj => ?_⟩
  rw [hports.2 bq hb] at hj
  refine ⟨hj, (ho.message j).resolve_right ?_⟩
  rintro ⟨rfl, -⟩
  exact hb (h.inj bq (a, p) (by omega) (hj.trans hatt.symm))

/-- A received message is written into an mbuffer of an input port. -/
theorem Owned.message_of_hwWait (h : Owned F s) {bq : ℕ × ℕ}
    (hw : (s.actives bq.1).resource.isWritable = true) (hk : (s.ports bq).mbufferid = k) :
    ((Noc.hwWait s a env).mbuffers k).message = (s.mbuffers k).message := by
  rw [hwWait_message, if_neg]
  rintro ⟨hlent, hread, -⟩
  rw [(h.lent a k hlent).2.2 bq hk] at hw
  simp_all [Resource.isWritable, Resource.isReadable]

/-- The second half of a write sends the message of the mbuffer it is given, if any. -/
theorem SubmitOutcome.sent_message (ho : SubmitOutcome s a p k ans t) :
    (∀ m, ans.sent = some m → m = (s.mbuffers k).message) ∧
      (ans.ret = .ok .success → ∃ m, ans.sent = some m) := by
  cases ho with
  | full | waiting => exact ⟨fun m hm => by simp at hm, fun hs => by cases hs⟩
  | sent hreg hturn hidle l => exact ⟨fun m hm => by cases hm; rfl, fun _ => ⟨_, rfl⟩⟩

/-- What a write leaves in its port or sends is the message that it finds there or a new one. -/
theorem AwriteOutcome.attached {P : Message → Prop} (hown : Owned F s)
    (ho : AwriteOutcome F s a p cfg env ans t)
    (hnew : ∀ (m : Mbuffer) l, P (m.filled F cfg (readMem env.mem cfg.buffer cfg.size) l).message)
    (hlast : ∀ k : ℕ, (s.ports (a, p)).mbufferid = k → P (s.mbuffers k).message) :
    (∀ k : ℕ, (t.ports (a, p)).mbufferid = k → P (t.mbuffers k).message) ∧
      (∀ m, ans.sent = some m → P m) ∧ (ans.ret = .ok .success → ∃ m, ans.sent = some m) := by
  have hsub : ∀ {u : Phys} {k : ℕ}, SubmitOutcome u a p k ans t → (u.ports (a, p)).mbufferid = k →
      P (u.mbuffers k).message → (∀ k : ℕ, (t.ports (a, p)).mbufferid = k → P (t.mbuffers k).message) ∧
        (∀ m, ans.sent = some m → P m) ∧ (ans.ret = .ok .success → ∃ m, ans.sent = some m) := by
    intro u k hs hk hP
    obtain ⟨hsent, hsome⟩ := hs.sent_message
    refine ⟨fun j hj => ?_, fun m hm => hsent m hm ▸ hP, hsome⟩
    rw [hs.mbufferid, hk] at hj
    obtain rfl : k = j := by exact_mod_cast hj
    rw [(hs.message _).1]
    exact hP
  cases ho with
  | refused e => exact ⟨hlast, by simp⟩
  | starved hport hdet hlocal hreq hroom =>
    refine ⟨fun k hk => ?_, by simp⟩
    rw [register_mbufferid] at hk
    omega
  | forwarded k hport hdet hlocal hreq hroom hlow hk hfree =>
    refine ⟨fun j hj => ?_, by simp⟩
    rw [releaseMbuffer_ports, Phys.setMbuffer_ports, register_mbufferid] at hj
    omega
  | fresh k hport hremote hdet hk hfree hs =>
    exact hsub hs (by simp [Phys.prepare, Phys.attach]) (by simpa [Phys.prepare] using hnew _ _)
  | retried k hport hatt hget hs =>
    have hk := hown.entry_eq hatt hget
    exact hsub hs hk (hlast k hk)

/-! ### Whole runs -/

/-- Whatever a call does at port `ap`, the other ports still carry their last write. -/
theorem CarriesLast.of_othersKeep (h : CarriesLast g s) {ap : ℕ × ℕ} (x : Option Written)
    (hsetup : ∀ b, (t.actives b).setup = (s.actives b).setup)
    (hother : OthersKeep s t ap)
    (hself : ∀ w k, (s.actives ap.1).resource.isWritable = true → x = some w →
      (t.ports ap).mbufferid = (k : ℕ) → (t.mbuffers k).message.Carries w) :
    CarriesLast (update g ap x) t := by
  intro bq w k hw hg hk
  rw [isWritable_of_setup (hsetup bq.1)] at hw
  by_cases hb : bq = ap
  · subst hb
    exact hself w k hw (by simpa using hg) hk
  · obtain ⟨hk', hm⟩ := hother bq k hb hk
    rw [hm]
    exact h bq w k hw (by simpa [update_of_ne hb] using hg) hk'

/-- The write of a call is carried by the mbuffer that its port has afterwards. -/
theorem AwriteOutcome.carries (hown : Owned F s) (ho : AwriteOutcome F s a p cfg env ans t)
    (hlast : ∀ k : ℕ, (s.ports (a, p)).mbufferid = k →
      (s.mbuffers k).message.Carries (.of cfg env)) :
    (∀ k : ℕ, (t.ports (a, p)).mbufferid = k → (t.mbuffers k).message.Carries (.of cfg env)) ∧
      (ans.ret = .ok .success → ∃ m, ans.sent = some m ∧ m.Carries (.of cfg env)) := by
  obtain ⟨hport, hsent, hsome⟩ := ho.attached (P := fun m => m.Carries (.of cfg env)) hown
    (fun m l => filled_carries m l) hlast
  refine ⟨hport, fun hs => ?_⟩
  obtain ⟨m, hm⟩ := hsome hs
  exact ⟨m, hm, hsent m hm⟩

/-- If the port holds an mbuffer, it carries the write of a call that repeats. -/
theorem CarriesLast.of_repeats (h : CarriesLast g s) {id : ℤ} {out : Reply} {post : Phys}
    (hw : (s.actives (portOf F id).1).resource.isWritable = true)
    (hrep : Repeats F g ⟨s, .awrite id cfg env, out, post⟩) (k : ℕ)
    (hk : (s.ports (portOf F id)).mbufferid = k) : (s.mbuffers k).message.Carries (.of cfg env) := by
  obtain ⟨w, hg, hwithin⟩ := hrep id cfg env rfl (by dsimp only; omega)
  exact (h (portOf F id) w k hw hg hk).within hwithin

/-- One call keeps the mbuffers of the output ports true to the last writes. -/
theorem CarriesLast.step {e : Event Phys Call Reply} (he : calls F e.pre e.act e.out e.post)
    (hrep : Repeats F g e) (hown : Owned F e.pre) (h : CarriesLast g e.pre) :
    CarriesLast (noteWrite F g e) e.post := by
  obtain ⟨pre, act, out, post⟩ := e
  dsimp only at he hown h ⊢
  have hquiet : ∀ {ap : ℕ × ℕ} {u : Phys}, (∀ bq, (u.ports bq).mbufferid = (pre.ports bq).mbufferid) →
      u.mbuffers = pre.mbuffers → OthersKeep pre u ap := by
    intro ap u hp hm bq k _ hk
    exact ⟨by rw [← hp]; exact hk, by rw [hm]⟩
  cases act with
  | alloc loc rem portid ty =>
    obtain ⟨x, rfl, ho⟩ := calls_alloc he
    have hsetup := ho.setup
    cases ho with
    | refused e => exact h
    | opened ha hm hp hin hfree =>
      exact h.of_othersKeep none hsetup (hquiet (by simp) rfl) (by simp)
  | release id =>
    obtain ⟨x, rfl, hv, ho⟩ := calls_release he
    have hsetup := ho.setup
    cases ho with
    | refused e => exact h
    | closed hact hport hempty =>
      exact h.of_othersKeep none hsetup (hquiet (by simp) rfl) (by simp)
  | aread id cfg env =>
    obtain ⟨ans, rfl, hv, ho⟩ := calls_aread he
    exact h.of_othersKeep none ho.setup (ho.othersKeep hown) (by simp)
  | awrite id cfg env =>
    obtain ⟨ans, rfl, hv, ho⟩ := calls_awrite he
    refine h.of_othersKeep _ ho.setup (ho.othersKeep hown) fun w k hw hx hk => ?_
    obtain rfl : Written.of cfg env = w := by simpa using hx
    exact (ho.carries hown (h.of_repeats hw hrep)).1 k hk
  | wait id cfg env =>
    rcases calls_wait he with rfl | ⟨ans, k, mbufferid, rfl, hcheck, hget, ho⟩
    · exact h
    · have hk := hown.wait_entry hcheck hget
      obtain ⟨hdet, hother⟩ := ho.othersKeep hown.hwWait (by simpa using hk)
      intro bq w j hw hg hj
      rw [isWritable_of_setup (ho.setup bq.1), hwWait_actives] at hw
      have hb : bq ≠ ((portOf F id).1, (portOf F id).2) := by
        rintro rfl
        rw [hdet] at hj
        omega
      obtain ⟨hj', hm⟩ := hother bq j hb hj
      rw [hwWait_ports] at hj'
      rw [hm, hown.message_of_hwWait hw hj']
      exact h bq w j hw hg hj'

/-- An accepted write on an output active to another node, and the first byte sent. -/
def sentByte (e : Event Phys Call Reply) : Option UInt8 :=
  match e.out with
  | .comm ⟨.ok .success, _, _, some m⟩ =>
    if (e.pre.actives 2).resource.isWritable && !quadMailbox.nodeIsLocal (e.pre.actives 2).remote
    then m.data.head? else none
  | _ => none

/-- Along every run in which a write on a port that holds an mbuffer repeats the
last write on the port, a write that is accepted has handed its own message to
the hardware. -/
theorem awrite_sends_its_own_message {tr : List (Event Phys Call Reply)} (hb : Boot F s)
    (hrun : Run (calls F) s tr t)
    (hrep : ∀ l e r, tr = l ++ e :: r → Repeats F (l.foldl (noteWrite F) fun _ => none) e) :
    ∀ e ∈ tr, ∀ id cfg env ans, e.act = .awrite id cfg env → e.out = .comm ans →
      (e.pre.actives (portOf F id).1).resource.isWritable = true → ans.ret = .ok .success →
      ∃ m, ans.sent = some m ∧ m.header.src = cfg.localAddr ∧ m.header.dest = cfg.remoteAddr ∧
        m.data.take cfg.size = readMem env.mem cfg.buffer cfg.size := by
  intro e he id cfg env ans hact hout hw hret
  obtain ⟨l, r, rfl⟩ := List.append_of_mem he
  have hinv := hrun.history_at (noteWrite F) (P := Repeats F)
    (J := fun g s => Owned F s ∧ CarriesLast g s) (g := fun _ => none)
    ⟨owned_boot hb, fun ap w k _ hg _ => by cases hg⟩ hrep
    (fun g e hstep hr h => ⟨h.1.step hstep, h.2.step hstep hr h.1⟩)
  have hstep := (Run.at_event hrun).2.1
  have hr := hrep l e r rfl
  obtain ⟨pre, act, out, post⟩ := e
  dsimp only at hact hout hw hinv hstep
  subst hact hout
  obtain ⟨ans', hans, -, ho⟩ := calls_awrite hstep
  cases hans
  obtain ⟨m, hm, hsrc, hdest, hbytes⟩ :=
    (ho.carries hinv.1 (hinv.2.of_repeats hw hr)).2 hret
  exact ⟨m, hm, hsrc, hdest, by simpa [Written.of] using hbytes⟩

/-- A port is opened and written to. The hardware refuses the first write, which leaves the message with
the port, and takes it when the write is repeated. -/
theorem awrite_sends_its_own_message_once :
    ∃ tr t, Run (calls quadMailbox) quadBoot tr t ∧
      tr.map (·.act) = [.alloc 0 1 3 .output,
        .awrite 34 { remoteAddr := 20, buffer := 64, size := 1 } { hwRet := -1, mem := fun _ => 7 },
        .awrite 34 { remoteAddr := 20, buffer := 64, size := 1 } { mem := fun _ => 7 }] ∧
      (∃ e ∈ tr, 0 ≤ (e.pre.ports (2, 0)).mbufferid ∧ sentByte e = some 7) ∧
      ∀ e ∈ tr, ∀ id cfg env ans, e.act = .awrite id cfg env → e.out = .comm ans →
        (e.pre.actives (portOf quadMailbox id).1).resource.isWritable = true →
        ans.ret = .ok .success → ∃ m, ans.sent = some m ∧ m.header.src = cfg.localAddr ∧
          m.header.dest = cfg.remoteAddr ∧
          m.data.take cfg.size = readMem env.mem cfg.buffer cfg.size := by
  obtain ⟨tr, t, hrun, hacts, hfirst, hretry⟩ := exists_run_of_exec (f := call quadMailbox) (s := quadBoot)
    [.alloc 0 1 3 .output,
      .awrite 34 { remoteAddr := 20, buffer := 64, size := 1 } { hwRet := -1, mem := fun _ => 7 },
      .awrite 34 { remoteAddr := 20, buffer := 64, size := 1 } { mem := fun _ => 7 }]
    (fun r => (∀ e ∈ r.1.take 2, (e.pre.ports (2, 0)).mbufferid < 0) ∧
      ∃ e ∈ r.1, 0 ≤ (e.pre.ports (2, 0)).mbufferid ∧ sentByte e = some 7) (by decide +kernel)
  refine ⟨tr, t, hrun, hacts, hretry, awrite_sends_its_own_message quadBoot_boot hrun ?_⟩
  obtain ⟨e₁, e₂, e₃, rfl, h₁, h₂, h₃⟩ : ∃ e₁ e₂ e₃, tr = [e₁, e₂, e₃] ∧ e₁.act = .alloc 0 1 3 .output ∧
      e₂.act = .awrite 34 { remoteAddr := 20, buffer := 64, size := 1 } { hwRet := -1, mem := fun _ => 7 } ∧
      e₃.act = .awrite 34 { remoteAddr := 20, buffer := 64, size := 1 } { mem := fun _ => 7 } := by
    simpa [List.map_eq_cons_iff] using hacts
  intro l e r htr id cfg env hact hheld
  rcases l with _ | ⟨d₁, _ | ⟨d₂, _ | ⟨d₃, l⟩⟩⟩ <;>
    simp only [List.cons_append, List.nil_append, List.cons.injEq] at htr
  · obtain ⟨rfl, -⟩ := htr
    simp [h₁] at hact
  · obtain ⟨rfl, rfl, -⟩ := htr
    rw [h₂] at hact
    cases hact
    exact absurd hheld (not_le.mpr (hfirst _ (by simp)))
  · obtain ⟨rfl, rfl, rfl, -⟩ := htr
    rw [h₃] at hact
    cases hact
    refine ⟨_, ?_, rfl, rfl, List.prefix_rfl⟩
    simp [noteWrite, h₂, Written.of]
  · simp at htr

/-! ### A write that sends another one's message -/

/-- Two ports to node 1 are opened. A write on the second is refused while the
first is writing; when the first is done, the second writes another byte. -/
def staleRetry : List Call :=
  [.alloc 0 1 3 .output, .alloc 0 1 3 .output,
    .awrite 34 { localAddr := 0, remoteAddr := 20, buffer := 64, size := 1 } {},
    .awrite 35 { localAddr := 1, remoteAddr := 20, buffer := 64, size := 1 } { mem := fun _ => 1 },
    .wait 34 { localAddr := 0, remoteAddr := 20, buffer := 64, size := 1 } {},
    .awrite 35 { localAddr := 1, remoteAddr := 20, buffer := 64, size := 1 } { mem := fun _ => 2 }]

/-- The last write of that run sends the byte of the refused one. -/
theorem retry_sends_earlier_message :
    Boot quadMailbox quadBoot ∧ ∃ tr t, Run (calls quadMailbox) quadBoot tr t ∧
      tr.map (·.act) = staleRetry ∧ ∃ e ∈ tr, ∃ id cfg env ans m, e.act = .awrite id cfg env ∧
        e.out = .comm ans ∧ (e.pre.actives (portOf quadMailbox id).1).resource.isWritable = true ∧
        quadMailbox.nodeIsLocal (e.pre.actives (portOf quadMailbox id).1).remote = false ∧
        ans.ret = .ok .success ∧ ans.sent = some m ∧
        m.data.take cfg.size ≠ readMem env.mem cfg.buffer cfg.size := by
  obtain ⟨tr, t, hrun, hacts, hlast⟩ := exists_run_of_exec (f := call quadMailbox) (s := quadBoot)
    staleRetry (fun r => r.1.getLast?.bind sentByte = some 1) (by decide +kernel)
  refine ⟨quadBoot_boot, tr, t, hrun, hacts, ?_⟩
  obtain ⟨e, he, hsent⟩ := Option.bind_eq_some_iff.mp hlast
  have hact : e.act = .awrite 35 { localAddr := 1, remoteAddr := 20, buffer := 64, size := 1 }
      { mem := fun _ => 2 } := by
    have hl := congrArg List.getLast? hacts
    rw [List.getLast?_map, he] at hl
    exact Option.some.inj hl
  unfold sentByte at hsent
  split at hsent
  · rename_i m hout
    split at hsent
    · rename_i hw
      simp only [Bool.and_eq_true, Bool.not_eq_true'] at hw
      refine ⟨e, List.mem_of_getLast? he, _, _, _, _, m, hact, hout, hw.1, hw.2, rfl, rfl, ?_⟩
      intro hd
      have hhead := congrArg List.head? hd
      rw [List.head?_take, if_neg (by decide), hsent] at hhead
      exact absurd hhead (by decide)
    · cases hsent
  · cases hsent

end Nanvix.Noc
