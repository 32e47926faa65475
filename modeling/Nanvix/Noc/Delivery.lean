import Nanvix.Lib.Store
import Nanvix.Noc.Assertions

/-! Stored messages. A message is stored by a write to the node itself or by a wait
that has received it for another port, and it goes when a read returns it. What one
step can do to the stored messages is said once; that nothing is lost, duplicated or
overtaken follows for whole runs. -/

namespace Nanvix.Noc

open Nanvix.Lib Function

/-- The stored message of a table entry, with the fields it is kept under. -/
def Phys.slot (s : Phys) (k : ℕ) : Option Mbuffer :=
  if (s.mbuffers k).kept then some (s.mbuffers k) else none

variable {F : Facility} {s t : Phys} {a p k : ℕ} {cfg : Config} {env : Env} {ans : Answer}

theorem slot_eq_some {m : Mbuffer} : s.slot k = some m ↔ (s.mbuffers k).kept = true ∧ s.mbuffers k = m := by
  unfold Phys.slot
  split <;> simp [*]

theorem slot_eq_none : s.slot k = none ↔ (s.mbuffers k).kept = false := by
  unfold Phys.slot
  split <;> simp [*]

theorem slot_congr (h : t.mbuffers = s.mbuffers) : t.slot = s.slot := by
  funext k
  rw [Phys.slot, Phys.slot, h]

theorem slot_setMbuffer (m : Mbuffer) :
    (s.setMbuffer k m).slot = update s.slot k (if m.kept then some m else none) := by
  funext j
  by_cases hj : j = k
  · subst hj; simp [Phys.slot]
  · simp [Phys.slot, update_of_ne hj]

/-- A change of an entry that holds no message before or after it. -/
theorem slot_setMbuffer_of_none {m : Mbuffer} (hk : s.slot k = none) (hm : m.kept = false) :
    (s.setMbuffer k m).slot = s.slot := by
  rw [slot_setMbuffer, hm]
  simp [← hk]

theorem slot_of_unused (h : (s.mbuffers k).resource.used = false) : s.slot k = none := by
  rw [slot_eq_none, Mbuffer.kept, h]
  rfl

theorem slot_of_not_busy (h : (s.mbuffers k).resource.busy = false) : s.slot k = none := by
  rw [slot_eq_none, Mbuffer.kept, h]
  simp

theorem allocated_not_kept (m : Mbuffer) : m.allocated.kept = false := rfl

theorem discarded_not_kept (m : Mbuffer) : m.discarded.kept = false := rfl

/-! ### The calls on an active -/

/-- The entries that a reader with a given filter looks at. -/
def Seen (F : Facility) (remoteAddr : ℤ) (j : ℕ) : Prop :=
  (readPool F remoteAddr).base F ≤ j ∧ j < F.mbufferMax

def Accepts (F : Facility) (cfg : Config) (m : Mbuffer) : Prop :=
  m.message.header.dest = cfg.localAddr ∧ sourceCheck F m.message.header cfg.remoteAddr = true

/-- The read has returned the stored message `m` of entry `k`, an oldest one among those
it accepts. -/
structure Returned (F : Facility) (s t : Phys) (cfg : Config) (ans : Answer) (k : ℕ) (m : Mbuffer) :
    Prop where
  stored : s.slot k = some m
  accepted : Accepts F cfg m
  received : ans.ret = .ok .received
  copied : ans.copied = some (cfg.buffer, m.message.data.take cfg.size)
  slots : t.slot = update s.slot k none
  age : t.age = s.age
  oldest : ∀ j m', s.slot j = some m' → Seen F cfg.remoteAddr j → Accepts F cfg m' → m.age ≤ m'.age

theorem candidate_iff {m : Mbuffer} :
    candidate F cfg.localAddr cfg.remoteAddr m = true ↔ m.kept = true ∧ Accepts F cfg m := by
  simp [candidate, Mbuffer.kept, Accepts, and_assoc]

/-- A read takes the message that its search has found, and no other. -/
theorem stored_taken {P : Pool} {i : ℕ}
    (hfound : mbufferSearch F P cfg.localAddr cfg.remoteAddr s = some i)
    (hclear : clearSender F s (s.mbuffers (P.base F + i)) = some t) :
    s.slot (P.base F + i) = some (s.mbuffers (P.base F + i)) ∧
      (t.releaseMbuffer (P.base F + i) false).slot =
        update s.slot (P.base F + i) none := by
  obtain ⟨-, hc, -⟩ := mbufferSearch_some hfound
  rw [candidate_iff] at hc
  refine ⟨slot_eq_some.mpr ⟨hc.1, rfl⟩, ?_⟩
  change (t.setMbuffer _ (t.mbuffers _).discarded).slot = _
  rw [slot_setMbuffer, discarded_not_kept, slot_congr (clearSender_mbuffers hclear).1]
  rfl

theorem AreadOutcome.slots (ho : AreadOutcome F s a p cfg env ans t) :
    (t.slot = s.slot ∧ t.age = s.age ∧ ans.ret ≠ .ok .received) ∨ ∃ k m, Returned F s t cfg ans k m := by
  have hnew : ∀ {k}, (s.mbuffers k).resource.used = false →
      ((s.allow a (getActid F cfg.remoteAddr)).allocate k).slot = s.slot := fun hfree =>
    slot_setMbuffer_of_none (slot_of_unused hfree) (allocated_not_kept _)
  cases ho with
  | refused e => exact .inl ⟨rfl, rfl, by simp⟩
  | exhausted hidle => exact .inl ⟨rfl, rfl, by simp⟩
  | failed k hidle hk hfree =>
    refine .inl ⟨?_, rfl, by simp⟩
    have hslot := hnew hfree
    refine Eq.trans (slot_setMbuffer_of_none (s := (s.allow a (getActid F cfg.remoteAddr)).allocate k)
      ?_ (discarded_not_kept _)) hslot
    rw [hslot, slot_of_unused hfree]
  | submitted k hport hidle hk hfree l =>
    refine .inl ⟨?_, rfl, by simp⟩
    have hslot := hnew hfree
    refine Eq.trans (slot_setMbuffer_of_none (s := (s.allow a (getActid F cfg.remoteAddr)).allocate k)
      ?_ ?_) hslot
    · rw [hslot, slot_of_unused hfree]
    · simp [Phys.allocate, Mbuffer.allocated, Mbuffer.kept]
  | @stored i u hport hfound hclear =>
    obtain ⟨hi, hc, hmin⟩ := mbufferSearch_some hfound
    obtain ⟨hstored, htaken⟩ := stored_taken hfound hclear
    rw [candidate_iff] at hc
    set P := readPool F cfg.remoteAddr
    set k := P.base F + i
    refine .inr ⟨k, s.mbuffers k, hstored, hc.2, rfl, rfl, htaken, (clearSender_mbuffers hclear).2.2.1, ?_⟩
    · intro j m' hj hseen hacc
      obtain ⟨hkept, rfl⟩ := slot_eq_some.mp hj
      obtain ⟨hlow, hlt⟩ := hseen
      have hj' : P.base F + (j - P.base F) = j := by
        change P.base F ≤ j at hlow
        omega
      have hn : j - P.base F < P.nmbuffers F := by
        have := F.auxMax_le
        change P.base F ≤ j at hlow
        cases hP : P <;> simp only [hP, Pool.base, Pool.nmbuffers] at * <;> omega
      have := hmin (j - P.base F) hn
      rw [hj', candidate_iff] at this
      exact this ⟨hkept, hacc⟩

/-- The write has stored the message of its caller in entry `k` of the auxiliary pool. -/
structure Forwarded (F : Facility) (s t : Phys) (a p : ℕ) (cfg : Config) (env : Env) (k : ℕ)
    (m : Mbuffer) : Prop where
  free : s.slot k = none
  aux : F.mbufferMax - F.auxMax ≤ k
  lt : k < F.mbufferMax
  entry : m = { forwardedMbuffer F s a p k cfg env with
    age := s.age, resource := { used := true, busy := true } }
  slots : t.slot = update s.slot k (some m)
  age : t.age = s.age + 1

theorem SubmitOutcome.slots (hk : (s.mbuffers k).resource.busy = false)
    (ho : SubmitOutcome s a p k ans t) : t.slot = s.slot ∧ t.age = s.age := by
  have hreg : ∀ {u : Phys}, Registered s a p u → u.mbuffers = s.mbuffers ∧ u.age = s.age := by
    intro u hr
    cases hr <;> exact ⟨rfl, rfl⟩
  cases ho with
  | full hreq hfull => exact ⟨rfl, rfl⟩
  | waiting hr e => exact ⟨slot_congr (hreg hr).1, (hreg hr).2⟩
  | @sent u hr hturn hidle l =>
    obtain ⟨hmb, hage⟩ := hreg hr
    refine ⟨?_, hage⟩
    have hnone : u.slot k = none := by rw [slot_congr hmb, slot_of_not_busy hk]
    refine Eq.trans (slot_setMbuffer_of_none hnone ?_) (slot_congr hmb)
    simp [Mbuffer.kept, hmb, hk]

theorem AwriteOutcome.slots (hown : Owned F s) (ho : AwriteOutcome F s a p cfg env ans t) :
    (t.slot = s.slot ∧ t.age = s.age ∧ ans.ret ≠ .ok .received) ∨
      (ans.ret = .ok .received ∧ ∃ k m, Forwarded F s t a p cfg env k m) := by
  have hsub : ∀ {u : Phys} {k}, SubmitOutcome u a p k ans t → ans.ret ≠ .ok .received := by
    intro u k hs
    cases hs <;> simp
  cases ho with
  | refused e => exact .inl ⟨rfl, rfl, by simp⟩
  | starved hport hdet hlocal hreq hroom => exact .inl ⟨rfl, rfl, by simp⟩
  | forwarded k hport hdet hlocal hreq hroom hlow hk hfree =>
    refine .inr ⟨rfl, k, _, slot_of_unused hfree, hlow, hk, rfl, ?_, rfl⟩
    have hslot : ((((s.register a p).setMbuffer k (forwardedMbuffer F s a p k cfg env)).releaseMbuffer
        k true)).slot = update s.slot k (some { forwardedMbuffer F s a p k cfg env with
          age := s.age, resource := { used := true, busy := true } }) := by
      funext j
      by_cases hj : j = k
      · subst hj
        simp [Phys.slot, Phys.releaseMbuffer, Mbuffer.kept, forwardedMbuffer, Mbuffer.filled,
          Mbuffer.allocated]
      · simp [Phys.slot, Phys.releaseMbuffer, update_of_ne hj]
    exact hslot
  | fresh k hport hremote hdet hk hfree hs =>
    have hprep : (s.prepare F a p k cfg env).slot = s.slot :=
      slot_setMbuffer_of_none (slot_of_unused hfree) rfl
    obtain ⟨hslot, hage⟩ := hs.slots (by simp [Phys.prepare, Mbuffer.filled, Mbuffer.allocated])
    exact .inl ⟨hslot.trans hprep, hage, hsub hs⟩
  | retried k hport hatt hget hs =>
    obtain ⟨j, -, hj, -, -, hbusy⟩ := hown.entry (a, p) hatt
    obtain rfl : k = j := by exact_mod_cast (hown.entry_eq hatt hget).symm.trans hj
    obtain ⟨hslot, hage⟩ := hs.slots hbusy
    exact .inl ⟨hslot, hage, hsub hs⟩

/-- A write on an active to the node itself stores its message or fails. -/
theorem AwriteOutcome.forward (ho : AwriteOutcome F s a p cfg env ans t) (hw : Wired F s)
    (hown : Owned F s) (ha : a ≠ 0) (hlocal : F.nodeIsLocal (s.actives a).remote = true)
    {st : CommStatus} (hret : ans.ret = .ok st) : ∃ k m, Forwarded F s t a p cfg env k m := by
  have hslots := ho.slots hown
  cases ho with
  | refused e => cases hret
  | starved => cases hret
  | forwarded k hport hdet hl hreq hroom hlow hk hfree =>
    rcases hslots with ⟨-, -, hno⟩ | ⟨-, hex⟩
    · exact absurd rfl hno
    · exact hex
  | fresh k hport hremote =>
    rw [hlocal] at hremote
    cases hremote
  | retried k hport hatt hget hsub =>
    -- a port of a forwarding active never has an mbuffer attached
    rw [hw.remote a ha] at hlocal
    have := hw.forward a p ⟨ha, hlocal⟩
    omega

/-- A wait has kept the message of entry `k`, which it had received for another port. -/
structure KeptFor (s t : Phys) (k : ℕ) (m : Mbuffer) : Prop where
  free : s.slot k = none
  message : m.message = (s.mbuffers k).message
  stamp : m.age = s.age
  slots : t.slot = update s.slot k (some m)
  age : t.age = s.age + 1

theorem hwWait_slot (hown : Owned F s) : (hwWait s a env).slot = s.slot := by
  unfold hwWait
  split
  · rename_i k hk
    obtain ⟨-, hbusy, -⟩ := hown.lent a k hk
    split
    · exact slot_setMbuffer_of_none (slot_of_not_busy hbusy) (by simp [Mbuffer.kept, hbusy])
    · rfl
  · rfl

theorem hwWait_age : (hwWait s a env).age = s.age := by
  unfold hwWait
  split
  · split <;> rfl
  · rfl

theorem addLatency_slot (hk : (s.mbuffers k).resource.busy = false) (l : UInt64) :
    (s.addLatency k l).slot = s.slot :=
  slot_setMbuffer_of_none (slot_of_not_busy hk) (by simp [Mbuffer.kept, hk])

theorem dropMbuffer_false (hk : s.slot k = none) :
    (s.dropMbuffer k false).slot = s.slot ∧ (s.dropMbuffer k false).age = s.age := by
  unfold Phys.dropMbuffer
  split
  · exact ⟨slot_setMbuffer_of_none hk (discarded_not_kept _), rfl⟩
  · exact ⟨rfl, rfl⟩

/-- A wait that throws its message away leaves the stored ones alone. -/
theorem discard_slot (hbusy : (s.mbuffers k).resource.busy = false) (l : UInt64) :
    (((s.addLatency k l).dropMbuffer k false).settle a p).slot = s.slot ∧
      (((s.addLatency k l).dropMbuffer k false).settle a p).age = s.age := by
  have hnone : (s.addLatency k l).slot k = none := by
    rw [addLatency_slot hbusy, slot_of_not_busy hbusy]
  obtain ⟨hslot, hage⟩ := dropMbuffer_false hnone
  exact ⟨hslot.trans (addLatency_slot hbusy l), hage⟩

/-- A wait that keeps its message stores it. -/
theorem keep_slot (hused : (s.mbuffers k).resource.used = true)
    (hbusy : (s.mbuffers k).resource.busy = false) (l : UInt64) :
    ∃ m, KeptFor s (((s.addLatency k l).dropMbuffer k true).settle a p) k m := by
  have hu : ((s.addLatency k l).mbuffers k).resource.used = true := by
    simpa [Phys.addLatency] using hused
  have hdrop : (s.addLatency k l).dropMbuffer k true = (s.addLatency k l).releaseMbuffer k true :=
    if_pos hu
  refine ⟨{ s.mbuffers k with
    latency := (s.mbuffers k).latency + l, age := s.age,
    resource := { (s.mbuffers k).resource with busy := true } }, slot_of_not_busy hbusy, rfl, rfl, ?_, ?_⟩
  · change ((s.addLatency k l).dropMbuffer k true).slot = _
    rw [hdrop]
    funext j
    by_cases hj : j = k
    · subst hj
      simp [Phys.slot, Phys.releaseMbuffer, Phys.addLatency, Mbuffer.kept, hused]
    · simp [Phys.slot, Phys.releaseMbuffer, Phys.addLatency, update_of_ne hj]
  · change ((s.addLatency k l).dropMbuffer k true).age = _
    rw [hdrop]
    rfl

/-- What the last section of `active_wait` does to the stored messages: it keeps the
message it has received if that is for another port in use, and nothing else. -/
theorem WaitOutcome.slots {ret : ℤ} (hused : (s.mbuffers k).resource.used = true)
    (hbusy : (s.mbuffers k).resource.busy = false) (ho : WaitOutcome F s a p k ret cfg ans t) :
    (t.slot = s.slot ∧ t.age = s.age) ∨ ∃ m, KeptFor s t k m := by
  cases ho with
  | failed hret => exact .inl (dropMbuffer_false (slot_of_not_busy hbusy))
  | consumed hret hread hcheck l l' => exact .inl (discard_slot hbusy l)
  | written hret hwrite hturn l =>
    have hnone : ((s.addLatency k l).complete a p).slot k = none := by
      change (s.addLatency k l).slot k = none
      rw [addLatency_slot hbusy, slot_of_not_busy hbusy]
    obtain ⟨hslot, hage⟩ := dropMbuffer_false hnone
    exact .inl ⟨hslot.trans (addLatency_slot hbusy l), hage⟩
  | plain hret hread hwrite l => exact .inl (discard_slot hbusy l)
  | ignored hret hread hcheck keep hkeep l =>
    cases keep with
    | false => exact .inl (discard_slot hbusy l)
    | true => exact .inr (keep_slot hused hbusy l)

/-! ### Events -/

/-- The event in which a read or write on communicator `c` answers `ans`. -/
structure Operates (ty : CommType) (c : ℕ) (env : Env) (ans : Answer) (e : Event State Act Out) :
    Prop where
  act : e.act = .master env
  master : e.pre.master = .operating ty c
  answer : e.out.ans = some ans

/-- The read or write that an event makes, with its communicator and its answer. -/
def operation (e : Event State Act Out) : Option (CommType × ℕ × Answer) :=
  match e.act, e.pre.master, e.out.ans with
  | .master _, .operating ty c, some ans => some (ty, c, ans)
  | _, _, _ => none

theorem operates_of_operation {e : Event State Act Out} {ty : CommType} {c : ℕ} {ans : Answer}
    (h : operation e = some (ty, c, ans)) : ∃ env, Operates ty c env ans e := by
  unfold operation at h
  split at h
  · rename_i env ty' c' ans' hact hmaster hans
    cases h
    exact ⟨env, hact, hmaster, hans⟩
  · cases h

theorem Operates.operation {e : Event State Act Out} {ty : CommType} {c : ℕ} {env : Env}
    {ans : Answer} (h : Operates ty c env ans e) : operation e = some (ty, c, ans) := by
  simp only [Noc.operation, h.act, h.master, h.answer]

/-- A read on communicator `c` returns the stored message `m` of entry `k`. -/
def Reads (F : Facility) (c k : ℕ) (m : Mbuffer) (e : Event State Act Out) : Prop :=
  ∃ env ans, Operates .input c env ans e ∧
    Returned F e.pre.phys e.post.phys (e.pre.comms c).config ans k m

def LocalWrite (F : Facility) (c : ℕ) (env : Env) (e : Event State Act Out) : Prop :=
  ∃ ans st, Operates .output c env ans e ∧ ans.ret = .ok st ∧
    F.nodeIsLocal (e.pre.phys.actives (portOf F (e.pre.comms c).config.fd).1).remote = true

def Stores (e : Event State Act Out) (k : ℕ) (m : Mbuffer) : Prop :=
  e.pre.phys.slot k = none ∧ e.post.phys.slot k = some m

/-- A wait of thread `tid` keeps the message of entry `k` for another port. -/
structure Keeps (F : Facility) (tid c k : ℕ) (m : Mbuffer) (e : Event State Act Out) : Prop where
  act : ∃ env, e.act = .resume tid env
  pc : ∃ fd i ret, e.pre.waits tid = .woken c fd i ret
  lt : k < F.mbufferMax
  kept : KeptFor e.pre.phys e.post.phys k m

inductive StoreEvent (F : Facility) (e : Event State Act Out) : Prop
  | same (hslot : e.post.phys.slot = e.pre.phys.slot) (hage : e.post.phys.age = e.pre.phys.age)
  | written (c : ℕ) (env : Env) (k : ℕ) (m : Mbuffer) (ans : Answer)
      (hop : Operates .output c env ans e) (hret : ans.ret = .ok .received)
      (hf : Forwarded F e.pre.phys e.post.phys (portOf F (e.pre.comms c).config.fd).1
        (portOf F (e.pre.comms c).config.fd).2 (e.pre.comms c).config env k m)
  | kept (tid c k : ℕ) (m : Mbuffer) (hk : Keeps F tid c k m e)
  | read (c k : ℕ) (m : Mbuffer) (hr : Reads F c k m e)

variable {e : Event State Act Out} {c : ℕ} {m : Mbuffer} {ty : CommType}

/-- An event that operates has passed the checks of `communicator_operate` and makes its call. -/
theorem Operates.call (hop : Operates ty c env ans e) (hs : steps F e.pre e.act e.out e.post) :
    (ty = .input → (e.pre.comms c).allowed = true) ∧ (e.pre.comms c).resource.busy = false ∧
      doComm F e.pre (e.pre.comms c).config.fd (e.pre.comms c).config env = some (ans, e.post.phys) := by
  obtain ⟨s, act, o, t⟩ := e
  obtain ⟨rfl, hmaster, hans⟩ := hop
  dsimp only at hs hmaster hans ⊢
  have h : communicatorOperate F { s with master := .idle } c ty env = .ok (o, t) := by
    have hm : masterStep F s env = .ok (o, t) := hs
    rwa [masterStep, hmaster] at hm
  unfold communicatorOperate at h
  dsimp only at h
  split at h
  · cases h; cases hans
  split at h
  · cases h; cases hans
  split at h
  · cases h; cases hans
  rename_i hallowed
  split at h
  · cases h; cases hans
  rename_i hbusy
  split at h
  · cases h
  rename_i ans' ph hcall
  refine ⟨fun hty => ?_, by simpa using hbusy, ?_⟩
  · simpa [hty] using hallowed
  · split at h <;>
    · cases h
      cases hans
      exact hcall

/-- The call behind an event that operates. -/
theorem Flight.outcome (h : Flight F e.pre) (hs : steps F e.pre e.act e.out e.post)
    (hop : Operates ty c env ans e) :
    (e.pre.comms c).resource.used = true ∧ (e.pre.comms c).fits ty = true ∧
      CommOutcome F e.pre (e.pre.comms c).config env ty ans e.post.phys := by
  obtain ⟨s, act, o, t⟩ := e
  obtain ⟨rfl, hmaster, hans⟩ := hop
  dsimp only at h hs hmaster hans ⊢
  have hty : s.doComm = ty := h.dispatched.eq hmaster
  cases steps_cases hs with
  | quiet _ _ hnone => rw [hans] at hnone; cases hnone
  | allocated _ hpc => rw [hmaster] at hpc; cases hpc
  | exhausted _ hpc => rw [hmaster] at hpc; cases hpc
  | counted _ hpc => rw [hmaster] at hpc; cases hpc
  | rolledBack _ hpc => rw [hmaster] at hpc; cases hpc
  | allowed _ hpc => rw [hmaster] at hpc; cases hpc
  | denied _ _ hpc => cases hans
  | failed hpc hused hfits hbusy ho hret =>
    cases hans
    cases hmaster.symm.trans hpc
    rw [hty] at ho
    exact ⟨hused, hfits, ho⟩
  | operated hpc hused hfits hbusy ho hret =>
    cases hans
    cases hmaster.symm.trans hpc
    rw [hty] at ho
    exact ⟨hused, hfits, ho⟩

/-- The read or write of a step, as an event on the stored messages. -/
theorem Flight.operates_storeEvent (h : Flight F e.pre) (hs : steps F e.pre e.act e.out e.post)
    (hop : Operates ty c env ans e) : StoreEvent F e := by
  cases (h.outcome hs hop).2.2 with
  | aread hv ho =>
    rcases ho.slots with ⟨hslot, hage, -⟩ | ⟨k, m, hr⟩
    · exact .same hslot hage
    · exact .read c k m ⟨env, ans, hop, hr⟩
  | awrite hv ho =>
    rcases ho.slots h.owned with ⟨hslot, hage, -⟩ | ⟨hret, k, m, hf⟩
    · exact .same hslot hage
    · exact .written c env k m ans hop hret hf

/-- Every step that waits do not overlap in is one of these events. -/
theorem Flight.storeEvent (h : Flight F e.pre) (hs : steps F e.pre e.act e.out e.post) :
    StoreEvent F e := by
  have hop := fun {ty c env ans} (ho : Operates ty c env ans e) => h.operates_storeEvent hs ho
  obtain ⟨s, act, o, t⟩ := e
  dsimp only at h hs
  cases steps_cases hs with
  | opened hidle hcall hlocal hport hrem ho => cases ho; exact .same rfl rfl
  | rolledBack env hpc hv ho => cases ho; exact .same rfl rfl
  | freed hidle hcall hid hused hfits hbusy hv ho => cases ho; exact .same rfl rfl
  | failed hpc hused hfits hbusy ho hret => exact hop ⟨rfl, hpc, rfl⟩
  | operated hpc hused hfits hbusy ho hret => exact hop ⟨rfl, hpc, rfl⟩
  | woken env hpc => exact .same (hwWait_slot h.owned) hwWait_age
  | @completed tid id k fd m ret ans ph env hpc hget ho =>
    obtain ⟨-, -, hk⟩ := h.woken_loan hpc hget
    obtain ⟨hused, hbusy, -⟩ := h.owned.lent _ k hk.lent
    obtain ⟨j, hj, he, -⟩ := h.owned.entry (portOf F fd) (by rw [hk.attached]; omega)
    obtain rfl : k = j := by exact_mod_cast hk.attached.symm.trans he
    rcases ho.slots hused hbusy with ⟨hslot, hage⟩ | ⟨m', hm⟩
    · exact .same hslot hage
    · exact .kept tid id k m' ⟨⟨env, rfl⟩, ⟨fd, m, ret, hpc⟩, hj, hm⟩
  | _ => exact .same rfl rfl

/-- A message that is stored before an event is stored after it, unless a read returns it. -/
theorem StoreEvent.kept_or_read (h : StoreEvent F e) {k : ℕ} {m : Mbuffer}
    (hk : e.pre.phys.slot k = some m) :
    e.post.phys.slot k = some m ∨ e.post.phys.slot k = none ∧ ∃ c, Reads F c k m e := by
  have hother : ∀ {j : ℕ} {x : Option Mbuffer}, e.pre.phys.slot j = none →
      e.post.phys.slot = update e.pre.phys.slot j x → e.post.phys.slot k = some m := by
    intro j x hj hpost
    have hne : k ≠ j := by
      rintro rfl
      rw [hk] at hj
      cases hj
    rw [hpost, update_of_ne hne, hk]
  cases h with
  | same hslot hage => exact .inl (by rw [hslot, hk])
  | written c env j m' ans hop hret hf => exact .inl (hother hf.free hf.slots)
  | kept tid c j m' hk' => exact .inl (hother hk'.kept.free hk'.kept.slots)
  | read c j m' hr =>
    obtain ⟨env, ans, hop, hret⟩ := hr
    by_cases hj : k = j
    · subst hj
      obtain rfl := Option.some.inj (hk.symm.trans hret.stored)
      exact .inr ⟨by rw [hret.slots, update_self], c, env, ans, hop, hret⟩
    · exact .inl (by rw [hret.slots, update_of_ne hj, hk])

/-- The stamp of a stored message, and where it is. -/
theorem StoreEvent.stamp (h : StoreEvent F e) (hst : Stores e k m) :
    m.age = e.pre.phys.age ∧ e.post.phys.age = e.pre.phys.age + 1 ∧ k < F.mbufferMax := by
  obtain ⟨hnone, hsome⟩ := hst
  have hself : ∀ {j : ℕ} {m' : Mbuffer},
      e.post.phys.slot = update e.pre.phys.slot j (some m') → k = j ∧ m = m' := by
    intro j m' hpost
    rw [hpost] at hsome
    by_cases hj : k = j
    · subst hj
      rw [update_self] at hsome
      exact ⟨rfl, (Option.some.inj hsome).symm⟩
    · rw [update_of_ne hj, hnone] at hsome
      cases hsome
  cases h with
  | same hslot hage =>
    rw [hslot, hnone] at hsome
    cases hsome
  | written c env j m' ans hop hret hf =>
    obtain ⟨rfl, rfl⟩ := hself hf.slots
    exact ⟨by rw [hf.entry], hf.age, hf.lt⟩
  | kept tid c j m' hk =>
    obtain ⟨rfl, rfl⟩ := hself hk.kept.slots
    exact ⟨hk.kept.stamp, hk.kept.age, hk.lt⟩
  | read c j m' hr =>
    obtain ⟨env, ans, hop, hret⟩ := hr
    rw [hret.slots] at hsome
    by_cases hj : k = j
    · subst hj
      rw [update_self] at hsome
      cases hsome
    · rw [update_of_ne hj, hnone] at hsome
      cases hsome

/-- A successful write to the node itself stores the message of its caller. -/
theorem Flight.localWrite (h : Flight F e.pre) (hs : steps F e.pre e.act e.out e.post)
    (hw : LocalWrite F c env e) :
    ∃ k m, Forwarded F e.pre.phys e.post.phys (portOf F (e.pre.comms c).config.fd).1
      (portOf F (e.pre.comms c).config.fd).2 (e.pre.comms c).config env k m := by
  obtain ⟨ans, st, hop, hret, hlocal⟩ := hw
  obtain ⟨hused, hfits, ho⟩ := h.outcome hs hop
  obtain ⟨ty, a, p, hfits', hb, hport⟩ := h.port hused
  obtain rfl := fits_unique hfits hfits'
  rw [hport] at hlocal ⊢
  have ha : a ≠ 0 := fun ha => by cases hb.input_iff.mpr ha
  cases ho with
  | awrite hv ho =>
    rw [hport] at ho
    exact ho.forward h.wired h.owned ha hlocal hret

/-! ### Runs -/

variable {tr : List (Event State Act Out)} {u : State}

theorem storeEvent_of_mem (h : Runs F tr u) (hn : ∀ e ∈ tr, NoOverlap e) (he : e ∈ tr) :
    StoreEvent F e := by
  obtain ⟨hpre, hs⟩ := flight_event h hn he
  exact hpre.storeEvent hs

/-- What has been stored stays as it is until a read returns it. -/
theorem stored_lives (h : Runs F tr u) (hn : ∀ e ∈ tr, NoOverlap e)
    {l r : List (Event State Act Out)} (htr : tr = l ++ e :: r) (hst : Stores e k m) :
    Lives (fun s : State => s.phys.slot) (fun e' => ∃ c, Reads F c k m e') k m r := by
  have hevent : ∀ x ∈ r, StoreEvent F x := by
    intro x hx
    exact storeEvent_of_mem h hn (by rw [htr]; simp [hx])
  obtain ⟨s₀, h₀, hrun⟩ := h
  rw [htr] at hrun
  exact hrun.at_event.2.2.lives hst.2 fun x hx hk => (hevent x hx).kept_or_read hk

/-- A stored message was put there by an event and has stayed since. -/
theorem exists_stores {l : List (Event State Act Out)} {s u : State} (h : Run (steps F) s l u)
    (hevent : ∀ x ∈ l, StoreEvent F x) (hs : s.phys.slot k = none) (hu : u.phys.slot k = some m) :
    ∃ w ∈ l, Stores w k m := by
  have hstep : ∀ x ∈ l, x.post.phys.slot k = some m → Stores x k m ∨ x.pre.phys.slot k = some m := by
    intro x hx hpost
    cases hpre : x.pre.phys.slot k with
    | none => exact .inl ⟨hpre, hpost⟩
    | some m' =>
      rcases (hevent x hx).kept_or_read hpre with hkept | ⟨hgone, -⟩
      · exact .inr (hkept.symm.trans hpost)
      · rw [hpost] at hgone
        cases hgone
  obtain ⟨l₁, w, l₂, rfl, hw, -⟩ := h.since (Q := fun s => s.phys.slot k = some m) (by simp [hs]) hu
    hstep
  exact ⟨w, by simp, hw⟩

/-- A message is read again only if it has been stored again. -/
theorem stored_between_reads (h : Runs F tr u) (hn : ∀ e ∈ tr, NoOverlap e)
    {l₁ l₂ l₃ : List (Event State Act Out)} {e₁ e₂ : Event State Act Out} {c₁ c₂ : ℕ}
    (htr : tr = l₁ ++ e₁ :: (l₂ ++ e₂ :: l₃)) (h₁ : Reads F c₁ k m e₁) (h₂ : Reads F c₂ k m e₂) :
    ∃ w ∈ l₂, Stores w k m := by
  have hevent : ∀ x ∈ l₂, StoreEvent F x := by
    intro x hx
    exact storeEvent_of_mem h hn (by rw [htr]; simp [hx])
  obtain ⟨s₀, h₀, hrun⟩ := h
  rw [htr] at hrun
  obtain ⟨env₁, ans₁, -, hret₁⟩ := h₁
  obtain ⟨env₂, ans₂, -, hret₂⟩ := h₂
  exact exists_stores hrun.at_event.2.2.at_event.1 hevent
    (by rw [hret₁.slots, update_self]) hret₂.stored

def storesMessage (e : Event State Act Out) : Bool := e.post.phys.age != e.pre.phys.age

theorem StoreEvent.age_eq (h : StoreEvent F e) :
    e.post.phys.age = e.pre.phys.age + UInt64.ofNat (storesMessage e).toNat := by
  have hsame : e.post.phys.age = e.pre.phys.age →
      e.post.phys.age = e.pre.phys.age + UInt64.ofNat (storesMessage e).toNat := by
    intro hage
    simp [storesMessage, hage]
  have hnext : e.post.phys.age = e.pre.phys.age + 1 →
      e.post.phys.age = e.pre.phys.age + UInt64.ofNat (storesMessage e).toNat := by
    intro hage
    have hne : (e.pre.phys.age + 1 != e.pre.phys.age) = true := by
      rw [bne_iff_ne]
      grind
    rw [storesMessage, hage, hne]
    rfl
  cases h with
  | same hslot hage => exact hsame hage
  | written c env j m' ans hop hret hf => exact hnext hf.age
  | kept tid c j m' hk => exact hnext hk.kept.age
  | read c j m' hr =>
    obtain ⟨env, ans, hop, hret⟩ := hr
    exact hsame hret.age

theorem Stores.storesMessage (hst : Stores e k m) (h : StoreEvent F e) : storesMessage e = true := by
  obtain ⟨-, hage, -⟩ := h.stamp hst
  rw [Noc.storesMessage, hage, bne_iff_ne]
  grind

/-- The age counter is the number of messages that have been stored, in its width. -/
theorem age_eq_count (h : Runs F tr u) (hn : ∀ e ∈ tr, NoOverlap e) :
    u.phys.age = UInt64.ofNat (tr.countP storesMessage) := by
  have hevent := fun e he => storeEvent_of_mem h hn (e := e) he
  obtain ⟨s₀, ⟨ph, hb, rfl⟩, hrun⟩ := h
  refine hrun.counts (P := fun n s => s.phys.age = UInt64.ofNat n) ?_ fun n e he hage => ?_
  · obtain ⟨hwfd, c, rfl⟩ := hb.eq_bootState
    rfl
  · rw [(hevent e he).age_eq, hage, UInt64.ofNat_add]

theorem age_at_event (h : Runs F tr u) (hn : ∀ e ∈ tr, NoOverlap e)
    {l r : List (Event State Act Out)} (htr : tr = l ++ e :: r) :
    e.pre.phys.age = UInt64.ofNat (l.countP storesMessage) := by
  obtain ⟨s₀, h₀, hrun⟩ := h
  rw [htr] at hrun
  exact age_eq_count ⟨s₀, h₀, hrun.at_event.1⟩ fun x hx => hn x (by rw [htr]; simp [hx])

/-- While the counter has not wrapped, an earlier message has a smaller stamp. -/
theorem stamp_lt (h : Runs F tr u) (hn : ∀ e ∈ tr, NoOverlap e)
    (hcount : tr.countP storesMessage < 2 ^ 64 - 1) {l₁ l₂ l₃ : List (Event State Act Out)}
    {w₁ w₂ : Event State Act Out} {k₁ k₂ : ℕ} {m₁ m₂ : Mbuffer}
    (htr : tr = l₁ ++ w₁ :: (l₂ ++ w₂ :: l₃)) (h₁ : Stores w₁ k₁ m₁) (h₂ : Stores w₂ k₂ m₂) :
    m₁.age < m₂.age := by
  have hw₁ : StoreEvent F w₁ := storeEvent_of_mem h hn (by rw [htr]; simp)
  have hw₂ : StoreEvent F w₂ := storeEvent_of_mem h hn (by rw [htr]; simp)
  have ha₁ := age_at_event h hn htr
  have ha₂ : w₂.pre.phys.age = UInt64.ofNat ((l₁ ++ w₁ :: l₂).countP storesMessage) :=
    age_at_event h hn (r := l₃) (by rw [htr]; simp)
  have hticks : storesMessage w₁ = true := h₁.storesMessage hw₁
  rw [htr] at hcount
  simp only [List.countP_append, List.countP_cons, hticks, if_true] at hcount ha₂
  rw [(hw₁.stamp h₁).1, (hw₂.stamp h₂).1, ha₁, ha₂, UInt64.lt_iff_toNat_lt, UInt64.toNat_ofNat_of_lt',
    UInt64.toNat_ofNat_of_lt']
  · omega
  · change _ < 2 ^ 64
    omega
  · change _ < 2 ^ 64
    omega

theorem slot_init {s : State} (h : Init F s) : s.phys.slot k = none := by
  obtain ⟨ph, hb, rfl⟩ := h
  obtain ⟨hwfd, c, rfl⟩ := hb.eq_bootState
  rfl

theorem stored_of_runs (h : Runs F tr u) (hn : ∀ e ∈ tr, NoOverlap e) (hu : u.phys.slot k = some m) :
    ∃ w ∈ tr, Stores w k m := by
  have hevent := fun e he => storeEvent_of_mem h hn (e := e) he
  obtain ⟨s₀, h₀, hrun⟩ := h
  exact exists_stores hrun hevent (slot_init h₀) hu

/-- While the counter has not wrapped, no message is read twice. -/
theorem reads_once (h : Runs F tr u) (hn : ∀ e ∈ tr, NoOverlap e)
    (hcount : tr.countP storesMessage < 2 ^ 64 - 1) {l₁ l₂ l₃ : List (Event State Act Out)}
    {e₁ e₂ : Event State Act Out} {c₁ c₂ : ℕ} (htr : tr = l₁ ++ e₁ :: (l₂ ++ e₂ :: l₃))
    (h₁ : Reads F c₁ k m e₁) : ¬ Reads F c₂ k m e₂ := by
  intro h₂
  obtain ⟨w₂, hw₂, hst₂⟩ := stored_between_reads h hn htr h₁ h₂
  obtain ⟨w₁, hw₁, hst₁⟩ : ∃ w ∈ l₁, Stores w k m := by
    obtain ⟨s₀, h₀, hrun⟩ := h
    rw [htr] at hrun
    obtain ⟨env₁, ans₁, -, hret₁⟩ := h₁
    exact stored_of_runs ⟨s₀, h₀, hrun.at_event.1⟩ (fun e he => hn e (by simp [htr, he])) hret₁.stored
  obtain ⟨x₁, y₁, rfl⟩ := List.append_of_mem hw₁
  obtain ⟨x₂, y₂, rfl⟩ := List.append_of_mem hw₂
  have hwrites : tr = x₁ ++ w₁ :: ((y₁ ++ e₁ :: x₂) ++ w₂ :: (y₂ ++ e₂ :: l₃)) := by
    rw [htr]
    simp
  have hlt := stamp_lt h hn hcount hwrites hst₁ hst₂
  exact absurd hlt (UInt64.lt_irrefl _)

end Nanvix.Noc
