import Nanvix.Noc.Delivery

/-! Delivery within the node. A message that is written to the node itself is stored
once, stays as it is until one read on its port returns it, and is not overtaken by a
later one that the reader accepts as well. This rests on waits that do not overlap: the
second of two overlapping waits can throw away a message that was never received. -/

namespace Nanvix.Noc

open Nanvix.Lib Function

variable {F : Facility} {s t : Phys} {a p k : ℕ} {cfg : Config} {env : Env} {m : Mbuffer}

theorem Forwarded.header (h : Forwarded F s t a p cfg env k m) :
    m.message.header.src = cfg.localAddr ∧ m.message.header.dest = cfg.remoteAddr := by
  rw [h.entry]
  exact ⟨headerConfig_src _ _, headerConfig_dest _ _⟩

/-- The payload starts with the bytes of the writer. -/
theorem Forwarded.payload (h : Forwarded F s t a p cfg env k m) {n : ℕ} (hn : n ≤ cfg.size) :
    m.message.data.take n = (readMem env.mem cfg.buffer cfg.size).take n := by
  rw [h.entry]
  change (readMem env.mem cfg.buffer cfg.size ++ _).take n = _
  rw [List.take_append_of_le_length (by simpa using hn)]

/-- The event of a read on communicator `c` that returns a stored message. -/
def BufferedRead (c : ℕ) (e : Event State Act Out) : Prop :=
  ∃ env ans, Operates .input c env ans e ∧ ans.ret = .ok .received

variable {u : State} {tr : List (Event State Act Out)} {e : Event State Act Out} {c : ℕ}

theorem Flight.bufferedRead (h : Flight F e.pre) (hs : steps F e.pre e.act e.out e.post)
    (hr : BufferedRead c e) : ∃ k m, Reads F c k m e := by
  obtain ⟨env, ans, hop, hret⟩ := hr
  cases (h.outcome hs hop).2.2 with
  | aread hv ho =>
    rcases ho.slots with ⟨-, -, hno⟩ | ⟨k, m, hr⟩
    · exact absurd hret hno
    · exact ⟨k, m, env, ans, hop, hr⟩

/-- A read does not return a message while an earlier one that it accepts is stored, if it
looks at the entry of that one. -/
theorem reads_oldest (h : Runs F tr u) (hn : ∀ e ∈ tr, NoOverlap e)
    (hcount : tr.countP storesMessage < 2 ^ 64 - 1) {l₁ l₂ l₃ : List (Event State Act Out)}
    {w₁ w₂ r : Event State Act Out} {k₁ k₂ : ℕ} {m₁ m₂ : Mbuffer}
    (htr : tr = l₁ ++ w₁ :: (l₂ ++ w₂ :: l₃)) (h₁ : Stores w₁ k₁ m₁) (h₂ : Stores w₂ k₂ m₂)
    (hstored : r.pre.phys.slot k₁ = some m₁) (hseen : Seen F (r.pre.comms c).config.remoteAddr k₁)
    (hacc : Accepts F (r.pre.comms c).config m₁) : ¬ Reads F c k₂ m₂ r := by
  rintro ⟨env, ans, -, hret⟩
  have hle := hret.oldest k₁ m₁ hstored hseen hacc
  exact absurd (stamp_lt h hn hcount htr h₁ h₂) (UInt64.not_lt.mpr hle)

/-- A message written on the node is in the auxiliary pool, which every reader looks at. -/
theorem Flight.localWrite_seen (h : Flight F e.pre) (hs : steps F e.pre e.act e.out e.post)
    (hw : LocalWrite F c env e) (hst : Stores e k m) (remoteAddr : ℤ) :
    (readPool F remoteAddr).base F ≤ k := by
  obtain ⟨j, m', hf⟩ := h.localWrite hs hw
  obtain rfl : k = j := by
    by_contra hne
    have := hst.2
    rw [hf.slots, update_of_ne hne, hst.1] at this
    cases this
  have := hf.aux
  unfold readPool
  split <;> simp only [Pool.base] <;> omega

/-- Delivery within the node, while waits do not overlap. -/
theorem local_delivery_exactly_once (h : Runs F tr u) (hn : ∀ e ∈ tr, NoOverlap e)
    (hcount : tr.countP storesMessage < 2 ^ 64 - 1) :
    -- a write stores one message, the one of its caller
    (∀ e ∈ tr, ∀ c env, LocalWrite F c env e → ∃ k m, Stores e k m ∧
        (∀ j, j ≠ k → e.post.phys.slot j = e.pre.phys.slot j) ∧
        m.message.header.src = (e.pre.comms c).config.localAddr ∧
        m.message.header.dest = (e.pre.comms c).config.remoteAddr ∧
        ∀ n ≤ (e.pre.comms c).config.size, m.message.data.take n =
          (readMem env.mem (e.pre.comms c).config.buffer (e.pre.comms c).config.size).take n) ∧
      -- it stays as it is until one read takes it
      (∀ l e r, tr = l ++ e :: r → ∀ k m, Stores e k m →
        Lives (fun s : State => s.phys.slot) (fun e' => ∃ c, Reads F c k m e') k m r) ∧
      -- and no other one
      (∀ l₁ e₁ l₂ e₂ l₃, tr = l₁ ++ e₁ :: (l₂ ++ e₂ :: l₃) → ∀ c₁ c₂ k m, Reads F c₁ k m e₁ →
        ¬ Reads F c₂ k m e₂) ∧
      -- a read that finds a stored message takes one
      (∀ e ∈ tr, ∀ c, BufferedRead c e → ∃ k m, Reads F c k m e) ∧
      -- and not a later one than a message it accepts as well, if that was written on the
      -- node or the reader does not ask for messages of the node
      ∀ l₁ w₁ l₂ w₂ l₃ r l₄, tr = l₁ ++ w₁ :: (l₂ ++ w₂ :: (l₃ ++ r :: l₄)) →
        ∀ k₁ m₁ k₂ m₂ c, Stores w₁ k₁ m₁ → Stores w₂ k₂ m₂ →
          r.pre.phys.slot k₁ = some m₁ → Accepts F (r.pre.comms c).config m₁ →
          ((∃ c₁ env₁, LocalWrite F c₁ env₁ w₁) ∨
            F.nodeIsLocal (getActid F (r.pre.comms c).config.remoteAddr) = false) →
          ¬ Reads F c k₂ m₂ r := by
  refine ⟨fun e he c env hw => ?_, fun l e r htr k m hst => stored_lives h hn htr hst,
    fun l₁ e₁ l₂ e₂ l₃ htr c₁ c₂ k m hr => reads_once h hn hcount htr hr, fun e he c hr => ?_, ?_⟩
  · obtain ⟨hpre, hs⟩ := flight_event h hn he
    obtain ⟨k, m, hf⟩ := hpre.localWrite hs hw
    refine ⟨k, m, ⟨hf.free, by rw [hf.slots, update_self]⟩, fun j hj => ?_, hf.header.1,
      hf.header.2, fun n hn => hf.payload hn⟩
    rw [hf.slots, update_of_ne hj]
  · obtain ⟨hpre, hs⟩ := flight_event h hn he
    exact hpre.bufferedRead hs hr
  · intro l₁ w₁ l₂ w₂ l₃ r l₄ htr k₁ m₁ k₂ m₂ c h₁ h₂ hstored hacc hseen
    have hmem : w₁ ∈ tr := by rw [htr]; simp
    obtain ⟨hpre, hs⟩ := flight_event h hn hmem
    refine reads_oldest h hn hcount htr h₁ h₂ hstored ⟨?_, ((hpre.storeEvent hs).stamp h₁).2.2⟩ hacc
    rcases hseen with ⟨c₁, env₁, hw⟩ | hlocal
    · exact hpre.localWrite_seen hs hw h₁ _
    · simp [readPool, hlocal, Pool.base]

/-- A read on communicator 0, with its three sections. -/
def wholeRead : List Act := [.call (.aread 0 64 1), .master {}, .master {}]

/-- The event is a read on communicator 0 that returns a stored message. -/
def readsStored (e : Event State Act Out) : Bool :=
  match operation e with
  | some (.input, 0, { ret := .ok .received, .. }) => true
  | _ => false

theorem bufferedRead_of_readsStored (h : readsStored e = true) : BufferedRead 0 e := by
  unfold readsStored at h
  split at h
  · rename_i stats copied sent hop
    obtain ⟨env, henv⟩ := operates_of_operation hop
    exact ⟨env, _, henv, rfl⟩
  · cases h

theorem local_delivery_exactly_once_read : ∃ tr s, Runs quadMailbox tr s ∧
    (∀ e ∈ tr, NoOverlap e) ∧ tr.countP storesMessage < 2 ^ 64 - 1 ∧
    ∃ e ∈ tr, ∃ k m, Reads quadMailbox 0 k m e := by
  obtain ⟨tr, s, hrun, hacts, hcount, hread⟩ := exists_runs_of_exec quadBoot_boot
    (wholeOpen (.create 0 3) ++ wholeOpen (.open 0 0 3) ++ [.call (.awrite 1 64 1), .master {}] ++
      wholeRead)
    (fun r => r.1.countP storesMessage < 2 ^ 64 - 1 ∧ r.1.any readsStored = true) (by decide +kernel)
  have hn := noOverlap_of_one_thread hrun (by rw [hacts]; decide)
  obtain ⟨e, he, hr⟩ := List.any_eq_true.mp hread
  exact ⟨tr, s, hrun, hn, hcount, e, he,
    (local_delivery_exactly_once hrun hn hcount).2.2.2.1 e he 0 (bufferedRead_of_readsStored hr)⟩

/-! ### Overlapping waits -/

def arrival : Message := { header := { dest := 0, src := 17 }, data := [1] }

/-- Sixteen writes to another node leave only the auxiliary pool free, where two threads
wait for the same read. The first one completes it, a message to the node itself takes
the mbuffer, and the second one comes back from the hardware for the next read. -/
def lostMessage : List Act :=
  wholeOpen (.create 0 0) ++
    (List.range 16).flatMap (fun i =>
      wholeOpen (.open 0 1 i) ++ [.call (.awrite (i + 1) 64 1), .master {}]) ++
    wholeOpen (.open 0 0 1) ++ wholeRead ++
    [.wait 0 0, .resume 0 {}, .wait 1 0, .resume 1 {}, .resume 0 { arrived := arrival },
      .resume 0 {}, .resume 0 {}, .resume 0 {}, .call (.awrite 17 64 1), .master {}] ++
    wholeRead ++ [.resume 1 { arrived := arrival }, .resume 1 {}]

/-- The event is a write on communicator 17 that has stored its message in entry 16. -/
def storesLocally (e : Event State Act Out) : Bool :=
  match operation e with
  | some (.output, 17, { ret := .ok _, .. }) =>
    quadMailbox.nodeIsLocal
        (e.pre.phys.actives (portOf quadMailbox (e.pre.comms 17).config.fd).1).remote &&
      (e.pre.phys.slot 16).isNone && (e.post.phys.slot 16).isSome
  | _ => false

/-- The event is not a read that returns a stored message. -/
def receivesNothing (e : Event State Act Out) : Bool :=
  match operation e with
  | some (.input, _, { ret := .ok .received, .. }) => false
  | _ => true

/-- The message is gone, and no read has returned any stored message. -/
theorem overlapping_waits_lose_message : ∃ tr s, Runs quadMailbox tr s ∧
    tr.map (·.act) = lostMessage ∧
    (∃ w ∈ tr, ∃ env m, LocalWrite quadMailbox 17 env w ∧ Stores w 16 m) ∧
    s.phys.slot 16 = none ∧ ∀ e ∈ tr, ∀ c k m, ¬ Reads quadMailbox c k m e := by
  obtain ⟨tr, s, hrun, hacts, hwrite, hgone, hnone⟩ := exists_runs_of_exec quadBoot_boot lostMessage
    (fun r => r.1.any storesLocally = true ∧ (r.2.phys.slot 16).isNone = true ∧
      r.1.all receivesNothing = true) (by decide +kernel)
  refine ⟨tr, s, hrun, hacts, ?_, Option.isNone_iff_eq_none.mp hgone, ?_⟩
  · obtain ⟨w, hw, hstores⟩ := List.any_eq_true.mp hwrite
    unfold storesLocally at hstores
    split at hstores
    · rename_i st stats copied sent hop
      obtain ⟨env, henv⟩ := operates_of_operation hop
      simp only [Bool.and_eq_true] at hstores
      obtain ⟨m, hm⟩ := Option.isSome_iff_exists.mp hstores.2
      exact ⟨w, hw, env, m, ⟨_, st, henv, rfl, hstores.1.1⟩,
        Option.isNone_iff_eq_none.mp hstores.1.2, hm⟩
    · cases hstores
  · rintro e he c k m ⟨env, ans, hop, hret⟩
    have := List.all_eq_true.mp hnone e he
    rw [receivesNothing, hop.operation] at this
    obtain ⟨ret, stats, copied, sent⟩ := ans
    obtain rfl : ret = .ok .received := hret.received
    cases this

end Nanvix.Noc
