import Nanvix.Noc.Delivery
import Nanvix.Noc.Interference

/-! The two ends of a communicator. A message goes to its user in one of two steps, the read that
finds it stored and the wait that receives it; and the remote address that its messages come from
or go to is that of a node and a port that a call has named. -/

namespace Nanvix.Noc

open Nanvix.Lib

/-- The communicator on which the event copies a message to the user. -/
def deliveredTo (e : Event State Act Out) : Option ℕ :=
  match e.act, e.out.ans with
  | .master _, some ans => if ans.copied.isSome then e.pre.master.target else none
  | .resume tid _, some ans => if ans.copied.isSome then (e.pre.waits tid).comm else none
  | _, _ => none

/-- The message `m` goes to the user on communicator `i`. -/
inductive Copies (F : Facility) (e : Event State Act Out) (i : ℕ) (m : Message) : Prop
  | stored (k : ℕ) (buf : Mbuffer) (hread : Reads F i k buf e) (hm : m = buf.message)
  | received (tid k : ℕ) (env : Env) (fd mbufferid ret : ℤ) (ans : Answer)
      (hact : e.act = .resume tid env) (hpc : e.pre.waits tid = .woken i fd mbufferid ret)
      (hget : mbufferGet F (e.pre.phys.ports (portOf F fd)).mbufferpool mbufferid = some k)
      (hans : e.out.ans = some ans)
      (hcopied : ans.copied =
        some ((e.pre.comms i).config.buffer, m.data.take (e.pre.comms i).config.size))
      (hm : m = (e.pre.phys.mbuffers k).message)

def takenBy (e : Event State Act Out) : Option ℕ :=
  match e.pre.master, e.post.master with
  | .opened _ _, .counting _ id => some id
  | _, _ => none

/-- The address is the one of a source that has been named. -/
def Names (F : Facility) (source : Option (ℤ × ℤ)) (addr : ℤ) : Prop :=
  ∃ rem port, source = some (rem, port) ∧ validNode F rem = true ∧ validPort F port = true ∧
    addr = laddressCompose F rem port

variable {F : Facility} {s : State} {i : ℕ} {env : Env} {ans : Answer} {e : Event State Act Out}

/-! ### Answers -/

/-- Only a success gives the user a message. -/
theorem CommOutcome.received {cfg : Config} {ty : CommType} {ph : Phys}
    (h : CommOutcome F s cfg env ty ans ph) (hc : ans.copied.isSome = true) :
    ty = .input ∧ ans.ret = .ok .received := by
  cases h with
  | aread hv ho =>
    cases ho with
    | stored => exact ⟨rfl, rfl⟩
    | refused | exhausted | failed | submitted => cases hc
  | awrite hv ho =>
    have hsub : ∀ {u v : Phys} {a p k : ℕ}, ¬ SubmitOutcome u a p k ans v := by
      intro u v a p k hs
      cases hs <;> cases hc
    cases ho with
    | fresh k _ _ _ _ _ hs => exact absurd hs hsub
    | retried k _ _ _ hs => exact absurd hs hsub
    | refused | starved | forwarded => cases hc

theorem WaitOutcome.received {u v : Phys} {a p k : ℕ} {ret : ℤ} {cfg : Config}
    (h : WaitOutcome F u a p k ret cfg ans v) (hc : ans.copied.isSome = true) :
    ans.ret = .ok .success ∧ (u.actives a).resource.isReadable = true ∧
      headerCheck F (u.mbuffers k).message.header cfg = true ∧
      ans.copied = some (cfg.buffer, (u.mbuffers k).message.data.take cfg.size) := by
  cases h with
  | consumed _ hread hcheck => exact ⟨rfl, hread, hcheck, rfl⟩
  | failed | ignored | written | plain => cases hc

theorem deliveredTo_of_none (h : e.out.ans = none) : deliveredTo e = none := by
  unfold deliveredTo
  rw [h]
  split <;> simp_all

theorem deliveredTo_operates {ty : CommType} {c : ℕ} (hop : Operates ty c env ans e) :
    deliveredTo e = if ans.copied.isSome then some c else none := by
  unfold deliveredTo
  rw [hop.act, hop.answer]
  dsimp only
  rw [hop.master]
  rfl

theorem deliveredTo_resume {tid : ℕ} (hact : e.act = .resume tid env) (hans : e.out.ans = some ans) :
    deliveredTo e = if ans.copied.isSome then (e.pre.waits tid).comm else none := by
  unfold deliveredTo
  rw [hact, hans]

/-- A read or write that delivers has found its message stored. -/
theorem Flight.reads (hf : Flight F e.pre) (hs : steps F e.pre e.act e.out e.post) {ty : CommType}
    (hop : Operates ty i env ans e) (hc : ans.copied.isSome = true) : ∃ k buf, Reads F i k buf e := by
  obtain ⟨-, -, ho⟩ := hf.outcome hs hop
  obtain ⟨rfl, hret⟩ := ho.received hc
  cases ho with
  | aread hv ho =>
    rcases ho.slots with ⟨-, -, hno⟩ | ⟨k, buf, hr⟩
    · exact absurd hret hno
    · exact ⟨k, buf, env, ans, hop, hr⟩

/-- Only `communicator_operate` and the last section of `active_wait` call an active that answers. -/
theorem answer_cases (hs : steps F e.pre e.act e.out e.post) (hans : e.out.ans = some ans) :
    (∃ ty c env, Operates ty c env ans e) ∨
      ∃ tid c env fd m ret, e.act = .resume tid env ∧ e.pre.waits tid = .woken c fd m ret := by
  obtain ⟨s, act, o, t⟩ := e
  dsimp only at hs hans
  cases steps_cases hs with
  | failed hpc => cases hans; exact .inl ⟨_, _, _, rfl, hpc, rfl⟩
  | operated hpc => cases hans; exact .inl ⟨_, _, _, rfl, hpc, rfl⟩
  | completed env hpc => exact .inr ⟨_, _, env, _, _, _, rfl, hpc⟩
  | quiet _ _ hno | collected _ _ _ _ _ hno | left _ _ _ hno | succeeded _ _ hno =>
    rw [hno] at hans; cases hans
  | _ => cases hans

/-- The message that an event delivers. -/
theorem Flight.copies (hf : Flight F e.pre) (hs : steps F e.pre e.act e.out e.post)
    (hd : deliveredTo e = some i) : ∃ m, Copies F e i m := by
  cases hans : e.out.ans with
  | none =>
    rw [deliveredTo_of_none hans] at hd
    cases hd
  | some ans =>
    rcases answer_cases hs hans with ⟨ty, c, env, hop⟩ | ⟨tid, c, env, fd, m, ret, hact, hpc⟩
    · rw [deliveredTo_operates hop] at hd
      split at hd
      · rename_i hc
        cases hd
        obtain ⟨k, buf, hr⟩ := hf.reads hs hop hc
        exact ⟨buf.message, .stored k buf hr rfl⟩
      · cases hd
    · rw [deliveredTo_resume hact hans, hpc] at hd
      split at hd
      · rename_i hc
        cases hd
        rw [hact] at hs
        obtain ⟨k, hget, ho⟩ := waitOutcome_of_woken hs hpc hans
        obtain ⟨-, -, -, hcopied⟩ := ho.received hc
        exact ⟨_, .received tid k env fd m ret ans hact hpc hget hans hcopied rfl⟩
      · cases hd

/-! ### Addresses -/

theorem takenBy_of_master (h : e.post.master = e.pre.master) : takenBy e = none := by
  unfold takenBy
  rw [h]
  cases e.pre.master <;> rfl

/-- The address of a valid node and port has these as its parts. -/
theorem laddress_parts {rem port : ℤ} (hnode : validNode F rem = true) (hport : validPort F port = true) :
    0 ≤ laddressCompose F rem port ∧ getActid F (laddressCompose F rem port) = rem ∧
      getPortid F (laddressCompose F rem port) = port := by
  simp only [validNode, validPort, decide_eq_true_eq] at hnode hport
  obtain ⟨n, rfl⟩ := Int.eq_ofNat_of_zero_le hnode.1
  obtain ⟨p, rfl⟩ := Int.eq_ofNat_of_zero_le hport.1
  have hp : p < F.portNr := by exact_mod_cast hport.2
  exact ⟨compose_nonneg F n p, getActid_compose hp, getPortid_compose hp⟩

/-- A filter that names a source lets its messages through and no others. -/
theorem Names.source {source : Option (ℤ × ℤ)} {addr : ℤ} (h : Names F source addr) {hd : Header}
    (hc : sourceCheck F hd addr = true) : source = some (getActid F hd.src, getPortid F hd.src) := by
  obtain ⟨rem, port, rfl, hnode, hport, rfl⟩ := h
  obtain ⟨hnonneg, hact, hpid⟩ := laddress_parts hnode hport
  simp only [validNode, validPort, decide_eq_true_eq] at hnode hport
  unfold sourceCheck at hc
  rw [if_neg (by omega), hact, hpid] at hc
  dsimp only at hc
  split at hc
  · cases hc
  rename_i hother
  split at hc
  · cases hc
  rename_i hother'
  have h1 : rem = getActid F hd.src := by
    by_contra hno
    exact hother ⟨by omega, hno⟩
  have h2 : port = getPortid F hd.src := by
    by_contra hno
    exact hother' ⟨by omega, hno⟩
  rw [h1, h2]

end Nanvix.Noc
