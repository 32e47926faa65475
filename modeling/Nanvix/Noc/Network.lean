import Nanvix.Lib.Network
import Nanvix.Noc.Flow

/-! The nodes of a processor. Every node runs a facility of its own, and the network brings a message
that one of them has given to its hardware to the node that the active leads to, once and in no
particular order. Along every run of all nodes messages are neither made up nor duplicated, they get
lost only for ports that are not in use, and the source that a header names is the port that has
sent the message. -/

namespace Nanvix.Noc

open Nanvix.Lib

/-- The message that an event gives to the hardware, and the node that its active leads to. -/
def transmitted (F : Facility) (e : Event State Act Out) : Option (ℕ × Message) :=
  match operation e with
  | some (_, c, ans) => ans.sent.map fun m =>
      ((e.pre.phys.actives (portOf F (e.pre.comms c).config.fd).1).remote.toNat, m)
  | none => none

def processor (F : ℕ → Facility) : Protocol ℕ State Act Out Message where
  steps n := steps (F n)
  takes n := received (F n)
  puts n := transmitted (F n)

/-- All nodes run from their initial states, and nothing is on the way. -/
def NetRuns (F : ℕ → Facility) (tr : List (Event (Net ℕ State Message) (ℕ × Act) Out))
    (s : Net ℕ State Message) : Prop :=
  ∃ s₀ : Net ℕ State Message, (∀ n, Init (F n) (s₀.node n)) ∧ (∀ n, s₀.wire n = []) ∧
    Run (Net.steps (processor F)) s₀ tr s

variable {F : ℕ → Facility} {tr : List (Event (Net ℕ State Message) (ℕ × Act) Out)}
  {s : Net ℕ State Message}

theorem NetRuns.own (h : NetRuns F tr s) (n : ℕ) : Runs (F n) (Net.ownTrace n tr) (s.node n) := by
  obtain ⟨s₀, h₀, -, hrun⟩ := h
  exact ⟨s₀.node n, h₀ n, Net.run_own hrun n⟩

theorem mem_ownTrace {n : ℕ} {x : Event State Act Out} (h : x ∈ Net.ownTrace n tr) :
    ∃ e ∈ tr, e.act.1 = n ∧ Net.own e = x := by
  obtain ⟨e, he, rfl⟩ := List.mem_map.mp h
  rw [List.mem_filter, decide_eq_true_eq] at he
  exact ⟨e, he.1, he.2, rfl⟩

theorem noOverlap_own (hn : ∀ e ∈ tr, NoOverlap (Net.own e)) (n : ℕ) :
    ∀ e ∈ Net.ownTrace n tr, NoOverlap e := by
  intro x hx
  obtain ⟨e, he, -, rfl⟩ := mem_ownTrace hx
  exact hn e he

/-- Whatever was sent to a node or written on it for itself is on the way, in the hands of a thread or
stored, or was given to a user, once; the rest was thrown away, because its port was not in use. -/
theorem network_conserves (h : NetRuns F tr s) (hn : ∀ e ∈ tr, NoOverlap (Net.own e)) (n : ℕ) :
    (∃ hand : Option Message, (∀ x, hand = some x ↔ InHand (F n) (s.node n) x) ∧
      (Net.sent (processor F) n tr ++ (Net.ownTrace n tr).filterMap (written (F n))).Perm
        (s.wire n ++ (hand.toList ++ (s.node n).phys.stored (F n)) ++
          ((Net.ownTrace n tr).filterMap (delivered (F n)) ++
            (Net.ownTrace n tr).filterMap (dropped (F n))))) ∧
      ∀ e ∈ Net.ownTrace n tr, ∀ x, dropped (F n) e = some x → Unclaimed (F n) e.pre.phys x := by
  have hruns := h.own n
  have hno := noOverlap_own hn n
  refine ⟨?_, fun e he x hx => ?_⟩
  · obtain ⟨hand, hh, hperm⟩ := messages_conserved hruns hno
    obtain ⟨s₀, -, hempty, hrun⟩ := h
    have hwire := Net.sent_perm hrun n
    rw [hempty n, List.nil_append] at hwire
    refine ⟨hand, hh, ?_⟩
    rw [List.perm_iff_count] at hperm hwire ⊢
    intro x
    have hx := hperm x
    have hw := hwire x
    have htaken : Net.taken (processor F) n tr = (Net.ownTrace n tr).filterMap (received (F n)) := rfl
    rw [htaken] at hw
    simp only [List.count_append] at hx hw ⊢
    omega
  · obtain ⟨hf, hs⟩ := flight_event hruns hno he
    unfold dropped at hx
    split_ifs at hx with hc
    cases hf.motion hs with
    | dropped y hexam hd hslot hport =>
      rw [hexam] at hx
      cases hx
      exact hport
    | kept k m hexam hd hact hk hfree hslot =>
      rw [gained_update hk hfree hslot] at hc
      cases hc.2
    | none hexam | written _ _ _ hexam | read _ _ _ hexam =>
      rw [hexam] at hx
      cases hx
    | consumed i y hexam hd hslot =>
      rw [hd] at hc
      cases hc.1

/-- The mailboxes of the nodes of a small processor. -/
def quadNode (n : ℕ) : Facility := Facility.mailbox { quadHal with
  node := n % 4
  node_lt := Nat.mod_lt n (by decide)
  nodeIsLocal := fun m => decide (m = (n % 4 : ℕ))
  nodeIsLocal_node := by simp
  nodeIsLocal_range := by
    intro m hm
    have hlt := Nat.mod_lt n (by decide : 0 < 4)
    rw [decide_eq_true_eq] at hm
    simp only [quadHal]
    omega } false

def quadNet : Net ℕ State Message where
  node n := initState (bootState (quadNode n) (fun _ => 0) 4 0)
  wire _ := []

/-- Node 0 writes to port 5 of node 1. -/
def sending : List Act := wholeOpen (.open 0 1 5) ++ [.call (.awrite 0 64 1), .master {}]

def byteSent : Message := ⟨{ dest := 22, src := 0 }, [0, 0, 0, 0, 0, 0, 0, 0]⟩

/-- Node 1 reads it. -/
def receiving : List Act :=
  wholeOpen (.create 1 5) ++ [.call (.aread 0 64 1), .master {}, .master {}, .wait 0 0, .resume 0 {},
    .resume 0 { arrived := byteSent }, .resume 0 {}]

/-- A check of an execution of the small processor in which one thread of each node waits. -/
theorem exists_netRuns_of_exec (as : List (ℕ × Act))
    (P : List (Event (Net ℕ State Message) (ℕ × Act) Out) × Net ℕ State Message → Prop) [DecidablePred P]
    (hone : ∀ a ∈ as, a.2.thread = none ∨ a.2.thread = some 0)
    (h : (exec (Net.step (fun n s a => (step (quadNode n) s a).toOption) (processor quadNode)) quadNet
      as).any (fun r => decide (P r)) = true) :
    ∃ tr s, NetRuns quadNode tr s ∧ (∀ e ∈ tr, NoOverlap (Net.own e)) ∧ P (tr, s) := by
  obtain ⟨tr, s, hrun, hacts, hp⟩ := exists_run_of_exec as P h
  have hruns : NetRuns quadNode tr s := ⟨quadNet, fun n => initState_init (boot_of_nonneg _ fun _ => le_rfl),
    fun _ => rfl, hrun.mono fun _ _ _ _ hs => Net.steps_of_step (fun _ _ _ _ _ => steps_of_toOption) hs⟩
  refine ⟨tr, s, hruns, fun e he => ?_, hp⟩
  refine noOverlap_of_one_thread (hruns.own e.act.1) (fun a ha => ?_) (Net.own e) (Net.own_mem he)
  obtain ⟨x, hx, rfl⟩ := List.mem_map.mp ha
  obtain ⟨w, hw, -, rfl⟩ := mem_ownTrace hx
  exact hone w.act (hacts ▸ List.mem_map_of_mem hw)

/-- The message that node 0 has sent is the one that the user of node 1 gets. -/
theorem network_conserves_byte : ∃ tr s, NetRuns quadNode tr s ∧ (∀ e ∈ tr, NoOverlap (Net.own e)) ∧
    Net.sent (processor quadNode) 1 tr = [byteSent] ∧ s.wire 1 = [] ∧
    ∃ hand : Option Message, [byteSent].Perm (hand.toList ++ (s.node 1).phys.stored (quadNode 1) ++
      ((Net.ownTrace 1 tr).filterMap (delivered (quadNode 1)) ++
        (Net.ownTrace 1 tr).filterMap (dropped (quadNode 1)))) := by
  obtain ⟨tr, s, h, hn, hsent, hwritten, hwire⟩ := exists_netRuns_of_exec
    (sending.map (0, ·) ++ receiving.map (1, ·))
    (fun r => Net.sent (processor quadNode) 1 r.1 = [byteSent] ∧
      (Net.ownTrace 1 r.1).filterMap (written (quadNode 1)) = [] ∧ r.2.wire 1 = []) (by decide)
    (by decide +kernel)
  obtain ⟨⟨hand, -, hperm⟩, -⟩ := network_conserves h hn 1
  dsimp only at hsent hwritten hwire
  rw [hsent, hwritten, hwire, List.append_nil, List.nil_append] at hperm
  exact ⟨tr, s, h, hn, hsent, hwire, hand, hperm⟩

/-! ### Sources -/

/-- A message that waits in an output port names that port as its source. -/
def Signed (F : Facility) (s : Phys) : Prop :=
  ∀ a p (k : ℕ), a ≠ 0 → (s.ports (a, p)).mbufferid = k →
    (s.mbuffers k).message.header.src = laddressCompose F F.node p

section Steps
variable {F : Facility} {s t : Phys} {e : Event State Act Out} {c : ℕ} {env : Env} {ans : Answer}

theorem Signed.keep (h : Signed F s) (hatt : ∀ ap : ℕ × ℕ, ap.1 ≠ 0 → KeepsAttached s t ap) : Signed F t := by
  intro a p k ha hk
  obtain ⟨hold, hmsg⟩ := hatt (a, p) ha k hk
  rw [hmsg]
  exact h a p k ha hold

/-- The address of an output communicator is the one of its port, and its port is on an output active. -/
theorem Flight.sender {s : State} (hf : Flight F s) (hu : (s.comms c).resource.used = true)
    (hfits : (s.comms c).fits .output = true) :
    ∃ a p, portOf F (s.comms c).config.fd = (a, p) ∧ a ≠ 0 ∧
      (s.comms c).config.localAddr = laddressCompose F F.node p := by
  obtain ⟨-, ty, a, p, hfits', hb, hloc⟩ := hf.accounts.comm c hu
  obtain rfl := fits_unique hfits hfits'
  refine ⟨a, p, hb.portOf_eq, fun h0 => ?_, hloc⟩
  cases hb.input_iff.mpr h0

/-- A write leaves in its port, or sends, a message that names the port. -/
theorem Signed.awrite {a p : ℕ} {cfg : Config} (h : Signed F s) (hown : Owned F s) (ha : a ≠ 0)
    (hloc : cfg.localAddr = laddressCompose F F.node p) (ho : AwriteOutcome F s a p cfg env ans t) :
    Signed F t ∧ ∀ m, ans.sent = some m → m.header.src = laddressCompose F F.node p := by
  obtain ⟨hport, hsent, -⟩ := ho.attached (P := fun m => m.header.src = laddressCompose F F.node p) hown
    (fun m l => (headerConfig_src _ _).trans hloc) fun k hk => h a p k ha hk
  refine ⟨fun b q k hb hk => ?_, hsent⟩
  by_cases hbq : (b, q) = (a, p)
  · cases hbq
    exact hport k hk
  · obtain ⟨hold, hmsg⟩ := KeepsAttached.awrite ho hown hbq k hk
    rw [hmsg]
    exact h b q k hb hold

theorem Signed.operates {s : State} {ty : CommType} {ph : Phys} (h : Signed F s.phys) (hf : Flight F s)
    (hpc : s.master = .operating ty c) (hu : (s.comms c).resource.used = true)
    (hfits : (s.comms c).fits ty = true) (ho : CommOutcome F s (s.comms c).config env s.doComm ans ph) :
    Signed F ph := by
  have hdo : s.doComm = ty := hf.dispatched.eq hpc
  rw [hdo] at ho
  cases ho with
  | aread hv ho =>
    obtain ⟨ty', a, p, hfits', hb, hport⟩ := hf.port hu
    obtain rfl := fits_unique hfits hfits'
    obtain rfl := hb.input_iff.mp rfl
    rw [hport] at ho
    exact h.keep fun ap hap => .aread ho hf.owned hap
  | awrite hv ho =>
    obtain ⟨a, p, hport, ha, hloc⟩ := hf.sender hu hfits
    rw [hport] at ho
    exact (h.awrite hf.owned ha hloc ho).1

theorem Signed.step (hf : Flight F e.pre) (hs : steps F e.pre e.act e.out e.post)
    (h : Signed F e.pre.phys) : Signed F e.post.phys := by
  obtain ⟨s, act, o, t⟩ := e
  dsimp only at hf hs h ⊢
  cases steps_cases hs with
  | opened hidle hcall hlocal hport hrem ho =>
    cases ho
    exact h.keep fun ap _ => .of_same (openPort_mbufferid ap) fun _ _ => rfl
  | rolledBack env hpc hv ho =>
    cases ho
    exact h.keep fun ap _ => .of_same (closePort_mbufferid ap) fun _ _ => rfl
  | freed hidle hcall hid hused hfits hbusy hv ho =>
    cases ho
    exact h.keep fun ap _ => .of_same (closePort_mbufferid ap) fun _ _ => rfl
  | failed hpc hused hfits hbusy ho hret => exact h.operates hf hpc hused hfits ho
  | operated hpc hused hfits hbusy ho hret => exact h.operates hf hpc hused hfits ho
  | woken env hpc => exact h.keep fun ap hap => .hwWait hf.owned hf.accounts.setup hap
  | completed env hpc hget ho =>
    obtain ⟨-, -, hl⟩ := hf.woken_loan hpc hget
    exact h.keep fun ap _ => .wait ho hf.owned hl.attached
  | _ => exact h

theorem signed_init {s : State} (h : Init F s) : Signed F s.phys := by
  obtain ⟨ph, hb, rfl⟩ := h
  obtain ⟨hwfd, c, rfl⟩ := hb.eq_bootState
  intro a p k _ hk
  have hk' : (-1 : ℤ) = k := hk
  omega

/-- What a node sends or stores for itself names the port of the communicator that has written it. -/
theorem source_of_event {tr : List (Event State Act Out)} {u : State} (h : Runs F tr u)
    (hn : ∀ e ∈ tr, NoOverlap e) (he : e ∈ tr) {x : Message}
    (hx : (∃ n, transmitted F e = some (n, x)) ∨ written F e = some x) :
    ∃ c env ans p, Operates .output c env ans e ∧ (portOf F (e.pre.comms c).config.fd).2 = p ∧
      x.header.src = laddressCompose F F.node p := by
  obtain ⟨hf, hs⟩ := flight_event h hn he
  have hsigned : Signed F e.pre.phys := by
    obtain ⟨s₀, h₀, hrun⟩ := h
    exact (hrun.invariant_of_mem (P := fun e => NoOverlap e) (I := fun s => Flight F s ∧ Signed F s.phys)
      ⟨flight_init h₀, signed_init h₀⟩ hn (fun e hs hno hi => ⟨hi.1.step hs hno, hi.2.step hi.1 hs⟩) he).1.2
  rcases hx with ⟨n, hx⟩ | hx
  · unfold transmitted at hx
    split at hx
    · rename_i ty c ans hop
      obtain ⟨env, hop⟩ := operates_of_operation hop
      obtain ⟨m, hm, heq⟩ := Option.map_eq_some_iff.mp hx
      cases heq
      obtain ⟨hu, hfits, ho⟩ := hf.outcome hs hop
      generalize e.post.phys = ph at ho
      cases ho with
      | aread hv ho => cases ho <;> cases hm
      | awrite hv ho =>
        obtain ⟨a, p, hport, ha, hloc⟩ := hf.sender hu hfits
        rw [hport] at ho
        exact ⟨c, env, ans, p, hop, by rw [hport], (hsigned.awrite hf.owned ha hloc ho).2 x hm⟩
    · cases hx
  · unfold written at hx
    split at hx
    · rename_i env hact
      cases hf.storeEvent hs with
      | same hslot => rw [gained_self hslot] at hx; cases hx
      | written c env' k m ans hop hret hforw =>
        rw [gained_update hforw.lt hforw.free hforw.slots] at hx
        cases hx
        obtain ⟨hu, hfits, -⟩ := hf.outcome hs hop
        obtain ⟨a, p, hport, -, hloc⟩ := hf.sender hu hfits
        exact ⟨c, env', ans, p, hop, by rw [hport], hforw.header.1.trans hloc⟩
      | kept tid c k m hk =>
        obtain ⟨env', hact'⟩ := hk.act
        rw [hact] at hact'
        cases hact'
      | read c k m hr =>
        obtain ⟨env', ans, hop, hret⟩ := hr
        obtain ⟨hfree, hback⟩ := slot_of_read hret.stored hret.slots
        rw [gained_update_none hfree hback] at hx
        cases hx
    · cases hx

/-- What goes to a user is in the hands of a thread or stored. -/
theorem Copies.present {i : ℕ} {x : Message} (hf : Flight F e.pre) (hs : steps F e.pre e.act e.out e.post)
    (hin : ∀ k m, e.pre.phys.slot k = some m → k < F.mbufferMax) (h : Copies F e i x) :
    InHand F e.pre x ∨ x ∈ e.pre.phys.stored F := by
  cases h with
  | stored k buf hread hm =>
    obtain ⟨env, ans, hop, hret⟩ := hread
    refine .inr (List.mem_filterMap.mpr ⟨k, List.mem_range.mpr (hin k buf hret.stored), ?_⟩)
    rw [hret.stored, hm]
    rfl
  | received tid k env fd j ret ans hact hpc hget hans hcopied hm =>
    rw [hact] at hs
    obtain ⟨k', hget', ho⟩ := waitOutcome_of_woken hs hpc hans
    rw [hget] at hget'
    cases hget'
    obtain ⟨-, -, hk⟩ := hf.woken_loan hpc hget
    have hplaced := hf.placed tid
    rw [hpc] at hplaced
    obtain ⟨-, -, k', rfl, hk'⟩ := hplaced
    obtain rfl := Option.some.inj (hk.lent.symm.trans hk'.lent)
    obtain ⟨-, hread, -⟩ := ho.received (by rw [hcopied]; rfl)
    have hzero : ret = 0 := by
      by_contra hne
      generalize e.post.phys = ph at ho
      cases ho with
      | failed => cases hcopied
      | consumed h0 | ignored h0 | written h0 | plain h0 => exact hne h0
    rw [hzero] at hpc
    exact .inl ⟨tid, i, fd, k, hpc, hread, by rw [hm]; rfl⟩

end Steps

/-- A message that goes to a user was written before, by the output port that its header names as the
source: on the node that this address belongs to, which has sent it to the node of the reader or is
that node. -/
theorem deliveries_authentic (h : NetRuns F tr s) (hn : ∀ e ∈ tr, NoOverlap (Net.own e))
    {l r : List (Event (Net ℕ State Message) (ℕ × Act) Out)}
    {e : Event (Net ℕ State Message) (ℕ × Act) Out} (htr : tr = l ++ e :: r) {i : ℕ} {x : Message}
    (hx : Copies (F e.act.1) (Net.own e) i x) :
    ∃ w ∈ l, ∃ c env ans p, Operates .output c env ans (Net.own w) ∧
      (portOf (F w.act.1) ((Net.own w).pre.comms c).config.fd).2 = p ∧
      x.header.src = laddressCompose (F w.act.1) (F w.act.1).node p ∧
      (transmitted (F w.act.1) (Net.own w) = some (e.act.1, x) ∨
        w.act.1 = e.act.1 ∧ written (F w.act.1) (Net.own w) = some x) := by
  have hmem : ∀ w ∈ l, w ∈ tr := fun w hw => by rw [htr]; simp [hw]
  -- the trace up to the delivery is a run of all nodes as well
  obtain ⟨hl, hstep⟩ : NetRuns F l e.pre ∧
      steps (F e.act.1) (Net.own e).pre (Net.own e).act (Net.own e).out (Net.own e).post := by
    obtain ⟨s₀, h₀, hempty, hrun⟩ := h
    rw [htr] at hrun
    exact ⟨⟨s₀, h₀, hempty, hrun.at_event.1⟩, hrun.at_event.2.1.1⟩
  have hnl : ∀ w ∈ l, NoOverlap (Net.own w) := fun w hw => hn w (hmem w hw)
  have hownl := noOverlap_own hnl e.act.1
  have hf : Flight (F e.act.1) (Net.own e).pre := flight_runs (hl.own e.act.1) hownl
  obtain ⟨hand, hh, hperm⟩ := (network_conserves hl hnl e.act.1).1
  have hpresent : x ∈ hand.toList ++ (e.pre.node e.act.1).phys.stored (F e.act.1) := by
    rcases hx.present hf hstep fun k m hk => slot_lt (hl.own e.act.1) hownl hk with hhand | hstored
    · exact List.mem_append_left _ (by rw [(hh x).mpr hhand]; simp)
    · exact List.mem_append_right _ hstored
  have hcame := hperm.mem_iff.mpr (List.mem_append_left _ (List.mem_append_right _ hpresent))
  rcases List.mem_append.mp hcame with hsent | hwritten
  · obtain ⟨w, hw, hput⟩ := Net.exists_put hsent
    obtain ⟨c, env, ans, p, hop, hport, hsrc⟩ := source_of_event (hl.own w.act.1) (noOverlap_own hnl w.act.1)
      (Net.own_mem hw) (.inl ⟨_, hput⟩)
    exact ⟨w, hw, c, env, ans, p, hop, hport, hsrc, .inl hput⟩
  · obtain ⟨y, hy, hwr⟩ := List.mem_filterMap.mp hwritten
    obtain ⟨c, env, ans, p, hop, hport, hsrc⟩ := source_of_event (hl.own e.act.1) hownl hy (.inr hwr)
    obtain ⟨w, hw, hnode, rfl⟩ := mem_ownTrace hy
    rw [← hnode] at hwr hport hsrc
    exact ⟨w, hw, c, env, ans, p, hop, hport, hsrc, .inr ⟨hnode, hwr⟩⟩

/-- The user of node 1 gets a message of node 0, which has sent it from the port that it names. -/
theorem deliveries_authentic_byte : ∃ tr s, NetRuns quadNode tr s ∧ (∀ e ∈ tr, NoOverlap (Net.own e)) ∧
    ∃ l e r i x, tr = l ++ e :: r ∧ Copies (quadNode e.act.1) (Net.own e) i x ∧
      ∃ w ∈ l, ∃ p : ℕ, x.header.src = laddressCompose (quadNode w.act.1) (quadNode w.act.1).node p := by
  obtain ⟨tr, s, h, hn, hev⟩ := exists_netRuns_of_exec (sending.map (0, ·) ++ receiving.map (1, ·))
    (fun r => (r.1[14]?).any fun e => (deliveredTo (Net.own e)).isSome) (by decide) (by decide +kernel)
  dsimp only at hev
  obtain ⟨e, htr, hd⟩ := exists_event_at 14 hev
  obtain ⟨i, hi⟩ := Option.isSome_iff_exists.mp hd
  have he : e ∈ tr := by rw [htr]; simp
  obtain ⟨hf, hs⟩ := flight_event (h.own e.act.1) (noOverlap_own hn e.act.1) (Net.own_mem he)
  obtain ⟨x, hx⟩ := hf.copies hs hi
  obtain ⟨w, hw, c, env, ans, p, -, -, hsrc, -⟩ := deliveries_authentic h hn htr hx
  exact ⟨tr, s, h, hn, _, e, _, i, x, htr, hx, w, hw, p, hsrc⟩

end Nanvix.Noc
