import Nanvix.Noc.Authority

/-! Addresses nobody has checked. An address packs a node and a port, and one value past the last
node and the last port is the wildcard of each. The decoding functions take any `int`: `active_wait`
applies them to the destination in the header of a message that came over the network and uses the
port it gets as an index, and the set-remote request packs whatever pair its caller gives. -/

namespace Nanvix.Noc

open Nanvix.Lib

variable {F : Facility}

/-! ### The destination of a message -/

section Destination
variable {s : Phys} {a k : ℕ} {cfg : Config} {h : Header}

/-- The entry of the port table that `active_wait` looks at: none if the message is for the caller. -/
def keepIndex (F : Facility) (h : Header) (cfg : Config) : Option ℤ :=
  if headerCheck F h cfg then none else some (getPortid F h.dest)

def InTable (F : Facility) (q : ℤ) : Prop := 0 ≤ q ∧ q < F.portNr

instance (F : Facility) (q : ℤ) : Decidable (InTable F q) := inferInstanceAs (Decidable (_ ∧ _))

/-- The destination is the address of a port on some node, not of its wildcard. -/
def OfPort (F : Facility) (dest : ℤ) : Prop := 0 ≤ dest ∧ dest % (F.portNr + 1) ≠ F.portNr

theorem getPortid_inTable_iff (dest : ℤ) : InTable F (getPortid F dest) ↔ OfPort F dest := by
  unfold InTable OfPort getPortid
  split
  · omega
  · rename_i hneg
    have h0 : 0 ≤ dest % (F.portNr + 1) := Int.emod_nonneg _ (by omega)
    have hlt : dest % (F.portNr + 1) < F.portNr + 1 := Int.emod_lt_of_pos _ (by omega)
    omega

/-- What lies outside of the table decides the answer exactly if the entry is not in it. -/
theorem waitReceive_stray_iff :
    (∀ env b, waitReceive F s a k cfg { env with stray := b } = waitReceive F s a k cfg env) ↔
      ∀ q ∈ keepIndex F (s.mbuffers k).message.header cfg, InTable F q := by
  unfold waitReceive keepIndex InTable
  by_cases hc : headerCheck F (s.mbuffers k).message.header cfg = true
  · simp [hc]
  · simp only [hc, Bool.false_eq_true, if_false, Option.mem_some_iff, forall_eq']
    constructor
    · intro hsame
      by_contra hout
      have := hsame { stray := false } true
      simp [hout] at this
    · intro hin env b
      simp only [if_pos hin]

theorem laddressCompose_ofPort {n p : ℕ} (hp : p < F.portNr) : OfPort F (laddressCompose F n p) := by
  rw [← getPortid_inTable_iff, getPortid_compose hp]
  exact ⟨by omega, by omega⟩

/-- A message that passes the header check of a port of the node has a port as its destination. -/
theorem ofPort_of_headerCheck {n p : ℕ} (hp : p < F.portNr) (hloc : cfg.localAddr = laddressCompose F n p)
    (hc : headerCheck F h cfg = true) : OfPort F h.dest := by
  have hdest : h.dest = cfg.localAddr := by
    simp only [headerCheck, Bool.and_eq_true, beq_iff_eq] at hc
    exact hc.1
  rw [hdest, hloc]
  exact laddressCompose_ofPort hp

theorem keepIndex_inTable_iff :
    (∀ q ∈ keepIndex F h cfg, InTable F q) ↔ headerCheck F h cfg = true ∨ OfPort F h.dest := by
  unfold keepIndex
  by_cases hc : headerCheck F h cfg = true
  · simp [hc]
  · simp only [hc, Bool.false_eq_true, if_false, Option.mem_some_iff, forall_eq', false_or]
    exact getPortid_inTable_iff h.dest

/-- In every reachable state the entry for a message that a communicator gets is in the table exactly
if the message is addressed to a port. -/
theorem keepIndex_inTable_of_runs {tr : List (Event State Act Out)} {s : State} {c : ℕ}
    (hr : Runs F tr s) (hu : (s.comms c).resource.used = true) :
    (∀ q ∈ keepIndex F h (s.comms c).config, InTable F q) ↔ OfPort F h.dest := by
  rw [keepIndex_inTable_iff, or_iff_right_of_imp]
  obtain ⟨-, ty, b, p, -, hb, hloc⟩ := (accounts_runs hr).comm c hu
  exact ofPort_of_headerCheck hb.port_lt hloc

end Destination

/-- A message makes `active_wait` look at an entry of the port table, and not at what lies around the
table, exactly if it is for the caller or its destination is the address of a port. -/
theorem waitReceive_inTable_iff (F : Facility) (s : Phys) (a k : ℕ) (cfg : Config) :
    ((∀ q ∈ keepIndex F (s.mbuffers k).message.header cfg, InTable F q) ↔
      headerCheck F (s.mbuffers k).message.header cfg = true ∨
        OfPort F (s.mbuffers k).message.header.dest) ∧
    ((∀ env b, waitReceive F s a k cfg { env with stray := b } = waitReceive F s a k cfg env) ↔
      headerCheck F (s.mbuffers k).message.header cfg = true ∨
        OfPort F (s.mbuffers k).message.header.dest) :=
  ⟨keepIndex_inTable_iff, waitReceive_stray_iff.trans keepIndex_inTable_iff⟩

/-- A facility comes to a wait that has received a message with this destination in mbuffer 0 and is
about to use it as an index outside of the port table. -/
def Strays (F : Facility) (dest : ℤ) : Prop :=
  ∃ tr s, Runs F tr s ∧ s.waits 0 = .woken 0 3 0 0 ∧ (s.phys.mbuffers 0).message.header.dest = dest ∧
    keepIndex F (s.phys.mbuffers 0).message.header (s.comms 0).config = some dest ∧ ¬ InTable F dest

/-- A communicator is created on port 3 and reads, and the message `m` arrives. -/
def readAndReceive (between : List Act) (m : Message) : List Act :=
  wholeOpen (.create 0 3) ++ between ++
    [.call (.aread 0 64 1), .master {}, .master {}, .wait 0 0, .resume 0 {}, .resume 0 { arrived := m }]

theorem strays_of_exec {ph : Phys} {dest : ℤ} (between : List Act) (hb : Boot F ph) (hout : ¬ InTable F dest)
    (h : (exec (fun s a => (step F s a).toOption) (initState ph)
      (readAndReceive between { header := { dest := dest }, data := [1] })).any (fun r => decide
        (r.2.waits 0 = .woken 0 3 0 0 ∧ (r.2.phys.mbuffers 0).message.header.dest = dest ∧
          keepIndex F (r.2.phys.mbuffers 0).message.header (r.2.comms 0).config = some dest)) = true) :
    Strays F dest := by
  obtain ⟨tr, s, hrun, -, hw, hdest, hidx⟩ := exists_runs_of_exec hb _ (fun r =>
    r.2.waits 0 = .woken 0 3 0 0 ∧ (r.2.phys.mbuffers 0).message.header.dest = dest ∧
      keepIndex F (r.2.phys.mbuffers 0).message.header (r.2.comms 0).config = some dest) h
  exact ⟨tr, s, hrun, hw, hdest, hidx, hout⟩

/-- A negative destination is used as it is, and that of the wildcard is one past the table, in
mailboxes and in portals. -/
theorem not_waitReceive_inTable : Strays quadMailbox (-5) ∧ Strays quadMailbox 16 ∧
    Strays quadPortal (-5) ∧ Strays quadPortal 16 :=
  ⟨strays_of_exec [] quadBoot_boot (by decide) (by decide +kernel),
    strays_of_exec [] quadBoot_boot (by decide) (by decide +kernel),
    strays_of_exec [.call (.allow 0 1 2)] portalBoot_boot (by decide) (by decide +kernel),
    strays_of_exec [.call (.allow 0 1 2)] portalBoot_boot (by decide) (by decide +kernel)⟩

/-! ### The source of a filter -/

section Source
variable {addr node port : ℤ} {h : Header} {n p : ℕ}

/-- The pair given to the set-remote request is to let through the messages of port `p` of node `n`. -/
def Admits (F : Facility) (node port : ℤ) (n p : ℕ) : Prop :=
  (node = F.nodesNum ∨ node = n) ∧ (port = F.portNr ∨ port = p)

instance (F : Facility) (node port : ℤ) (n p : ℕ) : Decidable (Admits F node port n p) :=
  inferInstanceAs (Decidable (_ ∧ _))

/-- A read with this configuration accepts the messages the pair is to let through and no others. -/
def Selects (F : Facility) (cfg : Config) (node port : ℤ) : Prop :=
  ∀ n < F.nodesNum, ∀ p < F.portNr, ∀ m : Mbuffer, m.message.header.dest = cfg.localAddr →
    m.message.header.src = laddressCompose F n p → (Accepts F cfg m ↔ Admits F node port n p)

/-- A node and a port, or the wildcards of these. -/
def InRange (F : Facility) (node port : ℤ) : Prop :=
  (0 ≤ node ∧ node ≤ F.nodesNum) ∧ 0 ≤ port ∧ port ≤ F.portNr

instance (F : Facility) (node port : ℤ) : Decidable (InRange F node port) :=
  inferInstanceAs (Decidable (_ ∧ _))

/-- What a filter lets through is decided by the parts of its address; -1 lets everything through. -/
theorem sourceCheck_iff (hp : p < F.portNr) (hsrc : h.src = laddressCompose F n p) :
    sourceCheck F h addr = true ↔ addr = -1 ∨ Admits F (getActid F addr) (getPortid F addr) n p := by
  unfold sourceCheck Admits
  rw [hsrc, getActid_compose hp, getPortid_compose hp]
  by_cases h1 : addr = -1
  · simp [h1]
  · simp only [h1, if_false, false_or]
    split <;> rename_i hnode
    · simp only [Bool.false_eq_true, false_iff]
      tauto
    · split <;> rename_i hport
      · simp only [Bool.false_eq_true, false_iff]
        tauto
      · simp only [true_iff]
        tauto

/-- A filter lets nothing through exactly if its address is no packed pair and not -1. -/
theorem admits_none_iff :
    (∀ n < F.nodesNum, ∀ p < F.portNr, ¬ (addr = -1 ∨ Admits F (getActid F addr) (getPortid F addr) n p)) ↔
      addr < -1 ∨ (F.nodesNum + 1) * (F.portNr + 1) ≤ addr := by
  have hN : 0 < F.nodesNum := Nat.zero_lt_of_lt F.node_lt
  have hP := F.portNr_pos
  have hW : (0 : ℤ) < F.portNr + 1 := by omega
  constructor
  · intro hnone
    by_contra hin
    push Not at hin
    by_cases h1 : addr = -1
    · exact hnone 0 hN 0 hP (.inl h1)
    have h0 : ¬ addr < 0 := by omega
    have hact : addr / (F.portNr + 1) ≤ F.nodesNum := by
      have := Int.ediv_lt_of_lt_mul hW hin.2
      omega
    have hact0 : 0 ≤ addr / (F.portNr + 1) := Int.ediv_nonneg (by omega) (by omega)
    have hprt0 : 0 ≤ addr % (F.portNr + 1) := Int.emod_nonneg _ (by omega)
    have hprt : addr % (F.portNr + 1) < F.portNr + 1 := Int.emod_lt_of_pos _ hW
    -- A wildcard lets node 0 or port 0 through, another part itself.
    obtain ⟨n, hn, hnode⟩ : ∃ n < F.nodesNum, getActid F addr = F.nodesNum ∨ getActid F addr = n := by
      rw [getActid, if_neg h0]
      by_cases hw : addr / (F.portNr + 1) = F.nodesNum
      · exact ⟨0, hN, .inl hw⟩
      · exact ⟨(addr / (F.portNr + 1)).toNat, by omega, .inr (by omega)⟩
    obtain ⟨p, hp, hport⟩ : ∃ p < F.portNr, getPortid F addr = F.portNr ∨ getPortid F addr = p := by
      rw [getPortid, if_neg h0]
      by_cases hw : addr % (F.portNr + 1) = F.portNr
      · exact ⟨0, hP, .inl hw⟩
      · exact ⟨(addr % (F.portNr + 1)).toNat, by omega, .inr (by omega)⟩
    exact hnone n hn p hp (.inr ⟨hnode, hport⟩)
  · rintro hout n hn p hp (h1 | ⟨hnode, -⟩)
    · subst h1
      have : (0 : ℤ) ≤ (F.nodesNum + 1) * (F.portNr + 1) := by positivity
      omega
    · rcases hout with hneg | hbig
      · rw [getActid, if_pos (by omega)] at hnode
        omega
      · have h0 : (0 : ℤ) ≤ (F.nodesNum + 1) * (F.portNr + 1) := by positivity
        have hact : (F.nodesNum : ℤ) + 1 ≤ addr / (F.portNr + 1) := (Int.le_ediv_iff_mul_le hW).mpr hbig
        rw [getActid, if_neg (by omega)] at hnode
        omega

theorem not_admits_of_not_inRange (hr : ¬ InRange F node port) (hn : n < F.nodesNum) (hp : p < F.portNr) :
    ¬ Admits F node port n p := by
  unfold InRange Admits at *
  omega

/-- A pair in range is packed without overflow and unpacked again. -/
theorem laddressCalc_parts (hgeo : (F.nodesNum + 1) * (F.portNr + 1) ≤ 2 ^ 31) (hr : InRange F node port) :
    0 ≤ laddressCalc F node port ∧ getActid F (laddressCalc F node port) = node ∧
      getPortid F (laddressCalc F node port) = port := by
  obtain ⟨⟨hn0, hn⟩, hp0, hp⟩ := hr
  have hcomp : laddressCompose F node port < (F.nodesNum + 1) * (F.portNr + 1) := by
    unfold laddressCompose
    nlinarith
  have h0 : 0 ≤ laddressCompose F node port := by
    unfold laddressCompose
    positivity
  have hgeo' : ((F.nodesNum : ℤ) + 1) * (F.portNr + 1) ≤ 2 ^ 31 := by exact_mod_cast hgeo
  have heq : laddressCalc F node port = laddressCompose F node port :=
    Int.bmod_eq_of_le (by omega) (by omega)
  rw [heq]
  refine ⟨h0, ?_, ?_⟩
  · rw [getActid, if_neg (by omega), laddressCompose, add_comm, Int.add_mul_ediv_right _ _ (by omega),
      Int.ediv_eq_zero_of_lt hp0 (by omega), zero_add]
  · rw [getPortid, if_neg (by omega), laddressCompose, add_comm, Int.add_mul_emod_self_right,
      Int.emod_eq_of_lt hp0 (by omega)]

/-- A filter packed from a pair selects what the pair says exactly if the pair is in range or the
address lets nothing through. -/
theorem selects_iff {cfg : Config} (hgeo : (F.nodesNum + 1) * (F.portNr + 1) ≤ 2 ^ 31)
    (haddr : cfg.remoteAddr = laddressCalc F node port) :
    Selects F cfg node port ↔ InRange F node port ∨ laddressCalc F node port < -1 ∨
      (F.nodesNum + 1) * (F.portNr + 1) ≤ laddressCalc F node port := by
  by_cases hr : InRange F node port
  · refine iff_of_true ?_ (.inl hr)
    intro n _ p hp m hdest hsrc
    obtain ⟨h0, hact, hport⟩ := laddressCalc_parts hgeo hr
    rw [Accepts, haddr, sourceCheck_iff hp hsrc, hact, hport]
    simp [hdest, show laddressCalc F node port ≠ -1 by omega]
  · rw [← admits_none_iff]
    simp only [hr, false_or]
    refine forall₄_congr fun n hn p hp => ?_
    constructor
    · intro hsel hacc
      let m : Mbuffer := { message := { header := { dest := cfg.localAddr, src := laddressCompose F n p } } }
      have hc : sourceCheck F m.message.header cfg.remoteAddr = true := by
        rw [haddr, sourceCheck_iff hp rfl]
        exact hacc
      exact not_admits_of_not_inRange hr hn hp ((hsel m rfl rfl).mp ⟨rfl, hc⟩)
    · intro hnone m hdest hsrc
      refine iff_of_false ?_ (not_admits_of_not_inRange hr hn hp)
      rintro ⟨-, hc⟩
      rw [haddr, sourceCheck_iff hp hsrc] at hc
      exact hnone hc

/-- The set-remote request takes any pair. -/
theorem step_setRemote {s t : State} {id : ℤ} {o : Out}
    (hstep : step F s (.call (.ioctl id (some (.setRemote node port)))) = .ok (o, t))
    (hret : o.ret = some (.ok 0)) :
    t = s.setComm id.toNat { s.comms id.toNat with
        config := { (s.comms id.toNat).config with remoteAddr := laddressCalc F node port } } ∧
      ∀ node' port', ∃ t', step F s (.call (.ioctl id (some (.setRemote node' port')))) =
        .ok ({ ret := some (.ok 0) }, t') := by
  simp only [step, kernelCall, kernelIoctl, communicatorIoctl] at hstep ⊢
  split at hstep
  · rename_i hm
    split at hstep
    · cases hstep; cases hret
    rename_i hid
    split at hstep
    · cases hstep; cases hret
    rename_i hused
    split at hstep
    · cases hstep; cases hret
    rename_i hbusy
    cases hstep
    refine ⟨rfl, fun node' port' => ?_⟩
    rw [if_pos hm, if_neg hid, if_neg hused, if_neg hbusy]
    exact ⟨_, rfl⟩
  · cases hstep
    cases hret

end Source

/-- What the set-remote request is to do with a pair: if it takes the pair, the next read accepts what
the pair says, and a pair that is no node and port, wildcards included, is not taken. -/
def Filters (F : Facility) (s : State) (id node port : ℤ) : Prop :=
  ∃ o t, step F s (.call (.ioctl id (some (.setRemote node port)))) = .ok (o, t) ∧
    (o.ret = some (.ok 0) → Selects F (t.comms id.toNat).config node port) ∧
    (¬ InRange F node port → o.ret ≠ some (.ok 0))

/-- Where the set-remote request on an input mailbox takes a pair it takes every pair, and it does what
it is to do exactly with the pairs that are a node and a port, wildcards included. The next read
accepts what the pair says also if the 32-bit address of the pair happens to be that of no node. -/
theorem setRemote_selects_iff (hgeo : (F.nodesNum + 1) * (F.portNr + 1) ≤ 2 ^ 31) {s t : State} {id : ℤ}
    {node port : ℤ} {o : Out}
    (hstep : step F s (.call (.ioctl id (some (.setRemote node port)))) = .ok (o, t))
    (hret : o.ret = some (.ok 0)) :
    (∀ node' port', Filters F s id node' port' ↔ InRange F node' port') ∧
    (Selects F (t.comms id.toNat).config node port ↔ InRange F node port ∨
      laddressCalc F node port < -1 ∨ (F.nodesNum + 1) * (F.portNr + 1) ≤ laddressCalc F node port) ∧
    ∀ node' port', ∃ t', step F s (.call (.ioctl id (some (.setRemote node' port')))) =
      .ok ({ ret := some (.ok 0) }, t') := by
  have hsel : ∀ {node port o t}, step F s (.call (.ioctl id (some (.setRemote node port)))) = .ok (o, t) →
      o.ret = some (.ok 0) → (Selects F (t.comms id.toNat).config node port ↔ InRange F node port ∨
        laddressCalc F node port < -1 ∨ (F.nodesNum + 1) * (F.portNr + 1) ≤ laddressCalc F node port) := by
    intro node port o t hstep hret
    rw [(step_setRemote hstep hret).1]
    exact selects_iff hgeo (by simp)
  have hall := (step_setRemote hstep hret).2
  refine ⟨fun node' port' => ⟨?_, fun hr => ?_⟩, hsel hstep hret, hall⟩
  · rintro ⟨o', t', hstep', -, hreject⟩
    by_contra hr
    obtain ⟨t'', htaken⟩ := hall node' port'
    rw [htaken] at hstep'
    cases hstep'
    exact hreject hr rfl
  · obtain ⟨t', htaken⟩ := hall node' port'
    exact ⟨_, t', htaken, fun _ => (hsel htaken rfl).mpr (.inl hr), fun hno => absurd hr hno⟩

/-- A mailbox is created on port 3 and its filter is set. -/
def filterRun (node port : ℤ) : List Act :=
  wholeOpen (.create 0 3) ++ [.call (.ioctl 0 (some (.setRemote node port)))]

/-- A filter for port 2 of node 1 works, and one for port -1 would not. -/
theorem setRemote_selects_named : ∃ l e u, Runs quadMailbox (l ++ [e]) u ∧
    (l ++ [e]).map (·.act) = filterRun 1 2 ∧ e.out.ret = some (.ok 0) ∧
    Selects quadMailbox (e.post.comms 0).config 1 2 ∧ Filters quadMailbox e.pre 0 1 2 ∧
    ¬ Filters quadMailbox e.pre 0 1 (-1) := by
  obtain ⟨l, e, u, hrun, hacts, hact, hret⟩ := exists_runs_last quadBoot_boot (wholeOpen (.create 0 3))
    (.call (.ioctl 0 (some (.setRemote 1 2)))) (fun _ e => e.out.ret = some (.ok 0)) (by decide +kernel)
  have hstep : step quadMailbox e.pre e.act = .ok (e.out, e.post) := by
    obtain ⟨s₀, -, hrun⟩ := hrun
    exact hrun.at_event.2.1
  rw [hact] at hstep
  obtain ⟨hfilters, hselects, -⟩ := setRemote_selects_iff (by decide) hstep hret
  refine ⟨l, e, u, hrun, hacts, hret, hselects.mpr (.inl (by decide)), (hfilters 1 2).mpr (by decide), ?_⟩
  exact fun h => absurd ((hfilters 1 (-1)).mp h) (by decide)

/-- The request takes a pair that is no node and port, and the next read then accepts a message of port
5 of node 0 that the pair does not admit. -/
def TakesWrong (node port : ℤ) : Prop :=
  ∃ l e u, Runs quadMailbox (l ++ [e]) u ∧ (l ++ [e]).map (·.act) = filterRun node port ∧
    e.out.ret = some (.ok 0) ∧ ¬ InRange quadMailbox node port ∧ ¬ Admits quadMailbox node port 0 5 ∧
    Accepts quadMailbox (e.post.comms 0).config { message := { header := { dest := 3, src := 5 } } }

theorem takesWrong_of_exec {node port : ℤ} (hr : ¬ InRange quadMailbox node port)
    (ha : ¬ Admits quadMailbox node port 0 5)
    (h : (exec (fun s a => (step quadMailbox s a).toOption) (initState quadBoot) (wholeOpen (.create 0 3))).any
      (fun r => (step quadMailbox r.2 (.call (.ioctl 0 (some (.setRemote node port))))).toOption.any
        fun x => decide (x.1.ret = some (.ok 0) ∧ (x.2.comms 0).config.localAddr = 3 ∧
          sourceCheck quadMailbox { dest := 3, src := 5 } (x.2.comms 0).config.remoteAddr = true)) = true) :
    TakesWrong node port := by
  obtain ⟨l, e, u, hrun, hacts, -, hret, hloc, hc⟩ := exists_runs_last quadBoot_boot
    (wholeOpen (.create 0 3)) (.call (.ioctl 0 (some (.setRemote node port))))
    (fun _ e => e.out.ret = some (.ok 0) ∧ (e.post.comms 0).config.localAddr = 3 ∧
      sourceCheck quadMailbox { dest := 3, src := 5 } (e.post.comms 0).config.remoteAddr = true) h
  exact ⟨l, e, u, hrun, hacts, hret, hr, ha, hloc.symm, hc⟩

/-- Node 1 with port -1 is taken for any port of node 0, node -1 with the wildcard of ports for no
filter at all, and the address of node 252645135 overflows. -/
theorem not_setRemote_selects : TakesWrong 1 (-1) ∧ TakesWrong (-1) 16 ∧ TakesWrong 252645135 6 :=
  ⟨takesWrong_of_exec (by decide) (by decide) (by decide +kernel),
    takesWrong_of_exec (by decide) (by decide) (by decide +kernel),
    takesWrong_of_exec (by decide) (by decide) (by decide +kernel)⟩

end Nanvix.Noc
