import Nanvix.Noc.Outcome

/-! Initialisation of a facility: the tables are cleared, one input active is
created for the node, and one output active is opened to every node. The loop
over the nodes fills the table of actives in order, so the state it ends in can
be written down. -/

namespace Nanvix.Noc

open Function

variable (F : Facility)

def tableInit : Phys where
  actives := fun _ => { requests := { maxCapacity := F.portNr } }
  ports := fun _ => {}
  mbuffers := fun _ => { message := ⟨{}, List.replicate F.dataSize 0⟩ }
  age := 0
  lent := fun _ => none
  clockError := 0

def hwActiveAlloc (s : Phys) : Option (ℕ × Phys) :=
  match (List.range F.hwMax).find? fun i => !(s.actives i).resource.used with
  | some i => some (i, s.setActive i { s.actives i with resource := { used := true } })
  | none => none

def hwActiveFree (s : Phys) (a : ℕ) : Phys :=
  s.setActive a { s.actives a with resource := { (s.actives a).resource with used := false } }

/-- The fields that `_active_create` and `_active_open` set on a fresh active. -/
def Phys.initActive (s : Phys) (a : ℕ) (hwfd loc rem : ℤ) (access : Access) : Phys :=
  s.setActive a { s.actives a with
    allowed := false
    hwfd := hwfd
    localNode := loc
    remote := rem
    refcount := 0
    resource := { (s.actives a).resource with busy := false, access := access } }

/-- `_active_create`, when the hardware returns `hwfd`. -/
def hwActiveCreate (s : Phys) (loc hwfd : ℤ) : Except Err ℕ × Phys :=
  match activeSearch F s loc (-1) .input with
  | .ok a => (.ok a, s)
  | .error _ =>
    match hwActiveAlloc F s with
    | none => (.error .EAGAIN, s)
    | some (a, s) =>
      if hwfd < 0 then (.error (.hw hwfd), hwActiveFree s a)
      else (.ok a, s.initActive a hwfd loc (-1) .rdonly)

/-- `_active_open`, when the hardware returns `hwfd` and the clock reads `t1` and
`t2`. Nothing is opened towards a local node. -/
def hwActiveOpen (s : Phys) (loc rem hwfd : ℤ) (t1 t2 : UInt64) : Except Err ℕ × Phys :=
  let s := { s with clockError := if s.clockError = 0 then t2 - t1 else s.clockError }
  match activeSearch F s loc rem .output with
  | .ok a => (.ok a, s)
  | .error _ =>
    match hwActiveAlloc F s with
    | none => (.error .EAGAIN, s)
    | some (a, s) =>
      if F.nodeIsLocal loc && !F.nodeIsLocal rem then
        if hwfd < 0 then (.error (.hw hwfd), hwActiveFree s a)
        else (.ok a, s.initActive a hwfd loc rem .wronly)
      else if !F.nodeIsLocal loc then (.error .EINVAL, s)
      else (.ok a, s.initActive a (-22) loc rem .wronly)

/-- One iteration of the loop of `do_mailbox_init`, `do_portal_init`. -/
def openNode (hwfd : ℕ → ℤ) (clock : ℕ → UInt64) (s : Phys) (i : ℕ) : Option Phys :=
  match hwActiveOpen F s F.node i (hwfd (i + 1)) (clock (2 * i)) (clock (2 * i + 1)) with
  | (.ok _, s) => some s
  | (.error _, _) => none

/-- `do_mailbox_init`, `do_portal_init`; `hwfd` are the descriptors the hardware
returns and `clock` the readings of the clock. -/
def doInit (hwfd : ℕ → ℤ) (clock : ℕ → UInt64) : Option Phys :=
  match hwActiveCreate F (tableInit F) F.node (hwfd 0) with
  | (.ok _, s) => (List.range F.nodesNum).foldlM (openNode F hwfd clock) s
  | (.error _, _) => none

/-- A state in which a facility may be handed to its users. -/
def Boot (s : Phys) : Prop := ∃ hwfd clock, doInit F hwfd clock = some s

/-! ### The state after initialisation -/

def inputActive (hwfd : ℤ) : Active where
  resource := { used := true, access := .rdonly }
  hwfd := hwfd
  localNode := F.node
  requests := { maxCapacity := F.portNr }

def outputActive (hwfd : ℤ) (rem : ℕ) : Active where
  resource := { used := true, access := .wronly }
  hwfd := if F.nodeIsLocal rem then -22 else hwfd
  localNode := F.node
  remote := rem
  requests := { maxCapacity := F.portNr }

/-- The table of actives when `n` nodes have been opened. -/
def bootActives (hwfd : ℕ → ℤ) (n a : ℕ) : Active :=
  match a with
  | 0 => inputActive F (hwfd 0)
  | i + 1 => if i < n then outputActive F (hwfd (i + 1)) i
      else { requests := { maxCapacity := F.portNr } }

def bootState (hwfd : ℕ → ℤ) (n : ℕ) (clockError : UInt64) : Phys :=
  { tableInit F with actives := bootActives F hwfd n, clockError := clockError }

variable {F} {hwfd : ℕ → ℤ} {clock : ℕ → UInt64}

theorem bootActives_succ (n : ℕ) :
    bootActives F hwfd (n + 1) =
      update (bootActives F hwfd n) (n + 1) (outputActive F (hwfd (n + 1)) n) := by
  funext a
  cases a with
  | zero => simp [bootActives]
  | succ i =>
    by_cases hi : i = n
    · simp [bootActives, hi]
    · rw [update_of_ne (by omega)]
      have he : i < n + 1 ↔ i < n := by omega
      simp [bootActives, he]

theorem activeSearch_boot (n : ℕ) (c : UInt64) :
    activeSearch F (bootState F hwfd n c) F.node n .output = .error .EBUSY := by
  have hnone : (List.range F.hwMax).find? (fun i =>
      activeMatches ((bootState F hwfd n c).actives i) F.node n .output) = none := by
    refine List.find?_range_eq_none.mpr fun a _ => ?_
    change (!activeMatches (bootActives F hwfd n a) F.node n .output) = true
    cases a with
    | zero => simp [bootActives, activeMatches, inputActive, Resource.isWritable]
    | succ i =>
      by_cases hi : i < n
      · simp [bootActives, hi, activeMatches, outputActive]
        omega
      · simp [bootActives, hi, activeMatches]
  simp [activeSearch, hnone]

theorem hwActiveAlloc_boot {n : ℕ} (hn : n < F.nodesNum) (c : UInt64) :
    hwActiveAlloc F (bootState F hwfd n c) =
      some (n + 1, (bootState F hwfd n c).setActive (n + 1)
        { (bootState F hwfd n c).actives (n + 1) with resource := { used := true } }) := by
  have hlt := F.nodesNum_lt
  have hsome : (List.range F.hwMax).find? (fun i =>
      !((bootState F hwfd n c).actives i).resource.used) = some (n + 1) := by
    refine List.find?_range_eq_some.mpr ⟨?_, List.mem_range.mpr (by omega), fun a ha => ?_⟩
    · simp [bootState, bootActives]
    · cases a with
      | zero => simp [bootState, bootActives, inputActive]
      | succ i =>
        have hi : i < n := by omega
        simp [bootState, bootActives, outputActive, hi]
  simp [hwActiveAlloc, hsome]

theorem initActive_boot (hwfd : ℕ → ℤ) (n : ℕ) (c : UInt64) :
    ((bootState F hwfd n c).setActive (n + 1)
      { (bootState F hwfd n c).actives (n + 1) with resource := { used := true } }).initActive (n + 1)
        (outputActive F (hwfd (n + 1)) n).hwfd F.node n .wronly = bootState F hwfd (n + 1) c := by
  have hfresh : bootActives F hwfd n (n + 1) = { requests := { maxCapacity := F.portNr } } := by
    simp [bootActives]
  simp [Phys.initActive, Phys.setActive, bootState, bootActives_succ, hfresh, outputActive]

/-- One iteration opens the next node, unless the hardware refuses. -/
theorem openNode_boot {n : ℕ} (hn : n < F.nodesNum) (c : UInt64) :
    openNode F hwfd clock (bootState F hwfd n c) n =
      if F.nodeIsLocal n = true ∨ 0 ≤ hwfd (n + 1) then
        some (bootState F hwfd (n + 1) (if c = 0 then clock (2 * n + 1) - clock (2 * n) else c))
      else none := by
  have hinit := initActive_boot (F := F) hwfd n
    (if c = 0 then clock (2 * n + 1) - clock (2 * n) else c)
  have hcl : { bootState F hwfd n c with
      clockError := if (bootState F hwfd n c).clockError = 0 then clock (2 * n + 1) - clock (2 * n)
        else (bootState F hwfd n c).clockError } =
      bootState F hwfd n (if c = 0 then clock (2 * n + 1) - clock (2 * n) else c) := rfl
  simp only [openNode, hwActiveOpen, hcl, activeSearch_boot, hwActiveAlloc_boot hn,
    F.nodeIsLocal_node]
  cases hloc : F.nodeIsLocal n with
  | true =>
    simp only [outputActive, hloc, if_true] at hinit
    simp [hinit]
  | false =>
    simp only [outputActive, hloc] at hinit
    by_cases hfd : 0 ≤ hwfd (n + 1)
    · simp [hfd, not_lt.mpr hfd, ← hinit]
    · simp [hfd, not_le.mp hfd]

/-- The clock error when `n` nodes have been opened: the first difference that is not zero. -/
def sampledError (clock : ℕ → UInt64) : ℕ → UInt64
  | 0 => 0
  | n + 1 => if sampledError clock n = 0 then clock (2 * n + 1) - clock (2 * n) else sampledError clock n

/-- While the clock stands still there is no clock error. -/
theorem sampledError_zero (n : ℕ) : sampledError (fun _ => 0) n = 0 := by
  induction n with
  | zero => rfl
  | succ n ih => simp [sampledError, ih]

theorem openNodes_boot (clock : ℕ → UInt64) {n : ℕ} (hn : n ≤ F.nodesNum)
    (hhw : ∀ i < n, F.nodeIsLocal i = true ∨ 0 ≤ hwfd (i + 1)) :
    (List.range n).foldlM (openNode F hwfd clock) (bootState F hwfd 0 0) =
      some (bootState F hwfd n (sampledError clock n)) := by
  induction n with
  | zero => rfl
  | succ n ih =>
    rw [List.range_succ, List.foldlM_append, ih (by omega) fun i hi => hhw i (by omega)]
    simp [openNode_boot (show n < F.nodesNum by omega), hhw n (by omega), sampledError]

/-- If a loop over the nodes ends, the hardware has opened all of them. -/
theorem openNodes_some {n : ℕ} (hn : n ≤ F.nodesNum) {s : Phys}
    (h : (List.range n).foldlM (openNode F hwfd clock) (bootState F hwfd 0 0) = some s) :
    ∀ i < n, F.nodeIsLocal i = true ∨ 0 ≤ hwfd (i + 1) := by
  induction n generalizing s with
  | zero => simp
  | succ n ih =>
    rw [List.range_succ, List.foldlM_append] at h
    obtain ⟨t, ht, hs⟩ := Option.bind_eq_some_iff.mp h
    have hall := ih (by omega) ht
    obtain rfl := Option.some.inj ((openNodes_boot clock (by omega) hall).symm.trans ht)
    intro i hi
    rcases Nat.lt_succ_iff_lt_or_eq.mp hi with hi | rfl
    · exact hall i hi
    · by_contra hno
      simp [openNode_boot (show i < F.nodesNum by omega), hno] at hs

theorem hwActiveCreate_boot :
    hwActiveCreate F (tableInit F) F.node (hwfd 0) =
      if 0 ≤ hwfd 0 then (.ok 0, bootState F hwfd 0 0)
      else (.error (.hw (hwfd 0)), hwActiveFree ((tableInit F).setActive 0
        { (tableInit F).actives 0 with resource := { used := true } }) 0) := by
  have hpos : 0 < F.hwMax := (Nat.zero_le _).trans_lt F.nodesNum_lt
  have hsearch : activeSearch F (tableInit F) F.node (-1) .input = .error .EBUSY := by
    have hnone : (List.range F.hwMax).find? (fun i =>
        activeMatches ((tableInit F).actives i) F.node (-1) .input) = none :=
      List.find?_range_eq_none.mpr fun a _ => by simp [tableInit, activeMatches]
    simp [activeSearch, hnone]
  have halloc : (List.range F.hwMax).find? (fun i =>
      !((tableInit F).actives i).resource.used) = some 0 :=
    List.find?_range_eq_some.mpr ⟨rfl, List.mem_range.mpr hpos, fun j hj => by omega⟩
  have hboot : ((tableInit F).setActive 0
      { (tableInit F).actives 0 with resource := { used := true } }).initActive 0 (hwfd 0) F.node
        (-1) .rdonly = bootState F hwfd 0 0 := by
    have hact : bootActives F hwfd 0 =
        update (tableInit F).actives 0 (inputActive F (hwfd 0)) := by
      funext a
      cases a <;> simp [bootActives, tableInit]
    simp [Phys.initActive, Phys.setActive, bootState, hact, tableInit, inputActive]
  simp only [hwActiveCreate, hsearch, hwActiveAlloc, halloc]
  by_cases hfd : 0 ≤ hwfd 0
  · rw [if_neg (by omega), if_pos hfd, hboot]
  · rw [if_pos (by omega), if_neg hfd]

/-- Initialisation ends in the written-down state, whatever the hardware returns. -/
theorem Boot.eq_bootState {s : Phys} (h : Boot F s) :
    ∃ hwfd c, s = bootState F hwfd F.nodesNum c := by
  obtain ⟨hwfd, clock, h⟩ := h
  rw [doInit, hwActiveCreate_boot] at h
  by_cases hfd : 0 ≤ hwfd 0
  · rw [if_pos hfd] at h
    have hopen := openNodes_boot clock le_rfl (openNodes_some le_rfl h)
    exact ⟨hwfd, _, Option.some.inj (h.symm.trans hopen)⟩
  · rw [if_neg hfd] at h
    cases h

/-- Initialisation succeeds when the hardware grants every descriptor. -/
theorem boot_of_clock (hwfd : ℕ → ℤ) (clock : ℕ → UInt64) (h : ∀ i, 0 ≤ hwfd i) :
    Boot F (bootState F hwfd F.nodesNum (sampledError clock F.nodesNum)) := by
  refine ⟨hwfd, clock, ?_⟩
  rw [doInit, hwActiveCreate_boot, if_pos (h 0)]
  exact openNodes_boot clock le_rfl fun i _ => .inr (h (i + 1))

theorem boot_of_nonneg (hwfd : ℕ → ℤ) (h : ∀ i, 0 ≤ hwfd i) :
    Boot F (bootState F hwfd F.nodesNum 0) := by
  have hb := boot_of_clock (F := F) hwfd (fun _ => 0) h
  rwa [sampledError_zero] at hb

/-! ### A small target -/

/-- Node 0 of a target with four nodes. -/
def quadHal : Hal where
  createMax := 1
  openMax := 4
  dataSize := 8
  maxSize := 8
  nodesNum := 4
  node := 0
  nodeIsLocal := fun n => decide (n = 0)
  mmCheckArea := fun _ _ => true
  maxSize_le := by decide
  node_lt := by decide
  nodesNum_lt := by decide
  nodeIsLocal_node := by decide
  nodeIsLocal_range := by
    intro n hn
    rw [decide_eq_true_eq] at hn
    omega

def quadMailbox : Facility := Facility.mailbox quadHal false

def quadBoot : Phys := bootState quadMailbox (fun _ => 0) 4 0

theorem quadBoot_boot : Boot quadMailbox quadBoot := boot_of_nonneg _ fun _ => le_rfl

end Nanvix.Noc
