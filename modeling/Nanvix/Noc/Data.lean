import Mathlib.Logic.Function.Basic
import Mathlib.Data.Finset.Card
import Mathlib.Data.List.Nodup
import Mathlib.Tactic.Common
import Mathlib.Tactic.Linarith
import Mathlib.Tactic.Ring

/-! The tables of one communication facility, the mailboxes or the portals of a
node. Both facilities run the same code over their own tables; a `Facility`
holds the constants and the hooks in which they differ, together with what the
kernel relies on from the hardware abstraction layer. Tables are total functions
on the natural numbers, of which the code uses the first entries. -/

namespace Nanvix.Noc

/-- Error codes; `hw` is whatever a hardware call has returned. -/
inductive Err where
  | EINVAL | EBUSY | EBADF | EAGAIN | ENOMSG | EACCES | EFAULT | ENOTSUP
  | hw (code : ℤ)
  deriving DecidableEq, Repr

inductive CommType where
  | input | output
  deriving DecidableEq, Repr

/-- `ACTIVE_COMM_SUCCESS`, `ACTIVE_COMM_AGAIN` and `ACTIVE_COMM_RECEIVED`. -/
inductive CommStatus where
  | success | again | received
  deriving DecidableEq, Repr

inductive Kind where
  | mailbox | portal
  deriving DecidableEq, Repr

/-- Access mode of a resource; `none` until `resource_set_rdonly` or
`resource_set_wronly` is called on it. -/
inductive Access where
  | none | rdonly | wronly
  deriving DecidableEq, Repr

/-- `struct resource`; the default value is `RESOURCE_INITIALIZER`. -/
structure Resource where
  used : Bool := false
  busy : Bool := false
  access : Access := .none
  deriving DecidableEq, Repr

namespace Resource

def isReadable (r : Resource) : Bool := r.access == .rdonly

def isWritable (r : Resource) : Bool := r.access == .wronly

end Resource

/-- Constants of a facility, and the calls of the hardware abstraction layer
that its code takes decisions on. -/
structure Facility where
  kind : Kind
  /-- `MAILBOX_PORT_NR`, `KPORTAL_PORT_NR`. -/
  portNr : ℕ
  /-- `HW_MAILBOX_MAX`, `HW_PORTAL_MAX`. -/
  hwMax : ℕ
  /-- `KMAILBOX_MAX`, `KPORTAL_MAX`. -/
  commMax : ℕ
  /-- `KMAILBOX_MESSAGE_BUFFERS_MAX`, `KPORTAL_MESSAGE_BUFFERS_MAX`. -/
  mbufferMax : ℕ
  /-- `KMAILBOX_AUX_BUFFERS_MAX`, `KPORTAL_AUX_BUFFERS_MAX`. -/
  auxMax : ℕ
  /-- `KMAILBOX_MESSAGE_DATA_SIZE`, `KPORTAL_MESSAGE_DATA_SIZE`. -/
  dataSize : ℕ
  /-- Largest transfer the kernel calls admit: `KMAILBOX_MESSAGE_SIZE`,
  `HAL_PORTAL_MAX_SIZE`. -/
  maxSize : ℕ
  /-- `PROCESSOR_NOC_NODES_NUM`. -/
  nodesNum : ℕ
  /-- `processor_node_get_num()`. -/
  node : ℕ
  nodeIsLocal : ℤ → Bool
  /-- `mm_check_area(vaddr, size, UMEM_AREA)`. -/
  mmCheckArea : ℕ → ℕ → Bool
  portNr_pow : ∃ k, portNr = 2 ^ k
  auxMax_le : auxMax ≤ mbufferMax
  maxSize_le : maxSize ≤ dataSize
  node_lt : node < nodesNum
  /-- One active for the input side and one for each node fit in the table. -/
  nodesNum_lt : nodesNum < hwMax
  nodeIsLocal_node : nodeIsLocal node = true
  nodeIsLocal_range : ∀ n, nodeIsLocal n = true → 0 ≤ n ∧ n < nodesNum

theorem Facility.portNr_pos (F : Facility) : 0 < F.portNr := by
  obtain ⟨k, hk⟩ := F.portNr_pow
  rw [hk]
  exact Nat.two_pow_pos k

/-- What a target fixes for a facility: sizes and numbers of the hardware
abstraction layer, the node it runs on and the layout of user memory. -/
structure Hal where
  createMax : ℕ
  openMax : ℕ
  dataSize : ℕ
  maxSize : ℕ
  nodesNum : ℕ
  node : ℕ
  nodeIsLocal : ℤ → Bool
  mmCheckArea : ℕ → ℕ → Bool
  maxSize_le : maxSize ≤ dataSize
  node_lt : node < nodesNum
  nodesNum_lt : nodesNum < createMax + openMax + 1
  nodeIsLocal_node : nodeIsLocal node = true
  nodeIsLocal_range : ∀ n, nodeIsLocal n = true → 0 ≤ n ∧ n < nodesNum

/-- The mailbox facility. With `onlyMailbox` (`__NANVIX_IKC_USES_ONLY_MAILBOX`)
its tables are larger. -/
def Facility.mailbox (h : Hal) (onlyMailbox : Bool) : Facility where
  kind := .mailbox
  portNr := if onlyMailbox then 64 else 16
  hwMax := h.createMax + h.openMax + 1
  commMax := if onlyMailbox then 256 else 64
  mbufferMax := if onlyMailbox then 64 else 32
  auxMax := 16
  dataSize := h.dataSize
  maxSize := h.maxSize
  nodesNum := h.nodesNum
  node := h.node
  nodeIsLocal := h.nodeIsLocal
  mmCheckArea := h.mmCheckArea
  portNr_pow := by cases onlyMailbox; exacts [⟨4, rfl⟩, ⟨6, rfl⟩]
  auxMax_le := by cases onlyMailbox <;> decide
  maxSize_le := h.maxSize_le
  node_lt := h.node_lt
  nodesNum_lt := h.nodesNum_lt
  nodeIsLocal_node := h.nodeIsLocal_node
  nodeIsLocal_range := h.nodeIsLocal_range

def Facility.portal (h : Hal) : Facility where
  kind := .portal
  portNr := 16
  hwMax := h.createMax + h.openMax + 1
  commMax := 64
  mbufferMax := 32
  auxMax := 16
  dataSize := h.dataSize
  maxSize := h.maxSize
  nodesNum := h.nodesNum
  node := h.node
  nodeIsLocal := h.nodeIsLocal
  mmCheckArea := h.mmCheckArea
  portNr_pow := ⟨4, rfl⟩
  auxMax_le := by decide
  maxSize_le := h.maxSize_le
  node_lt := h.node_lt
  nodesNum_lt := h.nodesNum_lt
  nodeIsLocal_node := h.nodeIsLocal_node
  nodeIsLocal_range := h.nodeIsLocal_range

/-! ### Messages -/

/-- `struct mbuffer_header`; the default value is the one of
`MBUFFER_MESSAGE_INITIALIZER`. -/
structure Header where
  dest : ℤ := -1
  src : ℤ := -1
  size : ℤ := 0
  unused : ℤ := 0
  deriving DecidableEq, Repr

structure Message where
  header : Header := {}
  data : List UInt8 := []
  deriving DecidableEq, Repr

/-- Assigning `MBUFFER_MESSAGE_INITIALIZER`: the abstract message has one data
byte, so the other bytes of the buffer stay as they were. -/
def Message.reset (m : Message) : Message := ⟨{}, m.data.set 0 0⟩

/-- `~(0ULL)`. -/
def ageMax : UInt64 := ~~~0

structure Mbuffer where
  resource : Resource := {}
  age : UInt64 := ageMax
  latency : UInt64 := 0
  actid : ℤ := -1
  portid : ℤ := -1
  message : Message := {}
  deriving DecidableEq

def Mbuffer.kept (m : Mbuffer) : Bool := m.resource.used && m.resource.busy

/-- The two views of the mbuffer table: all of it, and its last `auxMax` entries. -/
inductive Pool where
  | principal | aux
  deriving DecidableEq, Repr

/-! ### Ports and actives -/

/-- `struct port`; `requested` is `PORT_FLAGS_REQUESTED`, its only flag. -/
structure Port where
  resource : Resource := {}
  requested : Bool := false
  mbufferid : ℤ := -1
  mbufferpool : Option Pool := none
  deriving DecidableEq, Repr

structure RequestsFifo where
  head : ℕ := 0
  tail : ℕ := 0
  maxCapacity : ℕ
  nelements : ℤ := 0
  fifo : ℕ → ℤ := fun _ => -1

/-- `struct active`, less its ports; `allowed` is `ACTIVE_FLAGS_ALLOWED`. The
number of its ports is the facility's `portNr`. -/
structure Active where
  resource : Resource := {}
  allowed : Bool := false
  hwfd : ℤ := -1
  localNode : ℤ := -1
  remote : ℤ := -1
  refcount : ℤ := 0
  usedPorts : ℤ := 0
  requests : RequestsFifo

/-- The tables of the physical layer. `lent` is the mbuffer that an active has
given to the hardware and not taken back yet. -/
structure Phys where
  actives : ℕ → Active
  ports : ℕ × ℕ → Port
  mbuffers : ℕ → Mbuffer
  age : UInt64
  lent : ℕ → Option ℕ
  clockError : UInt64

/-! ### Calls -/

/-- `struct active_config`; `buffer` is a user address, 0 is `NULL`. -/
structure Config where
  fd : ℤ := -1
  localAddr : ℤ := -1
  remoteAddr : ℤ := -1
  buffer : ℕ := 0
  size : ℕ := 0
  deriving DecidableEq, Repr

structure Pstats where
  volume : ℕ := 0
  latency : UInt64 := 0
  deriving DecidableEq

def Pstats.add (p q : Pstats) : Pstats := ⟨p.volume + q.volume, p.latency + q.latency⟩

/-- What the surroundings decide during one step: the results of the hardware
calls, the message that has arrived, the clock, the user memory, and the value
read when a malformed address leads outside a port table. -/
structure Env where
  hwRet : ℤ := 0
  allowRet : ℤ := 0
  arrived : Message := {}
  clock : ℕ → UInt64 := fun _ => 0
  mem : ℕ → UInt8 := fun _ => 0
  stray : Bool := false

/-- The bytes at a user address. -/
def readMem (mem : ℕ → UInt8) (addr size : ℕ) : List UInt8 :=
  (List.range size).map fun i => mem (addr + i)

@[simp] theorem readMem_length (mem : ℕ → UInt8) (addr size : ℕ) :
    (readMem mem addr size).length = size := by simp [readMem]

def computeLatency (clockError t1 t2 : UInt64) : UInt64 := t2 - t1 - clockError

/-- What a communication call answers: its return value, what it adds to the
statistics, the bytes it has copied to user memory and the message it has handed
to the hardware. -/
structure Answer where
  ret : Except Err CommStatus
  stats : Pstats := {}
  copied : Option (ℕ × List UInt8) := none
  sent : Option Message := none

/-! ### Addresses -/

section Address
variable (F : Facility)

/-- `ACTIVE_LADDRESS_COMPOSE(fd, port, nports)`. -/
def laddressCompose (fd port : ℤ) : ℤ := fd * (F.portNr + 1) + port

/-- `mailbox_laddress_calc`, `portal_laddress_calc` on arguments nobody has checked: the address is
computed in 32 bits. -/
def laddressCalc (fd port : ℤ) : ℤ := (laddressCompose F fd port).bmod (2 ^ 32)

def getActid (id : ℤ) : ℤ := if id < 0 then id else id / (F.portNr + 1)

def getPortid (id : ℤ) : ℤ := if id < 0 then id else id % (F.portNr + 1)

def sourceCheck (h : Header) (srcMask : ℤ) : Bool :=
  if srcMask = -1 then true
  else
    let maskNode := getActid F srcMask
    let maskPort := getPortid F srcMask
    if maskNode ≠ F.nodesNum ∧ maskNode ≠ getActid F h.src then false
    else if maskPort ≠ F.portNr ∧ maskPort ≠ getPortid F h.src then false
    else true

def headerCheck (h : Header) (cfg : Config) : Bool :=
  h.dest == cfg.localAddr && sourceCheck F h cfg.remoteAddr

/-- `mailbox_header_config`, `portal_header_config`: only portals note the size. -/
def headerConfig (h : Header) (cfg : Config) : Header :=
  match F.kind with
  | .mailbox => { h with src := cfg.localAddr, dest := cfg.remoteAddr }
  | .portal => { h with src := cfg.localAddr, dest := cfg.remoteAddr, size := cfg.size }

variable {F} {a p : ℕ}

theorem getActid_compose (hp : p < F.portNr) : getActid F (laddressCompose F a p) = a := by
  have h0 : ¬ ((a : ℤ) * (F.portNr + 1) + p < 0) := not_lt.mpr (by positivity)
  rw [getActid, laddressCompose, if_neg h0, add_comm,
    Int.add_mul_ediv_right _ _ (by positivity), Int.ediv_eq_zero_of_lt (by omega) (by omega)]
  simp

theorem getPortid_compose (hp : p < F.portNr) : getPortid F (laddressCompose F a p) = p := by
  have h0 : ¬ ((a : ℤ) * (F.portNr + 1) + p < 0) := not_lt.mpr (by positivity)
  rw [getPortid, laddressCompose, if_neg h0, add_comm, Int.add_mul_emod_self_right,
    Int.emod_eq_of_lt (by omega) (by omega)]

theorem compose_nonneg (F : Facility) (a p : ℕ) : 0 ≤ laddressCompose F a p := by
  unfold laddressCompose; positivity

theorem compose_inj {b q : ℕ} (hp : p < F.portNr) (hq : q < F.portNr)
    (h : laddressCompose F a p = laddressCompose F b q) : a = b ∧ p = q := by
  have ha := getActid_compose (a := a) hp
  have hb := getPortid_compose (a := a) hp
  rw [h, getActid_compose hq] at ha
  rw [h, getPortid_compose hq] at hb
  exact ⟨by exact_mod_cast ha.symm, by exact_mod_cast hb.symm⟩

theorem headerConfig_src (h : Header) (cfg : Config) :
    (headerConfig F h cfg).src = cfg.localAddr := by
  unfold headerConfig; split <;> rfl

theorem headerConfig_dest (h : Header) (cfg : Config) :
    (headerConfig F h cfg).dest = cfg.remoteAddr := by
  unfold headerConfig; split <;> rfl

end Address

end Nanvix.Noc
