import Mathlib.Algebra.Order.Ring.Int
import Nanvix.Lib.Bytes
import Nanvix.Lib.Trace

/-! The `ethoc` driver and its device. There are 64 descriptors for each direction, and a buffer in the
memory of the driver for each of them. The device stores frames whenever it has an empty descriptor,
also while the driver looks for one that is not, so the driver takes its steps one access to the
device at a time. -/

namespace Nanvix.Dev.Ethoc

open Nanvix.Lib Nanvix.Lib.Bytes Function

/-! ### Layout -/

def txBufCount : ℕ := 64

def rxBufCount : ℕ := 64

/-- `ETHOC_PACKETLEN_SIZE_MAX`, the length of a row. -/
def packetlenSizeMax : ℕ := 0x600

def bufsiz : ℕ := 1536

/-- The rows that `rx_buffer` and `tx_buffer` are declared with. -/
def rxRows : ℕ := rxBufCount / 3

def txRows : ℕ := txBufCount / 3

/-! Where the fields of `struct ethoc_dev` are, from its start on. A head is an `int` and is aligned. -/

def rxBufferOffset : ℕ := 6

def rxHeadOffset : ℕ := 32264

def txBufferOffset : ℕ := 32268

def txHeadOffset : ℕ := 64524

/-- `&ethoc.rx_buffer[i][0]`. -/
def rxRow (i : ℕ) : ℕ := rxBufferOffset + i * packetlenSizeMax

/-- `&ethoc.tx_buffer[i][0]`. -/
def txRow (i : ℕ) : ℕ := txBufferOffset + i * packetlenSizeMax

/-! ### Registers -/

/-- The register of descriptor `bd` for sending. The one with the address comes 4 bytes behind it. -/
def txBd (bd : ℤ) : ℤ := 0x400 + bd * 8

def rxBd (bd : ℤ) : ℤ := 0x400 + 64 * 8 + bd * 8

/-- `ETHOC_TX_BD_WRAP`, `ETHOC_RX_BD_WRAP`. -/
def bdWrap : BitVec 32 := 0x2000#32

def rxBdEmpty : BitVec 32 := 0x8000#32

def txBdReady : BitVec 32 := 0x8000#32

/-- `ETHOC_TX_BD_LEN_MASK`, `ETHOC_RX_BD_LEN_MASK`. -/
def bdLenMask : BitVec 32 := 0xffff0000#32

def rxBdStats : BitVec 32 := 0xff#32

def txBdStats : BitVec 32 := 0x1ff#32

/-- A frame as the device stores it, of the length of a row at most. -/
structure Frame where
  bytes : List UInt8
  status : BitVec 32
  short : bytes.length ≤ packetlenSizeMax

/-- Where the running `ethoc_pool` or `network_is_new_packet` is. `scan` and `look` are about to read
descriptor `bd` in iteration `i` of their loop; `took` has found one and has not re-armed it. -/
inductive Pc
  | idle
  | scan (i : ℕ) (bd : ℤ) (size : ℕ)
  | took (bd : ℤ) (size : ℕ)
  | look (i : ℕ) (bd : ℤ)
  deriving DecidableEq

/-- The driver and the device: `mem` is the memory from `ethoc` on, `regs` the registers by their
offset, `rxNext` the descriptor into which the device receives next. -/
structure Machine where
  mem : ℕ → UInt8
  regs : ℤ → BitVec 32
  rxNext : ℕ
  pc : Pc

/-- An `int` in memory, with the most significant byte first. -/
def intAt (mem : ℕ → UInt8) (a : ℕ) : ℤ := (BitVec.ofNat 32 (leValue (load mem a 4).reverse)).toInt

def setInt (mem : ℕ → UInt8) (a : ℕ) (n : ℤ) : ℕ → UInt8 :=
  store mem a (leBytes 4 (BitVec.ofInt 32 n).toNat).reverse

namespace Machine

def rxHead (s : Machine) : ℤ := intAt s.mem rxHeadOffset

def txHead (s : Machine) : ℤ := intAt s.mem txHeadOffset

def setRxHead (s : Machine) (n : ℤ) : Machine := { s with mem := setInt s.mem rxHeadOffset n }

def setTxHead (s : Machine) (n : ℤ) : Machine := { s with mem := setInt s.mem txHeadOffset n }

/-- The test of `rx_reg & ETHOC_RX_BD_EMPTY`. -/
def isEmpty (s : Machine) (bd : ℤ) : Bool := s.regs (rxBd bd) &&& rxBdEmpty != 0

/-- The device has a descriptor for the next frame. -/
def hasRoom (s : Machine) : Bool := s.isEmpty s.rxNext

def rxAddr (s : Machine) (bd : ℤ) : ℕ := (s.regs (rxBd bd + 4)).toNat

def txAddr (s : Machine) (bd : ℤ) : ℕ := (s.regs (txBd bd + 4)).toNat

def received (s : Machine) (f : Frame) : Machine :=
  { s with
    mem := store s.mem (s.rxAddr s.rxNext) f.bytes
    regs := update s.regs (rxBd s.rxNext)
      (s.regs (rxBd s.rxNext) &&& 0x6000#32 ||| f.status &&& 0x1ff#32 |||
        BitVec.ofNat 32 f.bytes.length <<< 16)
    rxNext := (s.rxNext + 1) % rxBufCount }

def transmitted (s : Machine) (bd : Fin 64) (status : BitVec 32) : Machine :=
  { s with
    regs := update s.regs (txBd bd)
      (s.regs (txBd bd) &&& ~~~(txBdReady ||| txBdStats) ||| status &&& txBdStats) }

/-- The second half of `ethoc_send`, for descriptor `bd`. -/
def filled (s : Machine) (bd : ℤ) (bytes : List UInt8) : Machine :=
  { s with
    mem := store s.mem (txRow bd.toNat) bytes
    regs := update s.regs (txBd bd)
      (s.regs (txBd bd) &&& ~~~(bdLenMask ||| txBdStats) ||| BitVec.ofNat 32 bytes.length <<< 16 |||
        txBdReady) }

/-- The driver re-arms descriptor `bd` at the end of `ethoc_pool`. -/
def rearmed (s : Machine) (bd : ℤ) : Machine :=
  { s with
    regs := update s.regs (rxBd bd)
      (s.regs (rxBd bd) &&& ~~~(bdLenMask ||| rxBdStats) ||| rxBdEmpty)
    pc := .idle }

end Machine

/-- What a step returns to the caller. `frame` has the length from the descriptor and what was copied. -/
inductive Answer
  | quiet
  | sent
  | einval
  | eagain
  | frame (size : ℕ) (bytes : List UInt8)
  | isNew (found : Bool)
  deriving DecidableEq

def txGet (s : Machine) : ℤ × Machine := (s.txHead, s.setTxHead ((s.txHead + 1).tmod txBufCount))

/-- `ethoc_send`; `none` is a `NULL` pointer. -/
def send (s : Machine) : Option (List UInt8) → Answer × Machine
  | none => (.einval, s)
  | some bytes =>
    if bytes.length = 0 ∨ bytes.length ≥ bufsiz then
      (.einval, s)
    else
      let r := txGet s
      if r.1 < 0 then (.eagain, r.2) else (.sent, r.2.filled r.1 bytes)

/-- What can happen: the device receives or has sent a frame, the driver is called, and a call
proceeds by one iteration of its loop or by what comes behind it. -/
inductive Act
  | receive (f : Frame)
  | transmit (bd : Fin 64) (status : BitVec 32)
  | send (dataf : Option (List UInt8))
  | pool (null : Bool) (size : ℕ)
  | isNewPacket
  | proceed

/-- `ethoc_pool`, the loop of `ethoc_rx_get` in it, and `network_is_new_packet`, one access to a
register of the device at a time. -/
def proceed (s : Machine) : Option (Answer × Machine) :=
  match s.pc with
  | .idle => none
  | .scan i bd size =>
    if s.isEmpty bd then
      if i + 1 < rxBufCount then some (.quiet, { s with pc := .scan (i + 1) ((bd + 1).tmod rxBufCount) size })
      else some (.eagain, { s with pc := .idle })
    else
      let t := s.setRxHead ((s.rxHead + 1).tmod rxBufCount)
      if bd < 0 then some (.eagain, { t with pc := .idle }) else some (.quiet, { t with pc := .took bd size })
  | .took bd size =>
    some (.frame ((s.regs (rxBd bd) &&& bdLenMask) >>> 16).toNat (load s.mem (rxRow bd.toNat) size), s.rearmed bd)
  | .look i bd =>
    if s.isEmpty bd then
      if i + 1 < rxBufCount then some (.quiet, { s with pc := .look (i + 1) ((bd + 1).tmod rxBufCount) })
      else some (.isNew false, { s with pc := .idle })
    else some (.isNew true, { s with pc := .idle })

def step (s : Machine) : Act → Option (Answer × Machine)
  | .receive f => some (.quiet, if s.hasRoom then s.received f else s)
  | .transmit bd status => some (.quiet, s.transmitted bd status)
  | .send dataf => if s.pc = .idle then some (send s dataf) else none
  | .pool null size =>
    if s.pc = .idle then
      if null ∨ size = 0 ∨ size ≥ bufsiz then some (.einval, s)
      else some (.quiet, { s with pc := .scan 0 s.rxHead size })
    else none
  | .isNewPacket => if s.pc = .idle then some (.quiet, { s with pc := .look 0 s.rxHead }) else none
  | .proceed => proceed s

def steps : Steps Machine Act Answer := fun s a o t => step s a = some (o, t)

/-- An iteration of the loop of `ethoc_tx_buf_init` and `ethoc_rx_buf_init`, with the value of `reg`. -/
def initBd (base : ℤ) (row : ℕ → ℕ) (count : ℕ) (r : BitVec 32 × (ℤ → BitVec 32)) (i : ℕ) :
    BitVec 32 × (ℤ → BitVec 32) :=
  let reg := if i = count - 1 then r.1 ||| bdWrap else r.1
  let bd := base + i * 8
  (reg, update (update r.2 bd reg) (bd + 4) (BitVec.ofNat 32 (row i)))

def initBds (base : ℤ) (reg : BitVec 32) (row : ℕ → ℕ) (count : ℕ) (regs : ℤ → BitVec 32) : ℤ → BitVec 32 :=
  ((List.range count).foldl (initBd base row count) (reg, regs)).2

def txBufInit (s : Machine) : Machine :=
  { s with regs := initBds (txBd 0) 0 txRow txBufCount s.regs }.setTxHead 0

def rxBufInit (s : Machine) : Machine :=
  { s with regs := initBds (rxBd 0) rxBdEmpty rxRow rxBufCount s.regs }.setRxHead 0

/-- The buffers of `ethoc_reset`; the device starts with its first descriptor and no call is running. -/
def reset (s : Machine) : Machine := { rxBufInit (txBufInit s) with rxNext := 0, pc := .idle }

/-! ### Fields -/

variable {s t u : Machine} {a : Act} {o : Answer} {mem : ℕ → UInt8} {x : ℕ} {n : ℤ}

theorem intAt_setInt (h₀ : 0 ≤ n) (h : n < 2 ^ 31) : intAt (setInt mem x n) x = n := by
  have hload := load_store mem x (leBytes 4 (BitVec.ofInt 32 n).toNat).reverse
  rw [List.length_reverse, leBytes_length] at hload
  have hmod : (BitVec.ofInt 32 n).toNat % 256 ^ 4 = (BitVec.ofInt 32 n).toNat :=
    Nat.mod_eq_of_lt (BitVec.isLt _)
  rw [intAt, setInt, hload, List.reverse_reverse, leValue_leBytes, hmod, BitVec.ofNat_toNat,
    BitVec.setWidth_eq, BitVec.toInt_ofInt]
  exact Int.bmod_eq_of_le (by omega) (by omega)

theorem intAt_store {bs : List UInt8} {y : ℕ} (h : x + 4 ≤ y ∨ y + bs.length ≤ x) :
    intAt (store mem y bs) x = intAt mem x := by
  rw [intAt, load_store_of_outside h, intAt]

theorem intAt_setInt_of_outside {y : ℕ} (h : x + 4 ≤ y ∨ y + 4 ≤ x) : intAt (setInt mem y n) x = intAt mem x :=
  intAt_store (by rwa [List.length_reverse, leBytes_length])

theorem setInt_of_outside {y : ℕ} (h : x < y ∨ y + 4 ≤ x) : setInt mem y n x = mem x :=
  store_of_outside (by rwa [List.length_reverse, leBytes_length])

/-- The flag of a descriptor is one bit of its register. -/
theorem isEmpty_eq (s : Machine) (bd : ℤ) : s.isEmpty bd = (s.regs (rxBd bd)).getLsbD 15 := by
  have hflag : rxBdEmpty = BitVec.twoPow 32 15 := by decide
  rw [Machine.isEmpty, hflag, BitVec.and_twoPow]
  cases (s.regs (rxBd bd)).getLsbD 15 <;> decide

theorem rxBd_inj {i j : ℤ} : rxBd i = rxBd j ↔ i = j := by
  unfold rxBd
  omega

theorem isEmpty_received_self (s : Machine) (f : Frame) : (s.received f).isEmpty s.rxNext = false := by
  rw [isEmpty_eq, Machine.received]
  dsimp only
  rw [update_self]
  simp

theorem isEmpty_rearmed_self (s : Machine) (bd : ℤ) : (s.rearmed bd).isEmpty bd = true := by
  rw [isEmpty_eq, Machine.rearmed]
  dsimp only
  rw [update_self, rxBdEmpty]
  simp

theorem isEmpty_congr {bd : ℤ} (h : t.regs (rxBd bd) = s.regs (rxBd bd)) : t.isEmpty bd = s.isEmpty bd := by
  rw [Machine.isEmpty, Machine.isEmpty, h]

inductive Outcome (s : Machine) : Act → Answer → Machine → Prop
  | stored (f : Frame) : s.hasRoom = true → Outcome s (.receive f) .quiet (s.received f)
  | dropped (f : Frame) : s.hasRoom = false → Outcome s (.receive f) .quiet s
  | transmitted (bd : Fin 64) (status : BitVec 32) :
      Outcome s (.transmit bd status) .quiet (s.transmitted bd status)
  | sendRefused (dataf : Option (List UInt8)) : Outcome s (.send dataf) .einval s
  | sendNegative (bytes : List UInt8) : s.txHead < 0 →
      Outcome s (.send (some bytes)) .eagain (s.setTxHead ((s.txHead + 1).tmod txBufCount))
  | sent (bytes : List UInt8) : 0 ≤ s.txHead → bytes.length < bufsiz →
      Outcome s (.send (some bytes)) .sent
        ((s.setTxHead ((s.txHead + 1).tmod txBufCount)).filled s.txHead bytes)
  | poolRefused (null : Bool) (size : ℕ) : Outcome s (.pool null size) .einval s
  | called (size : ℕ) : s.pc = .idle →
      Outcome s (.pool false size) .quiet { s with pc := .scan 0 s.rxHead size }
  | asked : s.pc = .idle → Outcome s .isNewPacket .quiet { s with pc := .look 0 s.rxHead }
  | scanNext (i : ℕ) (bd : ℤ) (size : ℕ) : s.pc = .scan i bd size → s.isEmpty bd = true → i + 1 < rxBufCount →
      Outcome s .proceed .quiet { s with pc := .scan (i + 1) ((bd + 1).tmod rxBufCount) size }
  | scanOver (i : ℕ) (bd : ℤ) (size : ℕ) : s.pc = .scan i bd size → s.isEmpty bd = true → ¬ i + 1 < rxBufCount →
      Outcome s .proceed .eagain { s with pc := .idle }
  | scanNegative (i : ℕ) (bd : ℤ) (size : ℕ) : s.pc = .scan i bd size → s.isEmpty bd = false → bd < 0 →
      Outcome s .proceed .eagain { s.setRxHead ((s.rxHead + 1).tmod rxBufCount) with pc := .idle }
  | scanFound (i : ℕ) (bd : ℤ) (size : ℕ) : s.pc = .scan i bd size → s.isEmpty bd = false → 0 ≤ bd →
      Outcome s .proceed .quiet { s.setRxHead ((s.rxHead + 1).tmod rxBufCount) with pc := .took bd size }
  | returned (bd : ℤ) (size : ℕ) : s.pc = .took bd size →
      Outcome s .proceed
        (.frame ((s.regs (rxBd bd) &&& bdLenMask) >>> 16).toNat (load s.mem (rxRow bd.toNat) size)) (s.rearmed bd)
  | lookNext (i : ℕ) (bd : ℤ) : s.pc = .look i bd → s.isEmpty bd = true → i + 1 < rxBufCount →
      Outcome s .proceed .quiet { s with pc := .look (i + 1) ((bd + 1).tmod rxBufCount) }
  | lookOver (i : ℕ) (bd : ℤ) : s.pc = .look i bd → s.isEmpty bd = true → ¬ i + 1 < rxBufCount →
      Outcome s .proceed (.isNew false) { s with pc := .idle }
  | lookFound (i : ℕ) (bd : ℤ) : s.pc = .look i bd → s.isEmpty bd = false →
      Outcome s .proceed (.isNew true) { s with pc := .idle }

theorem send_cases (s : Machine) (dataf : Option (List UInt8)) :
    Outcome s (.send dataf) (send s dataf).1 (send s dataf).2 := by
  cases dataf with
  | none => exact .sendRefused none
  | some bytes =>
    unfold send txGet
    dsimp only
    by_cases hsize : bytes.length = 0 ∨ bytes.length ≥ bufsiz
    · rw [if_pos hsize]
      exact .sendRefused _
    · rw [if_neg hsize]
      by_cases hneg : s.txHead < 0
      · rw [if_pos hneg]
        exact .sendNegative bytes hneg
      · rw [if_neg hneg]
        exact .sent bytes (by omega) (by omega)

theorem send_step {bytes : List UInt8} (hidle : s.pc = .idle) (hpos : bytes.length ≠ 0)
    (hsize : bytes.length < bufsiz) (hhead : 0 ≤ s.txHead) :
    steps s (.send (some bytes)) .sent
      ((s.setTxHead ((s.txHead + 1).tmod txBufCount)).filled s.txHead bytes) := by
  rw [steps, step, if_pos hidle, send, if_neg (by omega), txGet]
  dsimp only
  rw [if_neg (by omega)]

theorem proceed_cases (h : proceed s = some (o, t)) : Outcome s .proceed o t := by
  rw [proceed] at h
  split at h
  · cases h
  · rename_i i bd size hpc
    cases hempty : s.isEmpty bd with
    | true =>
      rw [hempty, if_pos rfl] at h
      split_ifs at h with hi
      · cases h
        exact .scanNext i bd size hpc hempty hi
      · cases h
        exact .scanOver i bd size hpc hempty hi
    | false =>
      rw [hempty, if_neg Bool.false_ne_true] at h
      dsimp only at h
      split_ifs at h with hneg
      · cases h
        exact .scanNegative i bd size hpc hempty hneg
      · cases h
        exact .scanFound i bd size hpc hempty (by omega)
  · rename_i bd size hpc
    cases h
    exact .returned bd size hpc
  · rename_i i bd hpc
    cases hempty : s.isEmpty bd with
    | true =>
      rw [hempty, if_pos rfl] at h
      split_ifs at h with hi
      · cases h
        exact .lookNext i bd hpc hempty hi
      · cases h
        exact .lookOver i bd hpc hempty hi
    | false =>
      rw [hempty, if_neg Bool.false_ne_true] at h
      cases h
      exact .lookFound i bd hpc hempty

theorem steps_cases (h : steps s a o t) : Outcome s a o t := by
  cases a with
  | receive f =>
    rw [steps, step] at h
    cases hroom : s.hasRoom with
    | true =>
      rw [hroom, if_pos rfl] at h
      cases h
      exact .stored f hroom
    | false =>
      rw [hroom, if_neg Bool.false_ne_true] at h
      cases h
      exact .dropped f hroom
  | transmit bd status =>
    cases h
    exact .transmitted bd status
  | send dataf =>
    rw [steps, step] at h
    split_ifs at h
    have hsend := send_cases s dataf
    rw [Option.some.inj h] at hsend
    exact hsend
  | pool null size =>
    rw [steps, step] at h
    split_ifs at h with hidle hbad
    · cases h
      exact .poolRefused null size
    · cases h
      cases null with
      | true => exact absurd (.inl rfl) hbad
      | false => exact .called size hidle
  | isNewPacket =>
    rw [steps, step] at h
    split_ifs at h with hidle
    cases h
    exact .asked hidle
  | proceed => exact proceed_cases h

/-! ### After the reset -/

/-- The loop programs a row and a descriptor in each iteration and nothing else. -/
theorem initBds_spec (base : ℤ) (reg : BitVec 32) (row : ℕ → ℕ) (count : ℕ) (regs : ℤ → BitVec 32) :
    (∀ k < count, initBds base reg row count regs (base + k * 8 + 4) = BitVec.ofNat 32 (row k) ∧
      (initBds base reg row count regs (base + k * 8)).getLsbD 15 = reg.getLsbD 15) ∧
    ∀ x, x < base ∨ base + count * 8 ≤ x → initBds base reg row count regs x = regs x := by
  have hloop : ∀ n, ∃ r, (List.range n).foldl (initBd base row count) (reg, regs) = r ∧
      r.1.getLsbD 15 = reg.getLsbD 15 ∧
      (∀ k < n, r.2 (base + k * 8 + 4) = BitVec.ofNat 32 (row k) ∧
        (r.2 (base + k * 8)).getLsbD 15 = reg.getLsbD 15) ∧
      ∀ x, x < base ∨ base + n * 8 ≤ x → r.2 x = regs x := by
    intro n
    induction n with
    | zero => exact ⟨_, rfl, rfl, fun k hk => absurd hk (Nat.not_lt_zero k), fun _ _ => rfl⟩
    | succ n ih =>
      obtain ⟨r, hr, hflag, hrows, hrest⟩ := ih
      have hreg : (initBd base row count r n).1.getLsbD 15 = reg.getLsbD 15 := by
        dsimp only [initBd]
        split_ifs
        · rw [BitVec.getLsbD_or, hflag, bdWrap]
          simp
        · exact hflag
      refine ⟨initBd base row count r n, by rw [List.range_succ, List.foldl_append, hr]; rfl, hreg,
        fun k hk => ?_, fun x hx => ?_⟩
      · rcases Nat.lt_succ_iff_lt_or_eq.mp hk with hlt | rfl
        · dsimp only [initBd]
          rw [update_of_ne (by omega), update_of_ne (by omega),
            update_of_ne (by omega), update_of_ne (by omega)]
          exact hrows k hlt
        · dsimp only [initBd]
          rw [update_self, update_of_ne (by omega), update_self]
          exact ⟨rfl, hreg⟩
      · push_cast at hx
        dsimp only [initBd]
        rw [update_of_ne (by omega), update_of_ne (by omega)]
        exact hrest x (by omega)
  obtain ⟨r, hr, -, hrows, hrest⟩ := hloop count
  rw [initBds, hr]
  exact ⟨hrows, hrest⟩

theorem rxRow_lt {i : ℕ} (h : i < rxBufCount) : rxRow i < 2 ^ 32 := by
  simp only [rxRow, rxBufferOffset, packetlenSizeMax, rxBufCount] at *
  omega

theorem txRow_lt {i : ℕ} (h : i < txBufCount) : txRow i < 2 ^ 32 := by
  simp only [txRow, txBufferOffset, packetlenSizeMax, txBufCount] at *
  omega

theorem rxAddr_reset {i : ℕ} (h : i < rxBufCount) : (reset s).rxAddr i = rxRow i := by
  have hrow := ((initBds_spec (rxBd 0) rxBdEmpty rxRow rxBufCount (txBufInit s).regs).1 i h).1
  have hbd : rxBd i + 4 = rxBd 0 + i * 8 + 4 := by
    unfold rxBd
    omega
  rw [Machine.rxAddr, hbd]
  refine (congrArg BitVec.toNat hrow).trans ?_
  rw [BitVec.toNat_ofNat, Nat.mod_eq_of_lt (rxRow_lt h)]

theorem txAddr_reset {i : ℕ} (h : i < txBufCount) : (reset s).txAddr i = txRow i := by
  have hrow := ((initBds_spec (txBd 0) 0 txRow txBufCount s.regs).1 i h).1
  have hkeep := (initBds_spec (rxBd 0) rxBdEmpty rxRow rxBufCount (txBufInit s).regs).2
    (txBd 0 + i * 8 + 4) (.inl (by unfold txBd rxBd; rw [txBufCount] at h; omega))
  have hbd : txBd i + 4 = txBd 0 + i * 8 + 4 := by
    unfold txBd
    omega
  rw [Machine.txAddr, hbd]
  refine (congrArg BitVec.toNat (hkeep.trans hrow)).trans ?_
  rw [BitVec.toNat_ofNat, Nat.mod_eq_of_lt (txRow_lt h)]

theorem isEmpty_reset {i : ℕ} (h : i < rxBufCount) : (reset s).isEmpty i = true := by
  have hflag := ((initBds_spec (rxBd 0) rxBdEmpty rxRow rxBufCount (txBufInit s).regs).1 i h).2
  have hbd : rxBd i = rxBd 0 + i * 8 := by
    unfold rxBd
    omega
  rw [isEmpty_eq, hbd]
  exact hflag.trans (by decide)

theorem rxHead_reset : (reset s).rxHead = 0 := intAt_setInt (by omega) (by omega)

theorem txHead_reset : (reset s).txHead = 0 :=
  (intAt_setInt_of_outside (.inr (by decide))).trans (intAt_setInt (by omega) (by omega))

end Nanvix.Dev.Ethoc
