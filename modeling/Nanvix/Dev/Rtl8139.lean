import Nanvix.Dev.Packets
import Nanvix.Lib.Bytes

/-! The receive ring of the `rtl8139`. The device writes a frame behind the one before, and a frame
that starts inside the ring of 8192 bytes is written on past its end. The buffer has 1516 bytes there,
and the fields of the driver come right behind them. -/

namespace Nanvix.Dev.Rtl8139

open Nanvix.Lib Nanvix.Lib.Bytes

/-- `RTL8139_RX_BUF_ALLOC_SIZE`, which is `8192 + 16 + 1500`. -/
def rxBufAllocSize : ℕ := 9708

/-- `RTL8139_RX_BUF_SIZE - 16`, which is `8192 + 16 - 16`. -/
def ringSize : ℕ := 8192

/-! Where the fields behind `rx_buffer` are, from its start on. -/

def txCurOffset : ℕ := 9708

def rxCurOffset : ℕ := 9712

def lwipForwardingOffset : ℕ := 9716

/-- The driver: `mem` is `rtl8139_device` from `rx_buffer` on, `array` is `recv_packet_array`. -/
structure Driver where
  mem : ℕ → UInt8
  array : PacketArray

namespace Driver

def txCur (s : Driver) : ℕ := (s.mem txCurOffset).toNat

def rxCur (s : Driver) : ℕ := leValue (load s.mem rxCurOffset 4)

def lwipForwarding (s : Driver) : Bool := s.mem lwipForwardingOffset != 0

def setRxCur (s : Driver) (n : ℕ) : Driver := { s with mem := store s.mem rxCurOffset (leBytes 4 n) }

end Driver

/-- A frame on the wire, with its checksum, and the status that the device gives it. -/
structure Frame where
  status : UInt16
  bytes : List UInt8

def Frame.size (f : Frame) : ℕ := f.bytes.length

/-- The bytes that the device writes: `struct rtl8139_packet_header` and the frame. -/
def Frame.image (f : Frame) : List UInt8 := leBytes 2 f.status.toNat ++ leBytes 2 f.size ++ f.bytes

def dma (s : Driver) (f : Frame) : Driver := { s with mem := store s.mem s.rxCur f.image }

def packetStatusValid (status : ℕ) : Bool :=
  !(status == 0 || status.testBit 5 || status.testBit 2 || status.testBit 1)

/-- What a step prints, which registers it writes, the packet that it hands to the network stack and
whether an assertion fails in it. -/
structure Out where
  warnings : List String := []
  registers : List (ℕ × ℕ) := []
  handed : Option Packet := none
  panics : Bool := false
  deriving DecidableEq

/-- `RTL8139_COMMAND`, `RTL8139_CAPR`. -/
def commandRegister : ℕ := 0x37

def caprRegister : ℕ := 0x38

/-- `rtl8139_reset_rx`; `command` is the content of the command register. -/
def resetRx (s : Driver) (command : ℕ) : Out × Driver :=
  ({ registers := [(commandRegister, 0), (commandRegister, command)] },
    { s with array := Dev.resetRx packetArrayLength s.array }.setRxCur 0)

/-- `(rx_cur + size + 4 + 3) & RTL8139_RX_READ_POINTER_MASK`, in 32 bits. -/
def readPointer (rxCur size : ℕ) : ℕ := ((rxCur + size + 4 + 3) % 2 ^ 32) &&& 0xfffffffc

/-- The packet of the frame whose header is at `rx_cur`; `rxBuffer` is the address of `rx_buffer`. -/
def packetAt (rxBuffer : ℕ) (s : Driver) : Packet where
  len := UInt16.ofNat (leValue (load s.mem (s.rxCur + 2) 2) + 2 ^ 16 - 4)
  data := rxBuffer + s.rxCur + 4

/-- One iteration of the loop of `rtl8139_receive_packet`. The stack takes one packet from the array
when packets are forwarded to it. -/
def receivePacket (rxBuffer : ℕ) (s : Driver) (command : ℕ) : Out × Driver :=
  if !packetStatusValid (leValue (load s.mem s.rxCur 2)) then
    let r := resetRx s command
    ({ r.1 with warnings := ["Invalid packet, dropping it, and resetting Rx"] }, r.2)
  else
    let size := leValue (load s.mem (s.rxCur + 2) 2)
    let w := writePacketArray packetArrayLength s.array (packetAt rxBuffer s)
    let r := readPacketArray packetArrayLength w.2 ⟨0, 0⟩
    let next := readPointer s.rxCur size
    let capr := (next + 2 ^ 32 - 0x10) % 2 ^ 16
    let next := if next ≥ ringSize then next - ringSize else next
    if s.lwipForwarding then
      ({ warnings := w.1, registers := [(caprRegister, capr)], handed := some r.2.1, panics := r.1 == 0 },
        { s with array := r.2.2 }.setRxCur next)
    else
      ({ warnings := w.1, registers := [(caprRegister, capr)] }, { s with array := w.2 }.setRxCur next)

/-- `TSD_array` and `TSAD_array`. -/
def tsdArray : List ℕ := [0x10, 0x14, 0x18, 0x1c]

def tsadArray : List ℕ := [0x20, 0x24, 0x28, 0x2c]

/-- `rtl8139_send_packet`. A position outside of the arrays of registers makes no defined write. -/
def sendPacket (s : Driver) (packet : Packet) : Out × Driver :=
  if packet.len > 1500 then
    ({ warnings := ["The rtl8139 driver does not support long packet."], panics := true }, s)
  else
    ({ registers := ((tsadArray[s.txCur]?).map fun r => (r, packet.data)).toList ++
        ((tsdArray[s.txCur]?).map fun r => (r, packet.len.toNat ||| 0x003f0000)).toList },
      { s with mem := Function.update s.mem txCurOffset (UInt8.ofNat ((s.txCur + 1) &&& 3)) })

/-- What happens to the driver: the device has received a frame and the handler runs its loop once;
the stack sends a packet, takes one, or the receiver is reset. -/
inductive Act
  | frame (f : Frame) (command : ℕ)
  | send (packet : Packet)
  | read (packet : Packet)
  | reset (command : ℕ)

def step (rxBuffer : ℕ) (s : Driver) : Act → Out × Driver
  | .frame f command => receivePacket rxBuffer (dma s f) command
  | .send packet => sendPacket s packet
  | .read packet =>
    let r := readPacketArray packetArrayLength s.array packet
    ({ handed := if r.1 = 1 then some r.2.1 else none }, { s with array := r.2.2 })
  | .reset command => resetRx s command

def steps (rxBuffer : ℕ) : Steps Driver Act Out := fun s a o t => step rxBuffer s a = (o, t)

/-! ### Fields and frames -/

variable {rxBuffer : ℕ} {s t u : Driver} {f : Frame} {a : Act} {o : Out} {n x command : ℕ}

theorem and_readPointerMask (h : x < 2 ^ 32) : x &&& 0xfffffffc = 4 * (x / 4) := by
  have hmask : 0xfffffffc = (2 ^ 30 - 1) <<< 2 := by decide
  have hshift : 4 * (x / 4) = (x >>> 2) <<< 2 := by
    rw [Nat.shiftLeft_eq, Nat.shiftRight_eq_div_pow, Nat.mul_comm]
  apply Nat.eq_of_testBit_eq
  intro i
  rw [hmask, hshift, Nat.testBit_and, Nat.testBit_shiftLeft, Nat.testBit_shiftLeft,
    Nat.testBit_two_pow_sub_one, Nat.testBit_shiftRight]
  by_cases hi : 2 ≤ i
  · rw [Nat.add_sub_cancel' hi]
    by_cases hlt : i < 32
    · simp [hi, show i - 2 < 30 by omega]
    · have hzero : x.testBit i = false :=
        Nat.testBit_lt_two_pow (Nat.lt_of_lt_of_le h (Nat.pow_le_pow_right (by omega) (by omega)))
      simp [hzero]
  · simp [hi]

@[simp] theorem rxCur_setRxCur (s : Driver) (n : ℕ) : (s.setRxCur n).rxCur = n % 2 ^ 32 := by
  have hload := load_store s.mem rxCurOffset (leBytes 4 n)
  rw [leBytes_length] at hload
  rw [Driver.rxCur, Driver.setRxCur, hload, leValue_leBytes]
  rfl

theorem mem_setRxCur (s : Driver) (n : ℕ) (h : x < rxCurOffset ∨ rxCurOffset + 4 ≤ x) :
    (s.setRxCur n).mem x = s.mem x :=
  store_of_outside (by rwa [leBytes_length])

@[simp] theorem Frame.image_length (f : Frame) : f.image.length = 4 + f.size := by
  simp [Frame.image, Frame.size]
  omega

/-- A frame that ends before `rx_cur` leaves it alone. -/
theorem rxCur_dma (h : s.rxCur + 4 + f.size ≤ rxCurOffset) : (dma s f).rxCur = s.rxCur := by
  rw [Driver.rxCur, dma, load_store_of_outside]
  · rfl
  · rw [Frame.image_length]
    omega

theorem mem_dma (h : x < s.rxCur ∨ s.rxCur + 4 + f.size ≤ x) : (dma s f).mem x = s.mem x :=
  store_of_outside (by rw [Frame.image_length]; omega)

/-- The header that the driver reads is the one that the device has written. -/
theorem status_dma (s : Driver) (f : Frame) : leValue (load (dma s f).mem s.rxCur 2) = f.status.toNat := by
  have hload := load_store_at s.mem s.rxCur [] (leBytes 2 f.status.toNat) (leBytes 2 f.size ++ f.bytes)
  rw [List.nil_append, ← List.append_assoc, leBytes_length, List.length_nil, Nat.add_zero] at hload
  rw [dma, Frame.image, hload, leValue_leBytes]
  exact Nat.mod_eq_of_lt f.status.toNat_lt

theorem size_dma (s : Driver) (f : Frame) (h : f.size < 2 ^ 16) :
    leValue (load (dma s f).mem (s.rxCur + 2) 2) = f.size := by
  have hload := load_store_at s.mem s.rxCur (leBytes 2 f.status.toNat) (leBytes 2 f.size) f.bytes
  rw [leBytes_length, leBytes_length] at hload
  rw [dma, Frame.image, hload, leValue_leBytes]
  exact Nat.mod_eq_of_lt h

/-! ### The offset -/

/-- The start of the frame is a multiple of 4 inside the ring. -/
structure Aligned (s : Driver) : Prop where
  dvd : s.rxCur % 4 = 0
  lt : s.rxCur < ringSize

theorem Aligned.le (h : Aligned s) : s.rxCur ≤ 8188 := by
  have hdvd := h.dvd
  have hlt := h.lt
  rw [ringSize] at hlt
  omega

theorem Aligned.of_rxCur_eq (h : Aligned s) (heq : t.rxCur = s.rxCur) : Aligned t :=
  ⟨by rw [heq]; exact h.dvd, by rw [heq]; exact h.lt⟩

structure Frame.Sized (f : Frame) : Prop where
  le_size : 64 ≤ f.size
  size_le : f.size ≤ 1518

def Act.Sized : Act → Prop
  | .frame f _ => f.Sized
  | _ => True

theorem rxCur_dma_of_sized (hs : Aligned s) (hf : f.Sized) : (dma s f).rxCur = s.rxCur := by
  have hle := hs.le
  have hsize := hf.size_le
  exact rxCur_dma (by rw [rxCurOffset]; omega)

/-- Where the frame after one of `size` bytes at `rxCur` starts. -/
def nextCur (rxCur size : ℕ) : ℕ :=
  let next := 4 * ((rxCur + size + 7) / 4)
  if next ≥ ringSize then next - ringSize else next

theorem readPointer_eq (h : n ≤ 1518) (hx : x < ringSize) : readPointer x n = 4 * ((x + n + 7) / 4) := by
  rw [ringSize] at hx
  rw [readPointer, Nat.mod_eq_of_lt (by omega), and_readPointerMask (by omega)]

theorem nextCur_spec (h : n ≤ 1518) (hx : x < ringSize) : nextCur x n % 4 = 0 ∧ nextCur x n < ringSize := by
  unfold nextCur
  dsimp only
  rw [ringSize] at *
  split_ifs <;> omega

/-- A driver with the memory of `s` that sets `rx_cur`. -/
theorem setRxCur_spec (heq : u.mem = s.mem) (hn : n < 2 ^ 32) :
    (u.setRxCur n).rxCur = n ∧
      ∀ x, x < rxCurOffset ∨ rxCurOffset + 4 ≤ x → (u.setRxCur n).mem x = s.mem x :=
  ⟨by rw [rxCur_setRxCur, Nat.mod_eq_of_lt hn], fun x hx => by rw [mem_setRxCur u n hx, heq]⟩

/-- The driver after an iteration: the next frame starts at the next offset, or at the beginning after
a frame with a bad status, and nothing but the frame and `rx_cur` was written. -/
theorem receive_spec (hs : Aligned s) (hf : f.Sized) (h : step rxBuffer s (.frame f command) = (o, t)) :
    t.rxCur = (if packetStatusValid f.status.toNat then nextCur s.rxCur f.size else 0) ∧
      ∀ x, x < rxCurOffset ∨ rxCurOffset + 4 ≤ x → t.mem x = (dma s f).mem x := by
  have hlt := hs.lt
  have hsize := hf.size_le
  have hcur := rxCur_dma_of_sized hs hf
  have hstatus : leValue (load (dma s f).mem (dma s f).rxCur 2) = f.status.toNat := by
    rw [hcur, status_dma]
  have hlen : leValue (load (dma s f).mem ((dma s f).rxCur + 2) 2) = f.size := by
    rw [hcur, size_dma s f (by omega)]
  have hnext : (if readPointer s.rxCur f.size ≥ ringSize then readPointer s.rxCur f.size - ringSize
      else readPointer s.rxCur f.size) = nextCur s.rxCur f.size := by
    rw [readPointer_eq hsize hlt]
    rfl
  have hsmall : nextCur s.rxCur f.size < 2 ^ 32 :=
    Nat.lt_of_lt_of_le (nextCur_spec hsize hlt).2 (by decide)
  simp only [step, receivePacket, hstatus, hlen] at h
  cases hv : packetStatusValid f.status.toNat with
  | false =>
    simp only [hv, Bool.not_false, if_true, resetRx] at h
    obtain ⟨-, rfl⟩ := Prod.mk.inj h
    rw [if_neg (Bool.false_ne_true)]
    exact setRxCur_spec (s := dma s f) rfl (by decide)
  | true =>
    simp only [hv, Bool.not_true, Bool.false_eq_true, if_false, hcur, hnext] at h
    split_ifs at h
    all_goals
      obtain ⟨-, rfl⟩ := Prod.mk.inj h
      rw [if_pos rfl]
      exact setRxCur_spec (s := dma s f) rfl hsmall

theorem Aligned.step (hs : Aligned s) (hstep : steps rxBuffer s a o t) (ha : a.Sized) : Aligned t := by
  cases a with
  | frame f command =>
    have ha : f.Sized := ha
    obtain ⟨hcur, -⟩ := receive_spec hs ha hstep
    obtain ⟨hdvd, hlt⟩ := nextCur_spec ha.size_le hs.lt
    split_ifs at hcur
    · exact ⟨by rw [hcur]; exact hdvd, by rw [hcur]; exact hlt⟩
    · exact ⟨by rw [hcur], by rw [hcur]; decide⟩
  | send packet =>
    have hcur : t.rxCur = s.rxCur := by
      simp only [steps, Rtl8139.step, sendPacket] at hstep
      split_ifs at hstep
      · cases hstep
        rfl
      · cases hstep
        rw [Driver.rxCur, ← store_singleton, load_store_of_outside]
        · rfl
        · exact .inr (by rw [List.length_singleton]; decide)
    exact hs.of_rxCur_eq hcur
  | read packet =>
    cases hstep
    exact hs.of_rxCur_eq rfl
  | reset command =>
    cases hstep
    exact ⟨by rw [rxCur_setRxCur]; rfl, by rw [rxCur_setRxCur]; decide⟩

/-! ### Bounds -/

/-- The frame is inside the buffer, and the device writes no field of the driver. -/
def FrameInside (s : Driver) (f : Frame) : Prop :=
  s.rxCur + 4 + f.size ≤ rxBufAllocSize ∧ (dma s f).txCur = s.txCur ∧ (dma s f).rxCur = s.rxCur

/-- The packet that the driver makes of the frame is inside the buffer. -/
def PacketInside (rxBuffer : ℕ) (s : Driver) (f : Frame) : Prop :=
  let packet := packetAt rxBuffer (dma s f)
  rxBuffer ≤ packet.data ∧ packet.data + packet.len.toNat ≤ rxBuffer + rxBufAllocSize

/-- A frame goes past the end of the buffer only from the last place in the ring. -/
theorem frameInside_iff (hs : Aligned s) (hf : f.Sized) :
    FrameInside s f ↔ ¬ (s.rxCur = 8188 ∧ 1516 < f.size) := by
  have hdvd := hs.dvd
  have hlt := hs.lt
  have hsize := hf.size_le
  rw [ringSize] at hlt
  constructor
  · rintro ⟨hend, -, -⟩ ⟨hcur, hbig⟩
    rw [rxBufAllocSize] at hend
    omega
  · intro hnot
    have hend : s.rxCur + 4 + f.size ≤ rxBufAllocSize := by
      rw [rxBufAllocSize]
      omega
    refine ⟨hend, ?_, rxCur_dma (Nat.le_trans hend (by decide))⟩
    rw [Driver.txCur, mem_dma (x := txCurOffset) (.inr hend)]
    rfl

theorem packetInside (hs : Aligned s) (hf : f.Sized) : PacketInside rxBuffer s f := by
  have hle := hs.le
  have hlo := hf.le_size
  have hhi := hf.size_le
  have hcur := rxCur_dma_of_sized hs hf
  have hlen : (packetAt rxBuffer (dma s f)).len.toNat = f.size - 4 := by
    rw [packetAt, hcur, size_dma s f (by omega)]
    show (UInt16.ofNat (f.size + 2 ^ 16 - 4)).toNat = f.size - 4
    rw [UInt16.toNat_ofNat']
    omega
  have hdata : (packetAt rxBuffer (dma s f)).data = rxBuffer + s.rxCur + 4 := by
    rw [packetAt, hcur]
  rw [PacketInside, hlen, hdata, rxBufAllocSize]
  omega

/-! ### Runs -/

variable {tr : List (Event Driver Act Out)} {e : Event Driver Act Out}

theorem aligned_of_mem (hrun : Run (steps rxBuffer) s tr u) (h₀ : s.rxCur = 0)
    (hsize : ∀ e ∈ tr, e.act.Sized) (he : e ∈ tr) : Aligned e.pre :=
  (hrun.invariant_of_mem (P := fun e => e.act.Sized) (I := Aligned)
    ⟨by rw [h₀], by rw [h₀]; decide⟩ hsize (fun _ hs ha hpre => hpre.step hs ha) he).1

/-- In every run from the start of the ring, every frame starts at a multiple of 4 inside the ring and
its packet is inside the buffer. The frames themselves are inside the buffer, and no field of
the driver is written by the device, exactly if no frame of more than 1516 bytes comes in at the
last place of the ring. -/
theorem rx_ring_bounds_iff (hrun : Run (steps rxBuffer) s tr u) (h₀ : s.rxCur = 0)
    (hsize : ∀ e ∈ tr, e.act.Sized) :
    (∀ e ∈ tr, e.pre.rxCur % 4 = 0 ∧ e.pre.rxCur < 8192 ∧
      ∀ f command, e.act = .frame f command → PacketInside rxBuffer e.pre f) ∧
    ((∀ e ∈ tr, ∀ f command, e.act = .frame f command → FrameInside e.pre f) ↔
      ∀ e ∈ tr, ∀ f command, e.act = .frame f command → ¬ (e.pre.rxCur = 8188 ∧ 1516 < f.size)) := by
  have hframe : ∀ e ∈ tr, ∀ f command, e.act = .frame f command → f.Sized := by
    intro e he f command hact
    have hsized := hsize e he
    rwa [hact] at hsized
  refine ⟨fun e he => ?_, forall₂_congr fun e he => forall₃_congr fun f command hact => ?_⟩
  · have hal := aligned_of_mem hrun h₀ hsize he
    exact ⟨hal.dvd, hal.lt, fun f command hact => packetInside hal (hframe e he f command hact)⟩
  · exact frameInside_iff (aligned_of_mem hrun h₀ hsize he) (hframe e he f command hact)

/-- A frame that stays inside the buffer leaves `tx_cur` alone, and sending keeps it below 4. -/
theorem txCur_step (hs : Aligned s) (htx : s.txCur < 4) (hstep : steps rxBuffer s a o t) (ha : a.Sized)
    (hin : ∀ f command, a = .frame f command → FrameInside s f) : t.txCur < 4 := by
  cases a with
  | frame f command =>
    have hmem := (receive_spec hs ha hstep).2 txCurOffset (.inl (by decide))
    have hkeep := (hin f command rfl).2.1
    rw [Driver.txCur] at hkeep
    rw [Driver.txCur, hmem, hkeep]
    exact htx
  | send packet =>
    simp only [steps, step, sendPacket] at hstep
    split_ifs at hstep
    · cases hstep
      exact htx
    · cases hstep
      have hmod : (s.txCur + 1) &&& 3 = (s.txCur + 1) % 4 := Nat.and_two_pow_sub_one_eq_mod _ 2
      rw [Driver.txCur]
      dsimp only
      rw [Function.update_self, hmod, UInt8.toNat_ofNat']
      omega
  | read packet =>
    cases hstep
    exact htx
  | reset command =>
    cases hstep
    have hmem := mem_setRxCur { s with array := Dev.resetRx packetArrayLength s.array } 0
      (x := txCurOffset) (.inl (by decide))
    rw [Driver.txCur, hmem]
    exact htx

/-- As long as every frame stays inside the buffer, every packet is sent with the registers of one of
the four descriptors. -/
theorem sends_in_range (hrun : Run (steps rxBuffer) s tr u) (h₀ : s.rxCur = 0) (htx : s.txCur < 4)
    (hsize : ∀ e ∈ tr, e.act.Sized)
    (hlast : ∀ e ∈ tr, ∀ f command, e.act = .frame f command → ¬ (e.pre.rxCur = 8188 ∧ 1516 < f.size))
    (he : e ∈ tr) : e.pre.txCur < 4 := by
  have hinv := hrun.invariant_of_mem
    (P := fun e => e.act.Sized ∧ ∀ f command, e.act = .frame f command → ¬ (e.pre.rxCur = 8188 ∧ 1516 < f.size))
    (I := fun s => Aligned s ∧ s.txCur < 4) ⟨⟨by rw [h₀], by rw [h₀]; decide⟩, htx⟩
    (fun e he => ⟨hsize e he, hlast e he⟩)
    (fun e hs hp hpre => by
      refine ⟨hpre.1.step hs hp.1, txCur_step hpre.1 hpre.2 hs hp.1 fun f command hact => ?_⟩
      have hf : f.Sized := by
        have hsized := hp.1
        rwa [hact] at hsized
      exact (frameInside_iff hpre.1 hf).mpr (hp.2 f command hact)) he
  exact hinv.1.2

def plainFrame (n : ℕ) (b : UInt8) : Frame := ⟨1, List.replicate n b⟩

@[simp] theorem plainFrame_size (n : ℕ) (b : UInt8) : (plainFrame n b).size = n := List.length_replicate

theorem plainFrame_sized {n : ℕ} {b : UInt8} (hlo : 64 ≤ n) (hhi : n ≤ 1518) : (plainFrame n b).Sized :=
  ⟨by rwa [plainFrame_size], by rwa [plainFrame_size]⟩

theorem plainFrame_status (n : ℕ) (b : UInt8) : packetStatusValid (plainFrame n b).status.toNat = true := by
  show packetStatusValid (1 : UInt16).toNat = true
  decide

/-- The driver as `rtl8139_init` leaves it, with a cleared buffer. -/
def initDriver : Driver := ⟨fun _ => 0, ⟨fun _ => ⟨0, 0⟩, 0, 0⟩⟩

theorem initDriver_rxCur : initDriver.rxCur = 0 := by decide

/-- A largest frame at the start of the ring. -/
theorem rx_ring_bounds_iff_first : ∃ tr u, Run (steps 0) initDriver tr u ∧
    (∀ e ∈ tr, e.act = .frame (plainFrame 1518 0) 12) ∧ tr.length = 1 ∧
    ∀ e ∈ tr, FrameInside e.pre (plainFrame 1518 0) := by
  have hrun := trail_run (step 0) initDriver [.frame (plainFrame 1518 0) 12]
  have hacts : ∀ e ∈ trail (step 0) initDriver [.frame (plainFrame 1518 0) 12],
      e.act = .frame (plainFrame 1518 0) 12 ∧ e.pre = initDriver := by
    intro e he
    rw [trail, trail, List.mem_singleton] at he
    exact ⟨by rw [he], by rw [he]⟩
  have hbounds := rx_ring_bounds_iff hrun initDriver_rxCur fun e he => by
    rw [(hacts e he).1]
    exact plainFrame_sized (by decide) (by decide)
  refine ⟨_, _, hrun, fun e he => (hacts e he).1, rfl, fun e he => ?_⟩
  refine hbounds.2.mpr (fun e he f command _ hlast => ?_) e he _ _ (hacts e he).1
  rw [(hacts e he).2, initDriver_rxCur] at hlast
  exact absurd hlast.1 (by decide)

/-! ### The last place of the ring -/

def frames (fs : List Frame) : List Act := fs.map (.frame · 12)

def after (rxBuffer : ℕ) (s : Driver) (acts : List Act) : Driver :=
  acts.foldl (fun s a => (step rxBuffer s a).2) s

theorem after_cons (rxBuffer : ℕ) (s : Driver) (a : Act) (acts : List Act) :
    after rxBuffer s (a :: acts) = after rxBuffer (step rxBuffer s a).2 acts := rfl

theorem after_append (rxBuffer : ℕ) (s : Driver) (l r : List Act) :
    after rxBuffer s (l ++ r) = after rxBuffer (after rxBuffer s l) r := List.foldl_append

/-- Where a sequence of frames leads. -/
theorem rxCur_after_frames (rxBuffer : ℕ) (hs : Aligned s) (fs : List Frame)
    (hfs : ∀ f ∈ fs, f.Sized ∧ packetStatusValid f.status.toNat = true) :
    Aligned (after rxBuffer s (frames fs)) ∧
      (after rxBuffer s (frames fs)).rxCur = (fs.map Frame.size).foldl nextCur s.rxCur := by
  induction fs generalizing s with
  | nil => exact ⟨hs, rfl⟩
  | cons f fs ih =>
    obtain ⟨hf, hvalid⟩ := hfs f List.mem_cons_self
    have hstep : steps rxBuffer s (.frame f 12) (step rxBuffer s (.frame f 12)).1
        (step rxBuffer s (.frame f 12)).2 := Prod.mk.eta.symm
    obtain ⟨hcur, -⟩ := receive_spec hs hf hstep
    rw [if_pos hvalid] at hcur
    obtain ⟨hal, hend⟩ := ih (hs.step hstep hf) fun g hg => hfs g (List.mem_cons_of_mem f hg)
    rw [hcur] at hend
    rw [frames, List.map_cons, after_cons, List.map_cons, List.foldl_cons]
    exact ⟨hal, hend⟩

/-- Five largest frames and a short one lead to the last place of the ring, and a largest frame there
is written over `tx_cur`: the next packet is sent with a register from outside of the arrays. -/
theorem last_place_overwrites_txCur :
    ∃ fs f, (∀ g ∈ fs ++ [f], g.Sized ∧ packetStatusValid g.status.toNat = true) ∧
      (after 0 initDriver (frames fs)).rxCur = 8188 ∧ (after 0 initDriver (frames fs)).rxCur + 4 + f.size = 9710 ∧
      ¬ FrameInside (after 0 initDriver (frames fs)) f ∧
      (after 0 initDriver (frames (fs ++ [f]))).txCur = 170 ∧
      (step 0 (after 0 initDriver (frames (fs ++ [f]))) (.send ⟨60, 4⟩)).1.registers = [] := by
  let fs := List.replicate 5 (plainFrame 1518 0) ++ [plainFrame 561 0]
  let f := plainFrame 1518 170
  have hvalid : ∀ g ∈ fs ++ [f], g.Sized ∧ packetStatusValid g.status.toNat = true := by
    intro g hg
    have hcases : g = plainFrame 1518 0 ∨ g = plainFrame 561 0 ∨ g = f := by
      simpa only [fs, List.mem_append, List.mem_replicate, List.mem_singleton, ne_eq, or_assoc,
        OfNat.ofNat_ne_zero, not_false_eq_true, true_and] using hg
    rcases hcases with hg | hg | hg <;> rw [hg]
    · exact ⟨plainFrame_sized (by decide) (by decide), plainFrame_status 1518 0⟩
    · exact ⟨plainFrame_sized (by decide) (by decide), plainFrame_status 561 0⟩
    · exact ⟨plainFrame_sized (by decide) (by decide), plainFrame_status 1518 170⟩
  have hf : f.Sized := (hvalid f (by simp)).1
  obtain ⟨hal, hcur⟩ := rxCur_after_frames 0 (s := initDriver)
    ⟨by rw [initDriver_rxCur], by rw [initDriver_rxCur]; decide⟩ fs
    fun g hg => hvalid g (List.mem_append_left _ hg)
  have hlast : (after 0 initDriver (frames fs)).rxCur = 8188 := by
    rw [hcur, initDriver_rxCur]
    simp only [fs, List.map_append, List.map_replicate, List.map_cons, List.map_nil, plainFrame_size]
    decide
  set d := after 0 initDriver (frames fs)
  have hnext : after 0 initDriver (frames (fs ++ [f])) = (step 0 d (.frame f 12)).2 := by
    rw [frames, List.map_append, after_append]
    rfl
  -- The byte at the place of `tx_cur` is the last but one of the frame.
  have htx : (step 0 d (.frame f 12)).2.txCur = 170 := by
    have hstep : step 0 d (.frame f 12) = ((step 0 d (.frame f 12)).1, (step 0 d (.frame f 12)).2) :=
      Prod.mk.eta.symm
    have hmem := (receive_spec hal hf hstep).2 txCurOffset (.inl (by decide))
    have hbyte : f.image[txCurOffset - 8188]? = some 170 := by
      rw [Frame.image, List.getElem?_append_right (by decide)]
      exact List.getElem?_replicate_of_lt (by decide)
    rw [Driver.txCur, hmem, dma, hlast]
    dsimp only
    rw [store, if_pos (by decide), hbyte]
    rfl
  refine ⟨fs, f, hvalid, hlast, by rw [hlast, plainFrame_size], ?_, by rw [hnext, htx], ?_⟩
  · rw [frameInside_iff hal hf, not_not]
    exact ⟨hlast, by rw [plainFrame_size]; decide⟩
  · rw [hnext]
    simp only [step, sendPacket] at htx ⊢
    rw [if_neg (by decide), htx]
    rfl

end Nanvix.Dev.Rtl8139
