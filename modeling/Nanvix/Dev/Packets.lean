import Mathlib.Data.Nat.Bitwise
import Nanvix.Lib.Fifo

/-! The packet array of the `rtl8139` driver: a ring of packet descriptors that the
interrupt handler fills and the network stack empties. One slot stays unused, so equal
positions mean an empty array. The length is a power of two of at most 128, since the
positions are bytes that are advanced with a mask. The array is then a queue that drops
the newest packet when it is full. -/

namespace Nanvix.Dev

open Nanvix.Lib Function

/-- A network packet. `data` is an address, and `NULL` is `0`. -/
structure Packet where
  len : UInt16
  data : ℕ
  deriving DecidableEq, Repr

structure PacketArray where
  packets : ℕ → Packet
  readPos : UInt8
  writePos : UInt8

def fullWarning : String :=
  "Warning : packet array full, dropping packet (increase PACKET_ARRAY_LENGTH)"

def overrideWarning : String :=
  "Warning : packet buffer full, override old packets (you should treat packets faster)"

/-- The test that announces that the receive buffer runs into the packet `old`. -/
def Overrides (old packet : Packet) : Prop :=
  old.data ≠ 0 ∧ packet.data ≤ old.data ∧ packet.data + packet.len.toNat ≤ old.data

instance (old packet : Packet) : Decidable (Overrides old packet) :=
  inferInstanceAs (Decidable (_ ∧ _ ∧ _))

/-! ### The driver's functions

`length` is `PACKET_ARRAY_LENGTH`. -/

section Model

variable (length : ℕ)

/-- `(pos + 1) & (PACKET_ARRAY_LENGTH - 1)`, stored in a byte. -/
def advance (pos : UInt8) : UInt8 := UInt8.ofNat ((pos.toNat + 1) &&& (length - 1))

/-- `write_packet_array`, with the warnings it prints. -/
def writePacketArray (a : PacketArray) (packet : Packet) : List String × PacketArray :=
  if (a.writePos.toNat + 1) % length = a.readPos.toNat then
    ([fullWarning], a)
  else
    (if Overrides (a.packets a.readPos.toNat) packet then [overrideWarning] else [],
      { a with
        packets := update a.packets a.writePos.toNat packet
        writePos := advance length a.writePos })

/-- `read_packet_array`: the value returned, what `*packet` holds then, and the array. -/
def readPacketArray (a : PacketArray) (packet : Packet) : ℕ × Packet × PacketArray :=
  if a.readPos = a.writePos then
    (0, packet, a)
  else
    let old := a.packets a.readPos.toNat
    (1, old,
      { a with
        packets := update a.packets a.readPos.toNat { old with data := 0 }
        readPos := advance length a.readPos })

def networkIsNewPacket (a : PacketArray) : Bool := a.readPos != a.writePos

/-- What `rtl8139_reset_rx` does to the packet array. The lengths stay. -/
def resetRx (a : PacketArray) : PacketArray where
  packets i := if i < length then { a.packets i with data := 0 } else a.packets i
  readPos := 0
  writePos := 0

end Model

inductive Call
  | write (packet : Packet)
  | read (packet : Packet)
  | isNew
  deriving DecidableEq, Repr

inductive Answer
  | wrote (warnings : List String)
  | fetched (ret : ℕ) (packet : Packet)
  | asked (new : Bool)
  deriving DecidableEq, Repr

def PacketArray.step (length : ℕ) (a : PacketArray) : Call → Answer × PacketArray
  | .write packet =>
    let r := writePacketArray length a packet
    (.wrote r.1, r.2)
  | .read packet =>
    let r := readPacketArray length a packet
    (.fetched r.1 r.2.1, r.2.2)
  | .isNew => (.asked (networkIsNewPacket a), a)

/-! ### The queue -/

/-- A queue of at most `cap` packets that drops the newest packet when it is full. A packet
that lies before the oldest one in memory is announced. -/
def Queue.step (cap : ℕ) (q : List Packet) : Call → Answer × List Packet
  | .write packet =>
    if q.length = cap then (.wrote [fullWarning], q)
    else (.wrote (if q.head?.any (fun old => decide (Overrides old packet)) then [overrideWarning] else []),
      q ++ [packet])
  | .read packet =>
    match q with
    | [] => (.fetched 0 packet, [])
    | old :: q => (.fetched 1 old, q)
  | .isNew => (.asked (!q.isEmpty), q)

/-- The packets in the array, oldest first. -/
def contents (length : ℕ) (a : PacketArray) : List Packet :=
  Ring.window a.packets length a.readPos.toNat
    ((a.writePos.toNat + length - a.readPos.toNat) % length)

/-- The array holds the queue `q`, and the free slots are cleared. -/
structure Holds (length : ℕ) (a : PacketArray) (q : List Packet) : Prop where
  queued : Ring.Queued a.packets length a.readPos.toNat q
  room : q.length < length
  write_eq : a.writePos.toNat = (a.readPos.toNat + q.length) % length
  cleared : ∀ i, q.length ≤ i → i < length → (a.packets ((a.readPos.toNat + i) % length)).data = 0

section Advance

variable {length : ℕ}

/-- The mask on a byte is the remainder. -/
theorem toNat_advance (hpow : ∃ k, length = 2 ^ k) (hle : length ≤ 128) (pos : UInt8) :
    (advance length pos).toNat = (pos.toNat + 1) % length := by
  obtain ⟨k, rfl⟩ := hpow
  have hlt : (pos.toNat + 1) % 2 ^ k < 2 ^ k := Nat.mod_lt _ (Nat.two_pow_pos k)
  rw [advance, UInt8.toNat_ofNat', Nat.and_two_pow_sub_one_eq_mod, Nat.mod_eq_of_lt]
  omega

end Advance

namespace Holds

variable {length : ℕ} {a : PacketArray} {q : List Packet} {old : Packet}

theorem read_lt (h : Holds length a q) : a.readPos.toNat < length := h.queued.tail_lt

theorem write_lt (h : Holds length a q) : a.writePos.toNat < length := by
  rw [h.write_eq]
  exact Nat.mod_lt _ (Nat.zero_lt_of_lt h.room)

theorem contents_eq (h : Holds length a q) : contents length a = q := by
  have hn : (a.writePos.toNat + length - a.readPos.toNat) % length = q.length := by
    have hr := h.read_lt
    have hroom := h.room
    rw [h.write_eq, Nat.add_mod_eq_ite, Nat.mod_eq_of_lt hr, Nat.mod_eq_of_lt hroom]
    split_ifs with hwrap
    · rw [Nat.mod_eq_of_lt] <;> omega
    · rw [show a.readPos.toNat + q.length + length - a.readPos.toNat = q.length + length by omega,
        Nat.add_mod_right, Nat.mod_eq_of_lt hroom]
  rw [contents, hn, h.queued.window_eq]

theorem full_iff (h : Holds length a q) :
    (a.writePos.toNat + 1) % length = a.readPos.toNat ↔ q.length = length - 1 := by
  have hroom := h.room
  rw [h.write_eq, Nat.mod_add_mod, Nat.add_assoc, Ring.index_eq_start h.read_lt (by omega)]
  omega

theorem empty_iff (h : Holds length a q) : a.readPos = a.writePos ↔ q = [] := by
  rw [← UInt8.toNat_inj, h.write_eq, eq_comm, Ring.index_eq_start h.read_lt (by have := h.room; omega)]
  rw [← List.length_eq_zero_iff]
  have := h.room
  omega

/-- The slot that the override test looks at is cleared when the array is empty. -/
theorem overrides_iff (h : Holds length a q) (packet : Packet) :
    Overrides (a.packets a.readPos.toNat) packet ↔
      q.head?.any (fun old => decide (Overrides old packet)) = true := by
  cases q with
  | nil =>
    have hnull := h.cleared 0 (Nat.le_refl 0) h.room
    rw [Nat.add_zero, Nat.mod_eq_of_lt h.read_lt] at hnull
    simp [Overrides, hnull]
  | cons old q => simp [h.queued.head]

/-- From any array the reset leads to an empty queue. -/
theorem reset (length : ℕ) (hlen : 0 < length) (a : PacketArray) : Holds length (resetRx length a) [] where
  queued := .nil _ hlen
  room := hlen
  write_eq := (Nat.zero_mod length).symm
  cleared i _ hi := by
    have hpos : (resetRx length a).readPos.toNat = 0 := rfl
    rw [hpos, Nat.zero_add, Nat.mod_eq_of_lt hi]
    simp [resetRx, hi]

/-- A packet that is written when there is room goes to the end. -/
theorem push (h : Holds length a q) (hpow : ∃ k, length = 2 ^ k) (hle : length ≤ 128)
    (hroom : q.length + 1 < length) (packet : Packet) :
    Holds length
      { a with
        packets := update a.packets a.writePos.toNat packet
        writePos := advance length a.writePos } (q ++ [packet]) where
  queued := by
    rw [h.write_eq]
    exact h.queued.push h.room packet
  room := by rwa [List.length_append, List.length_singleton]
  write_eq := by
    rw [toNat_advance hpow hle, h.write_eq, Nat.mod_add_mod, List.length_append, List.length_singleton,
      Nat.add_assoc]
  cleared i hi hlt := by
    rw [List.length_append, List.length_singleton] at hi
    have hne : (a.readPos.toNat + i) % length ≠ a.writePos.toNat := by
      rw [h.write_eq]
      intro heq
      exact absurd (Ring.index_inj hlt h.room heq) (by omega)
    show (update a.packets a.writePos.toNat packet ((a.readPos.toNat + i) % length)).data = 0
    rw [update_of_ne hne]
    exact h.cleared i (by omega) hlt

/-- The oldest packet leaves, and its slot is cleared. -/
theorem pop (h : Holds length a (old :: q)) (hpow : ∃ k, length = 2 ^ k) (hle : length ≤ 128) :
    Holds length
      { a with
        packets := update a.packets a.readPos.toNat
          { a.packets a.readPos.toNat with data := 0 }
        readPos := advance length a.readPos } q where
  queued := by
    rw [toNat_advance hpow hle]
    exact h.queued.pop _
  room := Nat.lt_of_succ_lt h.room
  write_eq := by
    rw [toNat_advance hpow hle, Ring.index_succ, h.write_eq, List.length_cons]
  cleared i hi hlt := by
    rw [toNat_advance hpow hle, Ring.index_succ]
    dsimp only
    by_cases heq : (a.readPos.toNat + (i + 1)) % length = a.readPos.toNat
    · rw [heq, update_self]
    · rw [update_of_ne heq]
      refine h.cleared (i + 1) (Nat.succ_le_succ hi) (Nat.lt_of_le_of_ne hlt fun hlast => heq ?_)
      exact (Ring.index_eq_start h.read_lt (by omega)).mpr (.inr hlast)

/-- A call on the array answers what the queue answers, and the array holds the queue
again. -/
theorem step (h : Holds length a q) (hpow : ∃ k, length = 2 ^ k) (hle : length ≤ 128) (c : Call) :
    (a.step length c).1 = (Queue.step (length - 1) q c).1 ∧
      Holds length (a.step length c).2 (Queue.step (length - 1) q c).2 := by
  cases c with
  | write packet =>
    simp only [PacketArray.step, writePacketArray, Queue.step, h.full_iff]
    split_ifs with hfull hover hover' hover'
    · exact ⟨rfl, h⟩
    · exact ⟨rfl, h.push hpow hle (by have := h.room; omega) packet⟩
    · exact absurd ((h.overrides_iff packet).mp hover) hover'
    · exact absurd ((h.overrides_iff packet).mpr hover') hover
    · exact ⟨rfl, h.push hpow hle (by have := h.room; omega) packet⟩
  | read packet =>
    simp only [PacketArray.step, readPacketArray, h.empty_iff]
    cases q with
    | nil => exact ⟨rfl, h⟩
    | cons old q =>
      rw [if_neg (List.cons_ne_nil old q)]
      exact ⟨by rw [h.queued.head]; rfl, h.pop hpow hle⟩
  | isNew =>
    refine ⟨?_, h⟩
    have hnew : networkIsNewPacket a = !q.isEmpty := by
      rw [networkIsNewPacket, Bool.eq_iff_iff]
      simp [h.empty_iff]
    simp only [PacketArray.step, Queue.step, hnew]

end Holds

/-! ### Runs -/

def storedBy (e : Event PacketArray Call Answer) : List Packet :=
  match e.act, e.out with
  | .write packet, .wrote warnings => if fullWarning ∈ warnings then [] else [packet]
  | _, _ => []

def fetchedBy (e : Event PacketArray Call Answer) : List Packet :=
  match e.out with
  | .fetched 1 packet => [packet]
  | _ => []

def stored (tr : List (Event PacketArray Call Answer)) : List Packet := tr.flatMap storedBy

def fetched (tr : List (Event PacketArray Call Answer)) : List Packet := tr.flatMap fetchedBy

variable {length : ℕ}

def PacketArray.after (length : ℕ) (a : PacketArray) (calls : List Call) : PacketArray :=
  calls.foldl (fun a c => (a.step length c).2) a

/-- The array answers a list of calls as the queue does. -/
theorem Holds.trail {a : PacketArray} {q : List Packet} (h : Holds length a q)
    (hpow : ∃ k, length = 2 ^ k) (hle : length ≤ 128) (calls : List Call) :
    (trail (PacketArray.step length) a calls).map (·.out) =
      (trail (Queue.step (length - 1)) q calls).map (·.out) := by
  induction calls generalizing a q with
  | nil => rfl
  | cons c calls ih =>
    obtain ⟨hout, hnext⟩ := h.step hpow hle c
    simp only [Lib.trail, List.map_cons, hout, ih hnext]

/-- Every call of a run starts and ends in an array that holds a queue. -/
theorem Holds.of_mem {a u : PacketArray} {q : List Packet} {tr : List (Event PacketArray Call Answer)}
    {e : Event PacketArray Call Answer} (h : Holds length a q) (hpow : ∃ k, length = 2 ^ k)
    (hle : length ≤ 128) (hrun : Run (fun s c o t => PacketArray.step length s c = (o, t)) a tr u)
    (he : e ∈ tr) :
    ∃ q, Holds length e.pre q ∧ Holds length e.post (Queue.step (length - 1) q e.act).2 ∧
      e.out = (Queue.step (length - 1) q e.act).1 := by
  obtain ⟨⟨q, hq⟩, -⟩ := hrun.invariant_of_mem (P := fun _ => True)
    (I := fun a => ∃ q, Holds length a q) ⟨q, h⟩ (fun _ _ => trivial)
    (fun e hs _ hpre => by
      obtain ⟨q, hq⟩ := hpre
      have hnext := (hq.step hpow hle e.act).2
      rw [hs] at hnext
      exact ⟨_, hnext⟩) he
  have hstep := hq.step hpow hle e.act
  rw [hrun.step_of_mem he] at hstep
  exact ⟨q, hq, hstep.2, hstep.1⟩

/-- What one call moves: the packet that is written comes in at the end unless the array is full,
and the packet that is read goes out at the front. -/
theorem Queue.step_fifo (cap : ℕ) (q : List Packet) (c : Call) {e : Event PacketArray Call Answer}
    (hact : e.act = c) (hout : e.out = (Queue.step cap q c).1) :
    q ++ storedBy e = fetchedBy e ++ (Queue.step cap q c).2 := by
  simp only [storedBy, fetchedBy, hact, hout]
  cases c with
  | write packet =>
    simp only [Queue.step]
    split_ifs <;> simp_all [fullWarning, overrideWarning]
  | read packet => cases q <;> simp [Queue.step]
  | isNew => simp [Queue.step]

theorem Queue.write_dropped_iff (cap : ℕ) (q : List Packet) (packet : Packet) :
    (Queue.step cap q (.write packet)).1 = .wrote [fullWarning] ↔ q.length = cap := by
  simp only [Queue.step]
  split_ifs <;> simp_all [fullWarning, overrideWarning]

theorem Queue.read_zero_iff (cap : ℕ) (q : List Packet) (packet : Packet) :
    (Queue.step cap q (.read packet)).1 = .fetched 0 packet ↔ q = [] := by
  cases q <;> simp [Queue.step]

/-- The packet array is a queue of one packet less than its length. From any array that was
reset, a list of calls is answered as the queue answers it. What was stored is what was
fetched and what is left, in this order; a write is dropped only when the queue is full, and
a read returns `0` only when the queue is empty. The positions stay inside the array. -/
theorem packet_array_is_queue (hpow : ∃ k, length = 2 ^ k) (hle : length ≤ 128) (a₀ : PacketArray)
    (calls : List Call) :
    let tr := trail (PacketArray.step length) (resetRx length a₀) calls
    tr.map (·.out) = (trail (Queue.step (length - 1)) [] calls).map (·.out) ∧
    stored tr = fetched tr ++ contents length ((resetRx length a₀).after length calls) ∧
    ∀ e ∈ tr,
      (e.post.readPos.toNat < length ∧ e.post.writePos.toNat < length) ∧
      (contents length e.post).length ≤ length - 1 ∧
      (∀ packet, e.act = .write packet →
        (e.out = .wrote [fullWarning] ↔ (contents length e.pre).length = length - 1)) ∧
      (∀ packet, e.act = .read packet → (e.out = .fetched 0 packet ↔ contents length e.pre = [])) := by
  intro tr
  have hlen : 0 < length := by
    obtain ⟨k, rfl⟩ := hpow
    exact Nat.two_pow_pos k
  have hreset := Holds.reset length hlen a₀
  have hrun := trail_run (PacketArray.step length) (resetRx length a₀) calls
  refine ⟨hreset.trail hpow hle calls, ?_, fun e he => ?_⟩
  · have hmoves : ∀ e ∈ tr, contents length e.pre ++ storedBy e = fetchedBy e ++ contents length e.post := by
      intro e he
      obtain ⟨q, hpre, hpost, hout⟩ := hreset.of_mem hpow hle hrun he
      rw [hpre.contents_eq, hpost.contents_eq]
      exact Queue.step_fifo (length - 1) q e.act rfl hout
    have hfifo := hrun.fifo hmoves
    rwa [hreset.contents_eq, List.nil_append] at hfifo
  · obtain ⟨q, hpre, hpost, hout⟩ := hreset.of_mem hpow hle hrun he
    rw [hpre.contents_eq, hpost.contents_eq]
    refine ⟨⟨hpost.read_lt, hpost.write_lt⟩, Nat.le_sub_one_of_lt hpost.room, ?_, ?_⟩
    · intro packet hact
      rw [hout, hact]
      exact Queue.write_dropped_iff (length - 1) q packet
    · intro packet hact
      rw [hout, hact]
      exact Queue.read_zero_iff (length - 1) q packet

def packetArrayLength : ℕ := 16

/-- Two packets through the array of the source. -/
theorem packet_array_is_queue_sixteen :
    ∃ a₀ : PacketArray, ∃ calls,
      calls = [.write ⟨60, 4⟩, .write ⟨64, 72⟩, .read ⟨0, 0⟩] ∧
      stored (trail (PacketArray.step packetArrayLength) (resetRx packetArrayLength a₀) calls) =
        fetched (trail (PacketArray.step packetArrayLength) (resetRx packetArrayLength a₀) calls) ++
          contents packetArrayLength ((resetRx packetArrayLength a₀).after packetArrayLength calls) ∧
      fetched (trail (PacketArray.step packetArrayLength) (resetRx packetArrayLength a₀) calls) =
        [⟨60, 4⟩] :=
  ⟨⟨fun _ => ⟨0, 0⟩, 0, 0⟩, _, rfl,
    (packet_array_is_queue ⟨4, rfl⟩ (by decide) _ _).2.1, by decide⟩

end Nanvix.Dev
