import Nanvix.Dev.EthocPlacement
import Nanvix.Lib.Ring

/-! The order in which the `ethoc` driver hands out frames. The driver looks for a frame from its head
on and takes the first one that it finds, wherever that is, but it advances the head by one. The
device fills the descriptors from the head on as well. So the first frame found is the oldest one,
unless it came in behind the driver's back: the head was read empty and two frames came in after that.
The head itself is lost when a frame is written over it. -/

namespace Nanvix.Dev.Ethoc

open Nanvix.Lib Nanvix.Lib.Bytes Function

variable {s t u : Machine} {a : Act} {o : Answer}

/-- What has happened since the reset: the frames that the device has stored, how many the driver has
taken and returned, and how many were pending when the last call read its first descriptor. -/
structure Ledger where
  stored : List (List UInt8) := []
  taken : ℕ := 0
  returned : ℕ := 0
  atFirst : ℕ := 0

namespace Ledger

def pending (g : Ledger) : ℕ := g.stored.length - g.taken

/-- A call reads a descriptor, in iteration `i` of its loop. -/
def read (g : Ledger) (i : ℕ) : Ledger := if i = 0 then { g with atFirst := g.pending } else g

def note (g : Ledger) (e : Event Machine Act Answer) : Ledger :=
  match e.act, e.pre.pc with
  | .receive f, _ => if e.pre.hasRoom then { g with stored := g.stored ++ [f.bytes] } else g
  | .proceed, .scan i bd _ =>
    if e.pre.isEmpty bd then g.read i else { g.read i with taken := g.taken + 1 }
  | .proceed, .took _ _ => { g with returned := g.returned + 1 }
  | .proceed, .look i _ => g.read i
  | _, _ => g

def of (tr : List (Event Machine Act Answer)) : Ledger := tr.foldl note {}

@[simp] theorem read_stored (g : Ledger) (i : ℕ) : (g.read i).stored = g.stored := by
  unfold read
  split_ifs <;> rfl

@[simp] theorem read_taken (g : Ledger) (i : ℕ) : (g.read i).taken = g.taken := by
  unfold read
  split_ifs <;> rfl

@[simp] theorem read_returned (g : Ledger) (i : ℕ) : (g.read i).returned = g.returned := by
  unfold read
  split_ifs <;> rfl

end Ledger

/-- The descriptors that are not empty are the ones of the frames that were stored and not returned.
They are a segment of the ring that starts at the head, and while a call has taken a frame and has
not returned it, that frame is in front of the head. -/
structure InOrder (g : Ledger) (s : Machine) : Prop where
  head_eq : s.rxHead = (g.taken % rxBufCount : ℕ)
  segment : ∀ k : ℕ, k < rxBufCount →
    (s.isEmpty k = false ↔ Ring.Segment rxBufCount g.returned g.stored.length k)
  front : g.returned = g.taken ∨ ∃ bd size, s.pc = .took bd size ∧ g.taken = g.returned + 1

/-- What a step of a call has to do: take the oldest frame, and only if one was pending when the call
read its first descriptor; return its length; find none only if none was pending then. -/
def Answered (g : Ledger) (e : Event Machine Act Answer) : Prop :=
  match e.act, e.pre.pc with
  | .proceed, .scan _ bd _ =>
    (e.pre.isEmpty bd = false →
      bd = (g.taken % rxBufCount : ℕ) ∧ g.taken < g.stored.length ∧ (g.note e).atFirst ≠ 0) ∧
    (e.out = .eagain → (g.note e).atFirst = 0)
  | .proceed, .took _ _ => ∃ size bytes, e.out = .frame size bytes ∧ (g.stored[g.returned]?).map List.length = some size
  | .proceed, .look _ _ =>
    (e.out = .isNew true → 0 < g.pending) ∧ (e.out = .isNew false → (g.note e).atFirst = 0)
  | _, _ => True

/-- A frame that is stored in descriptor 21 leaves `rx_head` as it is, and a call that reads the
descriptor `i` places behind its first one finds at most `i` frames pending. -/
def Safe (g : Ledger) (e : Event Machine Act Answer) : Prop :=
  match e.act, e.pre.pc with
  | .receive f, _ => e.pre.hasRoom = true → e.pre.rxNext = 21 →
    intAt (store e.pre.mem (rxRow 21) f.bytes) rxHeadOffset = e.pre.rxHead
  | .proceed, .scan i _ _ => i ≠ 0 → g.pending ≤ i
  | _, _ => True

/-! ### The invariant -/

/-- A call is about to read the descriptor `i` places behind the head. If it has read others before,
none was pending when it read the first one. -/
structure Scanning (g : Ledger) (i : ℕ) (bd : ℤ) : Prop where
  returned_eq : g.returned = g.taken
  lt : i < rxBufCount
  bd_eq : bd = ((g.taken + i) % rxBufCount : ℕ)
  first : i ≠ 0 → g.atFirst = 0

def PcOk (g : Ledger) : Pc → Prop
  | .idle => g.returned = g.taken
  | .scan i bd _ => Scanning g i bd
  | .took bd _ => g.taken = g.returned + 1 ∧ bd = (g.returned % rxBufCount : ℕ)
  | .look i bd => Scanning g i bd

theorem Scanning.idle {g : Ledger} {i : ℕ} {bd : ℤ} (h : Scanning g i bd) : PcOk (g.read i) .idle := by
  rw [PcOk, Ledger.read_returned, Ledger.read_taken, h.returned_eq]

/-- Where a call is does not depend on the frames that come in. -/
theorem PcOk.congr {g g' : Ledger} {pc : Pc} (h : PcOk g pc) (htaken : g'.taken = g.taken)
    (hreturned : g'.returned = g.returned) (hfirst : g'.atFirst = g.atFirst) : PcOk g' pc := by
  have hscanning : ∀ {i bd}, Scanning g i bd → Scanning g' i bd := fun hscan =>
    ⟨by rw [htaken, hreturned, hscan.returned_eq], hscan.lt, by rw [htaken]; exact hscan.bd_eq,
      by rw [hfirst]; exact hscan.first⟩
  cases pc with
  | idle => exact hreturned.trans (Eq.trans h htaken.symm)
  | scan i bd size => exact hscanning h
  | took bd size => exact ⟨by rw [htaken, hreturned]; exact h.1, by rw [hreturned]; exact h.2⟩
  | look i bd => exact hscanning h

def sizeAt (s : Machine) (bd : ℤ) : ℕ := ((s.regs (rxBd bd) &&& bdLenMask) >>> 16).toNat

/-- The state of the machine after what the ledger says. -/
structure Orderly (g : Ledger) (s : Machine) : Prop where
  head_eq : s.rxHead = (g.taken % rxBufCount : ℕ)
  next_eq : s.rxNext = g.stored.length % rxBufCount
  taken_le : g.taken ≤ g.stored.length
  short : g.stored.length ≤ g.returned + rxBufCount
  addr : ∀ k : ℕ, k < rxBufCount → s.rxAddr k = rxRow k
  segment : ∀ k : ℕ, k < rxBufCount →
    (s.isEmpty k = false ↔ Ring.Segment rxBufCount g.returned g.stored.length k)
  size_eq : ∀ j (hj : j < g.stored.length), g.returned ≤ j →
    sizeAt s (j % rxBufCount : ℕ) = (g.stored[j]).length
  pc : PcOk g s.pc

theorem sizeAt_received (s : Machine) (f : Frame) : sizeAt (s.received f) s.rxNext = f.bytes.length := by
  have hshort := f.short
  rw [packetlenSizeMax] at hshort
  have hregs : (s.received f).regs (rxBd s.rxNext) = s.regs (rxBd s.rxNext) &&& 0x6000#32 |||
      f.status &&& 0x1ff#32 ||| BitVec.ofNat 32 f.bytes.length <<< 16 := update_self _ _ _
  have hlow : (s.regs (rxBd s.rxNext) &&& 0x6000#32 ||| f.status &&& 0x1ff#32 |||
      BitVec.ofNat 32 f.bytes.length <<< 16) >>> 16 = BitVec.ofNat 32 f.bytes.length <<< 16 >>> 16 := by
    simp [BitVec.ushiftRight_or_distrib, BitVec.ushiftRight_and_distrib]
  have hmask : bdLenMask >>> 16 = 0xffff#32 := by decide
  rw [sizeAt, hregs, BitVec.ushiftRight_and_distrib, hlow, hmask, BitVec.toNat_and, BitVec.toNat_ushiftRight,
    BitVec.toNat_shiftLeft, BitVec.toNat_ofNat]
  show _ &&& (2 ^ 16 - 1) = _
  rw [Nat.and_two_pow_sub_one_eq_mod, Nat.shiftLeft_eq, Nat.shiftRight_eq_div_pow]
  omega

theorem sizeAt_congr {bd : ℤ} (h : t.regs (rxBd bd) = s.regs (rxBd bd)) : sizeAt t bd = sizeAt s bd := by
  rw [sizeAt, sizeAt, h]

/-- Only the row behind the last one of the array lies on the head. -/
theorem rxHead_store {mem : ℕ → UInt8} {k : ℕ} (f : Frame) (hk : k ≠ 21) :
    intAt (store mem (rxRow k) f.bytes) rxHeadOffset = intAt mem rxHeadOffset := by
  have hshort := f.short
  refine intAt_store ?_
  simp only [rxRow, rxBufferOffset, packetlenSizeMax, rxHeadOffset] at *
  omega

/-- The next place of the ring, as the driver computes it. -/
theorem tmod_succ (k : ℕ) : ((k % rxBufCount : ℕ) + 1 : ℤ).tmod rxBufCount = ((k + 1) % rxBufCount : ℕ) := by
  rw [rxBufCount, Int.tmod_eq_emod_of_nonneg (by omega)]
  omega

namespace Orderly

variable {g : Ledger}

theorem reset : Orderly {} (reset s) where
  head_eq := rxHead_reset
  next_eq := rfl
  taken_le := Nat.le_refl 0
  short := Nat.zero_le _
  addr _ hk := rxAddr_reset hk
  segment k hk := by
    rw [isEmpty_reset hk]
    exact ⟨fun h => absurd h (by decide), fun h => absurd h Ring.not_segment_self⟩
  size_eq j hj := absurd hj (Nat.not_lt_zero j)
  pc := rfl

theorem inOrder (h : Orderly g s) : InOrder g s where
  head_eq := h.head_eq
  segment := h.segment
  front := by
    have hpc := h.pc
    cases hat : s.pc with
    | idle =>
      rw [hat] at hpc
      exact .inl hpc
    | scan i bd size =>
      rw [hat] at hpc
      exact .inl hpc.returned_eq
    | took bd size =>
      rw [hat] at hpc
      exact .inr ⟨bd, size, rfl, hpc.1⟩
    | look i bd =>
      rw [hat] at hpc
      exact .inl hpc.returned_eq

theorem returned_le (h : Orderly g s) : g.returned ≤ g.taken := by
  rcases h.inOrder.front with heq | ⟨bd, size, hat, htaken⟩
  · exact Nat.le_of_eq heq
  · omega

/-- The descriptor that a call reads is not empty exactly if there are more frames pending than it has
gone past. -/
theorem isEmpty_iff (h : Orderly g s) {i : ℕ} {bd : ℤ} (hscan : Scanning g i bd) :
    s.isEmpty bd = false ↔ g.taken + i < g.stored.length := by
  have hshort := h.short
  rw [hscan.bd_eq, h.segment _ (Nat.mod_lt _ (by decide)), hscan.returned_eq]
  rw [hscan.returned_eq] at hshort
  exact Ring.segment_index hscan.lt hshort

/-- A call that has read only empty descriptors began when no frame was pending. -/
theorem atFirst_eq (h : Orderly g s) {i : ℕ} {bd : ℤ} (hscan : Scanning g i bd) (hempty : s.isEmpty bd = true) :
    (g.read i).atFirst = 0 := by
  unfold Ledger.read
  split_ifs with hi
  · have hnone : ¬ g.taken + i < g.stored.length := fun hlt => by
      rw [(h.isEmpty_iff hscan).mpr hlt] at hempty
      cases hempty
    show g.stored.length - g.taken = 0
    omega
  · exact hscan.first hi

theorem next (h : Orderly g s) {i : ℕ} {bd : ℤ} (hscan : Scanning g i bd) (hempty : s.isEmpty bd = true)
    (hi : i + 1 < rxBufCount) : Scanning (g.read i) (i + 1) ((bd + 1).tmod rxBufCount) where
  returned_eq := by rw [Ledger.read_returned, Ledger.read_taken, hscan.returned_eq]
  lt := hi
  bd_eq := by rw [hscan.bd_eq, tmod_succ, Ledger.read_taken, Nat.add_assoc]
  first _ := h.atFirst_eq hscan hempty

/-- A step that leaves the memory and the descriptors for receiving alone. -/
theorem congr {g' : Ledger} (h : Orderly g s) (hmem : t.mem = s.mem) (hnext : t.rxNext = s.rxNext)
    (hregs : ∀ x, rxBd 0 ≤ x → t.regs x = s.regs x) (hstored : g'.stored = g.stored)
    (htaken : g'.taken = g.taken) (hreturned : g'.returned = g.returned) (hpc : PcOk g' t.pc) :
    Orderly g' t where
  head_eq := by
    rw [Machine.rxHead, hmem, htaken]
    exact h.head_eq
  next_eq := by rw [hnext, hstored, h.next_eq]
  taken_le := by rw [htaken, hstored]; exact h.taken_le
  short := by rw [hstored, hreturned]; exact h.short
  addr k hk := by
    rw [← h.addr k hk, Machine.rxAddr, Machine.rxAddr, hregs _ (by unfold rxBd; omega)]
  segment k hk := by
    rw [isEmpty_congr (hregs _ (by unfold rxBd; omega)), hstored, hreturned]
    exact h.segment k hk
  size_eq j hj hret := by
    rw [sizeAt_congr (hregs _ (by unfold rxBd; omega))]
    simp only [hstored, hreturned] at hj hret ⊢
    exact h.size_eq j hj hret
  pc := hpc

theorem looked (h : Orderly g s) (i : ℕ) {pc : Pc} (hpc : PcOk (g.read i) pc) :
    Orderly (g.read i) { s with pc := pc } :=
  h.congr rfl rfl (fun _ _ => rfl) (g.read_stored i) (g.read_taken i) (g.read_returned i) hpc

/-- There is room exactly as long as the frames do not take up the ring. -/
theorem stored_lt (h : Orderly g s) (hroom : s.hasRoom = true) : g.stored.length < g.returned + rxBufCount := by
  refine Nat.lt_of_le_of_ne h.short fun heq => ?_
  have hle : g.returned ≤ g.stored.length := h.returned_le.trans h.taken_le
  have hfull := (h.segment (g.stored.length % rxBufCount) (Nat.mod_lt _ (by decide))).mpr
    ((Ring.segment_end (by decide) hle h.short).mpr heq)
  rw [Machine.hasRoom, h.next_eq, hfull] at hroom
  cases hroom

/-- The device stores a frame that leaves the head alone. -/
theorem received (h : Orderly g s) (hroom : s.hasRoom = true) (f : Frame)
    (hhead : (s.received f).rxHead = s.rxHead) :
    Orderly { g with stored := g.stored ++ [f.bytes] } (s.received f) := by
  have hlt := h.stored_lt hroom
  have hle : g.returned ≤ g.stored.length := h.returned_le.trans h.taken_le
  have hother : ∀ k : ℕ, k ≠ g.stored.length % rxBufCount →
      (s.received f).regs (rxBd k) = s.regs (rxBd k) := by
    intro k hk
    rw [Machine.received, h.next_eq]
    exact update_of_ne (by rw [ne_eq, rxBd_inj]; omega) _ _
  have hself := isEmpty_received_self s f
  have hsize := sizeAt_received s f
  rw [h.next_eq] at hself hsize
  constructor
  case head_eq => rw [hhead, h.head_eq]
  case next_eq =>
    show (s.rxNext + 1) % rxBufCount = (g.stored ++ [f.bytes]).length % rxBufCount
    rw [h.next_eq, Nat.mod_add_mod, List.length_append, List.length_singleton]
  case taken_le =>
    rw [List.length_append, List.length_singleton]
    exact h.taken_le.trans (Nat.le_succ _)
  case short =>
    rw [List.length_append, List.length_singleton]
    exact hlt
  case addr =>
    intro k hk
    rw [← h.addr k hk, Machine.rxAddr, Machine.rxAddr, Machine.received]
    exact congrArg BitVec.toNat (update_of_ne (by unfold rxBd; omega) _ _)
  case segment =>
    intro k hk
    rw [List.length_append, List.length_singleton, Ring.segment_push hle]
    by_cases hkn : k = g.stored.length % rxBufCount
    · rw [hkn]
      exact ⟨fun _ => .inr rfl, fun _ => hself⟩
    · rw [isEmpty_congr (hother k hkn), h.segment k hk]
      exact ⟨.inl, fun hor => hor.resolve_right hkn⟩
  case size_eq =>
    intro j hj hret
    rw [List.length_append, List.length_singleton] at hj
    rcases Nat.lt_succ_iff_lt_or_eq.mp hj with hjn | rfl
    · -- Two frames that are both in the ring are in different descriptors.
      have hne : j % rxBufCount ≠ g.stored.length % rxBufCount := by
        dsimp only at hret
        obtain ⟨d, hd⟩ := Nat.exists_eq_add_of_le (Nat.le_of_lt hjn)
        rw [hd]
        intro heq
        have hd0 : 0 = d := Ring.index_inj (by decide) (by omega) heq
        omega
      rw [sizeAt_congr (hother _ hne), h.size_eq j hjn hret, List.getElem_append_left]
    · rw [hsize, List.getElem_concat_length rfl]
  case pc => exact h.pc.congr rfl rfl rfl

/-- The driver takes the oldest frame. -/
theorem found (h : Orderly g s) {g' : Ledger} {bd : ℤ} (size : ℕ) (hret : g.returned = g.taken)
    (hbd : bd = (g.taken % rxBufCount : ℕ)) (hlt : g.taken < g.stored.length)
    (hstored : g'.stored = g.stored) (htaken : g'.taken = g.taken + 1) (hreturned : g'.returned = g.returned) :
    Orderly g' { s.setRxHead ((s.rxHead + 1).tmod rxBufCount) with pc := .took bd size } := by
  have hnext : (s.rxHead + 1).tmod rxBufCount = ((g.taken + 1) % rxBufCount : ℕ) := by
    rw [h.head_eq, tmod_succ]
  constructor
  case head_eq =>
    rw [Machine.rxHead, Machine.setRxHead, hnext, htaken]
    refine intAt_setInt (by omega) ?_
    have := Nat.mod_lt (g.taken + 1) (show 0 < rxBufCount by decide)
    rw [rxBufCount] at *
    omega
  case next_eq => rw [hstored]; exact h.next_eq
  case taken_le => rw [htaken, hstored]; exact hlt
  case short => rw [hstored, hreturned]; exact h.short
  case addr => exact h.addr
  case segment => rw [hstored, hreturned]; exact h.segment
  case size_eq =>
    intro j hj hle
    simp only [hstored, hreturned] at hj hle ⊢
    exact h.size_eq j hj hle
  case pc => exact ⟨by rw [htaken, hreturned, hret], by rw [hreturned, hret]; exact hbd⟩

/-- The driver returns the frame that it has taken. -/
theorem rearmed (h : Orderly g s) {bd : ℤ} {size : ℕ} (hat : s.pc = .took bd size) :
    Orderly { g with returned := g.returned + 1 } (s.rearmed bd) := by
  have hpc := h.pc
  rw [hat] at hpc
  obtain ⟨htaken, rfl⟩ := hpc
  have hother : ∀ k : ℕ, k ≠ g.returned % rxBufCount →
      (s.rearmed (g.returned % rxBufCount : ℕ)).regs (rxBd k) = s.regs (rxBd k) := fun k hk =>
    update_of_ne (by rw [ne_eq, rxBd_inj]; omega) _ _
  have hshort := h.short
  constructor
  case head_eq => exact h.head_eq
  case next_eq => exact h.next_eq
  case taken_le => exact h.taken_le
  case short => exact hshort.trans (by show _ ≤ g.returned + 1 + _; omega)
  case addr =>
    intro k hk
    rw [← h.addr k hk, Machine.rxAddr, Machine.rxAddr, Machine.rearmed]
    exact congrArg BitVec.toNat (update_of_ne (by unfold rxBd; omega) _ _)
  case segment =>
    intro k hk
    rw [Ring.segment_pop hshort]
    by_cases hkr : k = g.returned % rxBufCount
    · rw [hkr, isEmpty_rearmed_self]
      exact ⟨fun hempty => absurd hempty (by decide), fun hand => absurd rfl hand.2⟩
    · rw [isEmpty_congr (hother k hkr), h.segment k hk]
      exact ⟨fun hseg => ⟨hseg, hkr⟩, fun hand => hand.1⟩
  case size_eq =>
    intro j hj hle
    dsimp only at hj hle
    have hne : j % rxBufCount ≠ g.returned % rxBufCount := by
      obtain ⟨d, rfl⟩ := Nat.exists_eq_add_of_le (Nat.le_of_succ_le hle)
      intro heq
      have hd0 : d = 0 := Ring.index_inj (by omega) (by decide) heq
      omega
    rw [sizeAt_congr (hother _ hne)]
    exact h.size_eq j hj (Nat.le_of_succ_le hle)
  case pc => exact htaken.symm

theorem step (h : Orderly g s) (hs : steps s a o t) (hsend : ∀ dataf, a ≠ .send dataf)
    (hsafe : Safe g ⟨s, a, o, t⟩) :
    Orderly (g.note ⟨s, a, o, t⟩) t ∧ Answered g ⟨s, a, o, t⟩ := by
  have hpc := h.pc
  cases steps_cases hs with
  | stored f hroom =>
    have haddr : s.rxAddr s.rxNext = rxRow s.rxNext := by
      rw [h.next_eq]
      exact h.addr _ (Nat.mod_lt _ (by decide))
    have hhead : (s.received f).rxHead = s.rxHead := by
      rw [Machine.rxHead, Machine.received, haddr]
      by_cases hrow : s.rxNext = 21
      · rw [hrow]
        exact hsafe hroom hrow
      · exact rxHead_store f hrow
    refine ⟨?_, trivial⟩
    simpa [Ledger.note, hroom] using h.received hroom f hhead
  | dropped f hroom => exact ⟨by simpa [Ledger.note, hroom] using h, trivial⟩
  | transmitted bd status =>
    refine ⟨h.congr rfl rfl (fun x hx => update_of_ne ?_ _ _) rfl rfl rfl hpc, trivial⟩
    have hlt := bd.isLt
    unfold rxBd at hx
    unfold txBd
    omega
  | sendRefused dataf => exact absurd rfl (hsend dataf)
  | sendNegative bytes hneg => exact absurd rfl (hsend (some bytes))
  | sent bytes hnonneg hsize => exact absurd rfl (hsend (some bytes))
  | poolRefused null size => exact ⟨h, trivial⟩
  | called size hidle =>
    rw [hidle] at hpc
    exact ⟨h.congr rfl rfl (fun _ _ => rfl) rfl rfl rfl
      ⟨hpc, by decide, h.head_eq, fun hi => absurd rfl hi⟩, trivial⟩
  | asked hidle =>
    rw [hidle] at hpc
    exact ⟨h.congr rfl rfl (fun _ _ => rfl) rfl rfl rfl
      ⟨hpc, by decide, h.head_eq, fun hi => absurd rfl hi⟩, trivial⟩
  | scanNext i bd size hat hempty hi =>
    rw [hat] at hpc
    have hnote : g.note ⟨s, .proceed, .quiet, { s with pc := .scan (i + 1) ((bd + 1).tmod rxBufCount) size }⟩ =
        g.read i := by simp [Ledger.note, hat, hempty]
    rw [hnote]
    refine ⟨h.looked i (h.next hpc hempty hi), ?_⟩
    simp [Answered, hat, hempty]
  | scanOver i bd size hat hempty hi =>
    rw [hat] at hpc
    have hnote : g.note ⟨s, .proceed, .eagain, { s with pc := .idle }⟩ = g.read i := by
      simp [Ledger.note, hat, hempty]
    have hfirst := h.atFirst_eq hpc hempty
    refine ⟨?_, ?_⟩
    · rw [hnote]
      exact h.looked i hpc.idle
    · simpa [Answered, hat, hempty, hnote] using hfirst
  | scanNegative i bd size hat hempty hneg =>
    rw [hat] at hpc
    have hbd := hpc.bd_eq
    omega
  | scanFound i bd size hat hempty hnonneg =>
    rw [hat] at hpc
    have hlt := (h.isEmpty_iff hpc).mp hempty
    -- A frame that is found is the first one that is looked at.
    have hi : i = 0 := by
      by_contra hne
      simp only [Safe, hat] at hsafe
      have hle : g.stored.length - g.taken ≤ i := hsafe hne
      omega
    subst hi
    have hbd := hpc.bd_eq
    rw [Nat.add_zero] at hbd hlt
    have hnote : g.note ⟨s, .proceed, .quiet,
        { s.setRxHead ((s.rxHead + 1).tmod rxBufCount) with pc := .took bd size }⟩ =
        { g.read 0 with taken := g.taken + 1 } := by simp [Ledger.note, hat, hempty]
    refine ⟨?_, ?_⟩
    · rw [hnote]
      exact h.found size hpc.returned_eq hbd hlt (g.read_stored 0) rfl (g.read_returned 0)
    · have hpending : g.stored.length - g.taken ≠ 0 := by omega
      simpa [Answered, hat, hempty, hnote, hlt, Ledger.read, Ledger.pending] using ⟨hbd, hpending⟩
  | returned bd size hat =>
    have hnote : g.note ⟨s, .proceed, .frame (sizeAt s bd) (load s.mem (rxRow bd.toNat) size), s.rearmed bd⟩ =
        { g with returned := g.returned + 1 } := by simp [Ledger.note, hat]
    refine ⟨?_, ?_⟩
    · rw [sizeAt] at hnote
      rw [hnote]
      exact h.rearmed hat
    · rw [hat] at hpc
      obtain ⟨htaken, hbd⟩ := hpc
      have hlt : g.returned < g.stored.length := Nat.lt_of_lt_of_le (by omega) h.taken_le
      have hsize := h.size_eq g.returned hlt (Nat.le_refl _)
      simp only [Answered, hat]
      refine ⟨_, _, rfl, ?_⟩
      rw [List.getElem?_eq_getElem hlt, Option.map_some, ← hsize, ← hbd, sizeAt]
  | lookNext i bd hat hempty hi =>
    rw [hat] at hpc
    have hnote : g.note ⟨s, .proceed, .quiet, { s with pc := .look (i + 1) ((bd + 1).tmod rxBufCount) }⟩ =
        g.read i := by simp [Ledger.note, hat]
    rw [hnote]
    refine ⟨h.looked i (h.next hpc hempty hi), ?_⟩
    simp [Answered, hat]
  | lookOver i bd hat hempty hi =>
    rw [hat] at hpc
    have hnote : g.note ⟨s, .proceed, .isNew false, { s with pc := .idle }⟩ = g.read i := by
      simp [Ledger.note, hat]
    have hfirst := h.atFirst_eq hpc hempty
    refine ⟨?_, ?_⟩
    · rw [hnote]
      exact h.looked i hpc.idle
    · simpa [Answered, hat, hnote] using hfirst
  | lookFound i bd hat hempty =>
    rw [hat] at hpc
    have hlt := (h.isEmpty_iff hpc).mp hempty
    have hnote : g.note ⟨s, .proceed, .isNew true, { s with pc := .idle }⟩ = g.read i := by
      simp [Ledger.note, hat]
    refine ⟨?_, ?_⟩
    · rw [hnote]
      exact h.looked i hpc.idle
    · have hpending : 0 < g.pending := Nat.sub_pos_of_lt (by omega)
      simpa [Answered, hat] using hpending

theorem safe (h : Orderly g s) (hs : steps s a o t) (horder : InOrder (g.note ⟨s, a, o, t⟩) t)
    (hanswered : Answered g ⟨s, a, o, t⟩) : Safe g ⟨s, a, o, t⟩ := by
  cases a with
  | receive f =>
    intro hroom hrow
    dsimp only at hroom hrow ⊢
    rw [steps, Ethoc.step, if_pos hroom] at hs
    cases hs
    have hhead := horder.head_eq
    have haddr : s.rxAddr s.rxNext = rxRow 21 := by
      rw [hrow]
      exact h.addr 21 (by decide)
    rw [Machine.rxHead, Machine.received, haddr] at hhead
    rw [h.head_eq]
    simpa [Ledger.note, hroom] using hhead
  | proceed =>
    cases hat : s.pc with
    | scan i bd size =>
      simp only [Safe, hat]
      intro hi
      by_contra hgt
      have hscan := h.pc
      rw [hat] at hscan
      have hlt : g.taken + i < g.stored.length := by
        rw [Ledger.pending] at hgt
        omega
      simp only [Answered, hat] at hanswered
      obtain ⟨hbd, -, -⟩ := hanswered.1 ((h.isEmpty_iff hscan).mpr hlt)
      have hsame : (g.taken + i) % rxBufCount = (g.taken + 0) % rxBufCount := by
        have hcast := hscan.bd_eq.symm.trans hbd
        exact_mod_cast hcast
      exact hi (Ring.index_inj hscan.lt (by decide) hsame)
    | idle => simp only [Safe, hat]
    | took bd size => simp only [Safe, hat]
    | look i bd => simp only [Safe, hat]
  | transmit bd status => trivial
  | send dataf => trivial
  | pool null size => trivial
  | isNewPacket => trivial

end Orderly

/-! ### Runs -/

variable {tr : List (Event Machine Act Answer)}

theorem Ledger.of_concat (l : List (Event Machine Act Answer)) (e : Event Machine Act Answer) :
    Ledger.of (l ++ [e]) = (Ledger.of l).note e := by
  rw [Ledger.of, List.foldl_append]
  rfl

/-- In a run of frames coming in and calls that look for them, the frames are always in order and every
call does what it has to do exactly if every event is safe. -/
theorem rx_order_iff (hrun : Run steps (reset s) tr u) (hsend : ∀ e ∈ tr, ∀ dataf, e.act ≠ .send dataf) :
    (∀ l e r, tr = l ++ e :: r → InOrder (Ledger.of (l ++ [e])) e.post ∧ Answered (Ledger.of l) e) ↔
      ∀ l e r, tr = l ++ e :: r → Safe (Ledger.of l) e := by
  have hquiet : ∀ l e r, tr = l ++ e :: r → ∀ dataf, e.act ≠ .send dataf := by
    intro l e r htr
    exact hsend e (by rw [htr]; simp)
  simp only [Ledger.of_concat]
  constructor
  · intro hright l e r htr
    obtain rfl := htr
    have horderly := hrun.history_at Ledger.note
      (P := fun g e => (InOrder (g.note e) e.post ∧ Answered g e) ∧ ∀ dataf, e.act ≠ .send dataf)
      (J := Orderly) Orderly.reset (fun l e r htr => ⟨hright l e r htr, hquiet l e r htr⟩)
      (fun g e hs hp hj => (hj.step hs hp.2 (hj.safe hs hp.1.1 hp.1.2)).1)
    obtain ⟨horder, hanswered⟩ := hright l e r rfl
    exact horderly.safe hrun.at_event.2.1 horder hanswered
  · intro hsafe l e r htr
    obtain rfl := htr
    have horderly := hrun.history_at Ledger.note
      (P := fun g e => Safe g e ∧ ∀ dataf, e.act ≠ .send dataf)
      (J := Orderly) Orderly.reset (fun l e r htr => ⟨hsafe l e r htr, hquiet l e r htr⟩)
      (fun g e hs hp hj => (hj.step hs hp.2 hp.1).1)
    obtain ⟨hnext, hanswered⟩ := horderly.step hrun.at_event.2.1 (hquiet l e r rfl) (hsafe l e r rfl)
    exact ⟨hnext.inOrder, hanswered⟩

/-- The iteration of its loop that a running call is in. -/
def Pc.iteration : Pc → ℕ
  | .scan i _ _ | .look i _ => i
  | _ => 0

/-- Before the 22nd frame, a call in its first iteration is safe whatever is pending. -/
theorem safe_of_first {g : Ledger} {e : Event Machine Act Answer} (hnext : e.pre.rxNext ≠ 21)
    (hfirst : e.pre.pc.iteration = 0) : Safe g e := by
  unfold Safe
  split
  · exact fun _ h => absurd h hnext
  · rename_i hpc
    rw [hpc] at hfirst
    exact fun hi => absurd hfirst hi
  · trivial

/-- Two frames come in, and `ethoc_pool` takes the first; a third one comes in, and it takes the
second. -/
theorem rx_order_iff_one :
    ∃ tr u, Run steps (reset blank) tr u ∧
      tr.map (·.act) = [.receive unicast, .receive unicast, .pool false 64, .proceed, .proceed,
        .receive unicast, .pool false 64, .proceed, .proceed] ∧
      (Ledger.of tr).stored.length = 3 ∧ (Ledger.of tr).returned = 2 ∧ u.rxHead = 2 ∧
      (∀ l e r, tr = l ++ e :: r → Safe (Ledger.of l) e) ∧
      ∀ l e r, tr = l ++ e :: r → InOrder (Ledger.of (l ++ [e])) e.post ∧ Answered (Ledger.of l) e := by
  obtain ⟨tr, u, hrun, hacts, hstored, hreturned, hhead, hfirst⟩ := exists_run_of_exec (f := step)
    (s := reset blank)
    [.receive unicast, .receive unicast, .pool false 64, .proceed, .proceed,
      .receive unicast, .pool false 64, .proceed, .proceed]
    (fun r => (Ledger.of r.1).stored.length = 3 ∧ (Ledger.of r.1).returned = 2 ∧ r.2.rxHead = 2 ∧
      ∀ e ∈ r.1, e.pre.rxNext ≠ 21 ∧ e.pre.pc.iteration = 0) (by decide +kernel)
  have hsend : ∀ e ∈ tr, ∀ dataf, e.act ≠ .send dataf := by
    intro e he dataf hact
    have hmem : e.act ∈ tr.map (·.act) := List.mem_map_of_mem he
    rw [hacts, hact] at hmem
    simp at hmem
  have hsafe : ∀ l e r, tr = l ++ e :: r → Safe (Ledger.of l) e := by
    rintro l e r rfl
    obtain ⟨hnext, hi⟩ := hfirst e (by simp)
    exact safe_of_first hnext hi
  exact ⟨tr, u, hrun, hacts, hstored, hreturned, hhead, hsafe, (rx_order_iff hrun hsend).mpr hsafe⟩

/-- After 22 frames the head is not at the oldest one. And when two frames come in after a call has read
the first descriptor empty, the call takes the second one and leaves the head on it. -/
theorem frames_out_of_order :
    (∃ tr u, Run steps (reset blank) tr u ∧ tr.map (·.act) = List.replicate 22 (.receive unicast) ∧
      ¬ InOrder (Ledger.of tr) u) ∧
    ∃ tr u, Run steps (reset blank) tr u ∧
      tr.map (·.act) = [.pool false 1535, .proceed, .receive unicast, .receive unicast, .proceed] ∧
      u.pc = .took 1 1535 ∧ u.rxHead = 1 := by
  constructor
  · obtain ⟨tr, u, hrun, hacts, hhead⟩ := exists_run_rxHead_lost
    refine ⟨tr, u, hrun, hacts, fun horder => ?_⟩
    have heq := horder.head_eq
    have hlt := Nat.mod_lt (Ledger.of tr).taken (show 0 < rxBufCount by decide)
    rw [hhead] at heq
    rw [rxBufCount] at *
    omega
  · exact exists_run_of_exec (f := step)
      [.pool false 1535, .proceed, .receive unicast, .receive unicast, .proceed]
      (fun r => r.2.pc = .took 1 1535 ∧ r.2.rxHead = 1) (by decide +kernel)

end Nanvix.Dev.Ethoc
