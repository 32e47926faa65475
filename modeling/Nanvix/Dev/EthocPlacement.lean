import Nanvix.Dev.Ethoc

/-! Where the frames of the `ethoc` driver are. The driver programs 64 buffers of each direction, but the
arrays of buffers have a third of that number of rows, and the head of the direction comes behind the
last row. The first 21 frames of a direction stay inside, and the next one is written over the head. -/

namespace Nanvix.Dev.Ethoc

open Nanvix.Lib Nanvix.Lib.Bytes Function

variable {s t u : Machine} {a : Act} {o : Answer} {mem : ℕ → UInt8} {x : ℕ} {n : ℤ}

/-! ### Rows -/

def InRxBuffer (addr : ℕ) : Prop := ∃ i < rxRows, addr = rxRow i

def InTxBuffer (addr : ℕ) : Prop := ∃ i < txRows, addr = txRow i

theorem inRxBuffer_rxRow {i : ℕ} : InRxBuffer (rxRow i) ↔ i < rxRows := by
  refine ⟨?_, fun h => ⟨i, h, rfl⟩⟩
  rintro ⟨j, hj, heq⟩
  simp only [rxRow, packetlenSizeMax] at heq
  omega

theorem inTxBuffer_txRow {i : ℕ} : InTxBuffer (txRow i) ↔ i < txRows := by
  refine ⟨?_, fun h => ⟨i, h, rfl⟩⟩
  rintro ⟨j, hj, heq⟩
  simp only [txRow, packetlenSizeMax] at heq
  omega

/-- The buffer that an event uses is one of the declared array: the one of a frame that is sent, that
the device stores, and that `ethoc_pool` copies. -/
def Inside (e : Event Machine Act Answer) : Prop :=
  match e.act, e.pre.pc with
  | .send _, _ => e.out = .sent → InTxBuffer (txRow e.pre.txHead.toNat)
  | .receive _, _ => e.pre.hasRoom = true → InRxBuffer (e.pre.rxAddr e.pre.rxNext)
  | .proceed, .took bd _ => InRxBuffer (rxRow bd.toNat)
  | _, _ => True

def isSent (e : Event Machine Act Answer) : Bool := decide (e.out = .sent)

def isStored (e : Event Machine Act Answer) : Bool :=
  match e.act with
  | .receive _ => e.pre.hasRoom
  | _ => false

/-- A running call looks at a descriptor, and one that it has taken is among the first `frames`. -/
def Pc.Below (frames : ℕ) : Pc → Prop
  | .idle => True
  | .scan _ bd _ => 0 ≤ bd ∧ bd < rxBufCount
  | .took bd _ => 0 ≤ bd ∧ bd < frames
  | .look _ bd => 0 ≤ bd ∧ bd < rxBufCount

theorem Pc.Below.mono {m m' : ℕ} {pc : Pc} (h : pc.Below m) (hle : m ≤ m') : pc.Below m' := by
  cases pc with
  | idle => trivial
  | scan i bd size => exact h
  | took bd size => exact ⟨h.1, h.2.trans_le (by exact_mod_cast hle)⟩
  | look i bd => exact h

/-- The machine after `sends` frames were sent and `frames` were stored, all inside the arrays. -/
structure Placed (sends frames : ℕ) (s : Machine) : Prop where
  sends_le : sends ≤ txRows
  frames_le : frames ≤ rxRows
  txHead_eq : s.txHead = sends
  rxNext_eq : s.rxNext = frames
  addr : ∀ k : ℕ, k < rxBufCount → s.rxAddr k = rxRow k
  head_nonneg : 0 ≤ s.rxHead
  head_lt : s.rxHead < rxBufCount
  nonempty_lt : ∀ k : ℕ, k < rxBufCount → s.isEmpty k = false → k < frames
  pc : s.pc.Below frames

namespace Placed

variable {m n : ℕ}

theorem reset : Placed 0 0 (reset s) where
  sends_le := Nat.zero_le _
  frames_le := Nat.zero_le _
  txHead_eq := txHead_reset
  rxNext_eq := rfl
  addr _ hk := rxAddr_reset hk
  head_nonneg := by rw [rxHead_reset]
  head_lt := by rw [rxHead_reset]; decide
  nonempty_lt k hk hempty := by
    rw [isEmpty_reset hk] at hempty
    cases hempty
  pc := trivial

/-- A step that leaves the descriptors for receiving alone. -/
theorem congr {n' : ℕ} (h : Placed n m s) (hle : n' ≤ txRows) (htx : t.txHead = n')
    (hrx : 0 ≤ t.rxHead ∧ t.rxHead < rxBufCount) (hnext : t.rxNext = s.rxNext)
    (hregs : ∀ x, rxBd 0 ≤ x → t.regs x = s.regs x) (hpc : t.pc.Below m) : Placed n' m t where
  sends_le := hle
  frames_le := h.frames_le
  txHead_eq := htx
  rxNext_eq := hnext.trans h.rxNext_eq
  addr k hk := by
    rw [← h.addr k hk, Machine.rxAddr, Machine.rxAddr, hregs _ (by unfold rxBd; omega)]
  head_nonneg := hrx.1
  head_lt := hrx.2
  nonempty_lt k hk hempty := by
    rw [isEmpty_congr (hregs _ (by unfold rxBd; omega))] at hempty
    exact h.nonempty_lt k hk hempty
  pc := hpc

theorem setPc (h : Placed n m s) (pc : Pc) (hpc : pc.Below m) : Placed n m { s with pc := pc } :=
  h.congr h.sends_le h.txHead_eq ⟨h.head_nonneg, h.head_lt⟩ rfl (fun _ _ => rfl) hpc

/-- The descriptors behind the ones used are empty. -/
theorem hasRoom (h : Placed n m s) : s.hasRoom = true := by
  have hm : m < rxBufCount := Nat.lt_of_le_of_lt h.frames_le (by decide)
  rw [Machine.hasRoom, h.rxNext_eq]
  cases hempty : s.isEmpty m with
  | true => rfl
  | false => exact absurd (h.nonempty_lt m hm hempty) (Nat.lt_irrefl m)

/-- The device stores a frame in a row of `rx_buffer`. -/
theorem received (h : Placed n m s) (hin : m < rxRows) (f : Frame) : Placed n (m + 1) (s.received f) := by
  have hm : m < 21 := hin
  have hshort := f.short
  have haddr : s.rxAddr s.rxNext = rxRow m := by
    rw [h.rxNext_eq]
    exact h.addr m (by rw [rxBufCount]; omega)
  have hend : rxRow m + f.bytes.length ≤ rxHeadOffset := by
    rw [packetlenSizeMax] at hshort
    simp only [rxRow, rxBufferOffset, packetlenSizeMax, rxHeadOffset]
    omega
  have hrx : (s.received f).rxHead = s.rxHead := by
    rw [Machine.rxHead, Machine.received, haddr]
    exact intAt_store (.inr hend)
  have hother : ∀ k : ℕ, k ≠ m → (s.received f).regs (rxBd k) = s.regs (rxBd k) := by
    intro k hk
    rw [Machine.received, h.rxNext_eq]
    exact update_of_ne (by rw [ne_eq, rxBd_inj]; omega) _ _
  constructor
  case sends_le => exact h.sends_le
  case frames_le => exact hin
  case txHead_eq =>
    rw [← h.txHead_eq, Machine.txHead, Machine.received, haddr]
    exact intAt_store (.inr (hend.trans (by decide)))
  case rxNext_eq =>
    show (s.rxNext + 1) % rxBufCount = m + 1
    rw [h.rxNext_eq, rxBufCount]
    omega
  case addr =>
    intro k hk
    rw [← h.addr k hk, Machine.rxAddr, Machine.rxAddr, Machine.received]
    exact congrArg BitVec.toNat (update_of_ne (by unfold rxBd; omega) _ _)
  case head_nonneg => rw [hrx]; exact h.head_nonneg
  case head_lt => rw [hrx]; exact h.head_lt
  case nonempty_lt =>
    intro k hk hempty
    by_cases hkm : k = m
    · omega
    · rw [isEmpty_congr (hother k hkm)] at hempty
      exact Nat.lt_succ_of_lt (h.nonempty_lt k hk hempty)
  case pc => exact h.pc.mono (Nat.le_succ m)

/-- The driver fills a row of `tx_buffer`. -/
theorem filled (h : Placed n m s) (hin : n < txRows) {bytes : List UInt8} (hsize : bytes.length < bufsiz) :
    Placed (n + 1) m ((s.setTxHead ((s.txHead + 1).tmod txBufCount)).filled s.txHead bytes) := by
  have hn : n < 21 := hin
  have hnext : (s.txHead + 1).tmod txBufCount = (n + 1 : ℕ) := by
    rw [h.txHead_eq, txBufCount, Int.tmod_eq_of_lt (by omega) (by omega)]
    rfl
  have hrow : txRow s.txHead.toNat = txRow n := by
    rw [h.txHead_eq, Int.toNat_natCast]
  have hlo : rxHeadOffset + 4 ≤ txRow n := by
    simp only [txRow, txBufferOffset, rxHeadOffset]
    omega
  have hend : txRow n + bytes.length ≤ txHeadOffset := by
    rw [bufsiz] at hsize
    simp only [txRow, txBufferOffset, packetlenSizeMax, txHeadOffset]
    omega
  have htx : intAt (store (setInt s.mem txHeadOffset (n + 1 : ℕ)) (txRow n) bytes) txHeadOffset = (n + 1 : ℕ) := by
    rw [intAt_store (.inr hend), intAt_setInt (by omega) (by omega)]
  have hrx : intAt (store (setInt s.mem txHeadOffset (n + 1 : ℕ)) (txRow n) bytes) rxHeadOffset = s.rxHead := by
    rw [intAt_store (.inl hlo), intAt_setInt_of_outside (.inl (by decide)), Machine.rxHead]
  rw [hnext, Machine.filled, hrow]
  refine h.congr hin htx ?_ rfl (fun x hx => ?_) h.pc
  · rw [Machine.rxHead, Machine.setTxHead, hrx]
    exact ⟨h.head_nonneg, h.head_lt⟩
  · refine update_of_ne ?_ _ _
    rw [h.txHead_eq]
    unfold rxBd at hx
    unfold txBd
    omega

theorem next_in_range {bd : ℤ} (h : 0 ≤ bd ∧ bd < rxBufCount) :
    0 ≤ (bd + 1).tmod rxBufCount ∧ (bd + 1).tmod rxBufCount < rxBufCount := by
  rw [rxBufCount] at *
  rw [Int.tmod_eq_emod_of_nonneg (by omega)]
  omega

theorem found (h : Placed n m s) {bd : ℤ} (size : ℕ) (hbd : 0 ≤ bd ∧ bd < rxBufCount)
    (hempty : s.isEmpty bd = false) :
    Placed n m { s.setRxHead ((s.rxHead + 1).tmod rxBufCount) with pc := .took bd size } := by
  obtain ⟨k, rfl⟩ := Int.eq_ofNat_of_zero_le hbd.1
  have hk : k < rxBufCount := by exact_mod_cast hbd.2
  have hnext := next_in_range ⟨h.head_nonneg, h.head_lt⟩
  have hrx : intAt (setInt s.mem rxHeadOffset ((s.rxHead + 1).tmod rxBufCount)) rxHeadOffset =
      (s.rxHead + 1).tmod rxBufCount := by
    refine intAt_setInt hnext.1 (hnext.2.trans ?_)
    rw [rxBufCount]
    omega
  refine h.congr h.sends_le ?_ ?_ rfl (fun _ _ => rfl) ?_
  · exact (intAt_setInt_of_outside (.inr (by decide))).trans h.txHead_eq
  · rw [Machine.rxHead, Machine.setRxHead, hrx]
    exact hnext
  · exact ⟨hbd.1, by exact_mod_cast h.nonempty_lt k hk hempty⟩

theorem rearmed (h : Placed n m s) (bd : ℤ) : Placed n m (s.rearmed bd) where
  sends_le := h.sends_le
  frames_le := h.frames_le
  txHead_eq := h.txHead_eq
  rxNext_eq := h.rxNext_eq
  addr k hk := by
    rw [← h.addr k hk, Machine.rxAddr, Machine.rxAddr, Machine.rearmed]
    exact congrArg BitVec.toNat (update_of_ne (by unfold rxBd; omega) _ _)
  head_nonneg := h.head_nonneg
  head_lt := h.head_lt
  nonempty_lt k hk hempty := by
    by_cases hbd : (k : ℤ) = bd
    · rw [hbd, isEmpty_rearmed_self] at hempty
      cases hempty
    · have hother : (s.rearmed bd).regs (rxBd k) = s.regs (rxBd k) :=
        update_of_ne (by rwa [ne_eq, rxBd_inj]) _ _
      rw [isEmpty_congr hother] at hempty
      exact h.nonempty_lt k hk hempty
  pc := trivial

theorem transmitted (h : Placed n m s) (bd : Fin 64) (status : BitVec 32) : Placed n m (s.transmitted bd status) := by
  refine h.congr h.sends_le h.txHead_eq ⟨h.head_nonneg, h.head_lt⟩ rfl (fun x hx => ?_) h.pc
  refine update_of_ne ?_ _ _
  have hlt := bd.isLt
  unfold rxBd at hx
  unfold txBd
  omega

/-- An event that uses only the declared arrays keeps the machine in order. -/
theorem step (h : Placed n m s) (hs : steps s a o t) (hin : Inside ⟨s, a, o, t⟩) :
    Placed (n + if isSent ⟨s, a, o, t⟩ then 1 else 0) (m + if isStored ⟨s, a, o, t⟩ then 1 else 0) t := by
  have hpc := h.pc
  have hhead : 0 ≤ s.rxHead ∧ s.rxHead < rxBufCount := ⟨h.head_nonneg, h.head_lt⟩
  cases steps_cases hs with
  | stored f hroom =>
    have haddr : s.rxAddr s.rxNext = rxRow m := by
      rw [h.rxNext_eq]
      exact h.addr m (Nat.lt_of_le_of_lt h.frames_le (by decide))
    have hm := hin hroom
    dsimp only at hm
    rw [haddr, inRxBuffer_rxRow] at hm
    simpa [isSent, isStored, hroom] using h.received hm f
  | dropped f hroom => simpa [isSent, isStored, hroom] using h
  | transmitted bd status => simpa [isSent, isStored] using h.transmitted bd status
  | sendRefused dataf => simpa [isSent, isStored] using h
  | sendNegative bytes hneg =>
    rw [h.txHead_eq] at hneg
    omega
  | sent bytes hnonneg hsize =>
    have hn := hin rfl
    dsimp only at hn
    rw [h.txHead_eq, Int.toNat_natCast, inTxBuffer_txRow] at hn
    simpa [isSent, isStored] using h.filled hn hsize
  | poolRefused null size => simpa [isSent, isStored] using h
  | called size hidle => simpa [isSent, isStored] using h.setPc (.scan 0 s.rxHead size) hhead
  | asked hidle => simpa [isSent, isStored] using h.setPc (.look 0 s.rxHead) hhead
  | scanNext i bd size hat hempty hi =>
    rw [hat] at hpc
    simpa [isSent, isStored] using
      h.setPc (.scan (i + 1) ((bd + 1).tmod rxBufCount) size) (next_in_range hpc)
  | scanOver i bd size hat hempty hi => simpa [isSent, isStored] using h.setPc .idle trivial
  | scanNegative i bd size hat hempty hneg =>
    rw [hat] at hpc
    exact absurd hneg (not_lt_of_ge hpc.1)
  | scanFound i bd size hat hempty hnonneg =>
    rw [hat] at hpc
    simpa [isSent, isStored] using h.found size hpc hempty
  | returned bd size hat => simpa [isSent, isStored] using h.rearmed bd
  | lookNext i bd hat hempty hi =>
    rw [hat] at hpc
    simpa [isSent, isStored] using h.setPc (.look (i + 1) ((bd + 1).tmod rxBufCount)) (next_in_range hpc)
  | lookOver i bd hat hempty hi => simpa [isSent, isStored] using h.setPc .idle trivial
  | lookFound i bd hat hempty => simpa [isSent, isStored] using h.setPc .idle trivial

/-- An event uses only the declared arrays if it is not the one that goes past their number of rows. -/
theorem inside (h : Placed n m s) (hs : steps s a o t)
    (hn : (n + if isSent ⟨s, a, o, t⟩ then 1 else 0) ≤ txRows)
    (hm : (m + if isStored ⟨s, a, o, t⟩ then 1 else 0) ≤ rxRows) : Inside ⟨s, a, o, t⟩ := by
  have hpc := h.pc
  cases a with
  | send dataf =>
    intro hout
    dsimp only at hout ⊢
    rw [h.txHead_eq, Int.toNat_natCast, inTxBuffer_txRow]
    simpa [isSent, hout, Nat.succ_le_iff] using hn
  | receive f =>
    intro hroom
    dsimp only at hroom ⊢
    rw [h.rxNext_eq, h.addr m (Nat.lt_of_le_of_lt h.frames_le (by decide)), inRxBuffer_rxRow]
    simpa [isStored, hroom, Nat.succ_le_iff] using hm
  | proceed =>
    cases hat : s.pc with
    | took bd size =>
      rw [hat] at hpc
      obtain ⟨k, rfl⟩ := Int.eq_ofNat_of_zero_le hpc.1
      simp only [Inside, hat]
      rw [Int.toNat_natCast, inRxBuffer_rxRow]
      exact Nat.lt_of_lt_of_le (by exact_mod_cast hpc.2) h.frames_le
    | idle => simp only [Inside, hat]
    | scan i bd size => simp only [Inside, hat]
    | look i bd => simp only [Inside, hat]
  | transmit bd status => trivial
  | pool null size => trivial
  | isNewPacket => trivial

end Placed

/-- What an event writes: the device writes `rx_buffer`, sending writes `tx_buffer` and its head, and
receiving its head. -/
def Confined (e : Event Machine Act Answer) : Prop :=
  ∀ x, e.post.mem x ≠ e.pre.mem x →
    match e.act with
    | .receive _ => rxBufferOffset ≤ x ∧ x < rxRow rxRows
    | .send _ => (txBufferOffset ≤ x ∧ x < txRow txRows) ∨ (txHeadOffset ≤ x ∧ x < txHeadOffset + 4)
    | .proceed => rxHeadOffset ≤ x ∧ x < rxHeadOffset + 4
    | _ => False

theorem of_store_ne {bs : List UInt8} {y : ℕ} (h : store mem y bs x ≠ mem x) : y ≤ x ∧ x < y + bs.length := by
  by_contra hout
  exact h (store_of_outside (by omega))

theorem of_setInt_ne {y : ℕ} (h : setInt mem y n x ≠ mem x) : y ≤ x ∧ x < y + 4 := by
  by_contra hout
  exact h (setInt_of_outside (by omega))

theorem confined_of_inside (hs : steps s a o t) (hin : Inside ⟨s, a, o, t⟩) : Confined ⟨s, a, o, t⟩ := by
  intro x hx
  cases steps_cases hs with
  | stored f hroom =>
    obtain ⟨i, hi, haddr⟩ := hin hroom
    dsimp only at haddr
    obtain ⟨hlo, hhi⟩ := of_store_ne hx
    rw [haddr] at hlo hhi
    have hshort := f.short
    simp only [rxRow, rxRows, rxBufCount, packetlenSizeMax] at *
    omega
  | sent bytes hnonneg hsize =>
    obtain ⟨i, hi, hrow⟩ := hin rfl
    dsimp only at hrow
    by_cases hhead : setInt s.mem txHeadOffset ((s.txHead + 1).tmod txBufCount) x = s.mem x
    · left
      rw [← hhead] at hx
      obtain ⟨hlo, hhi⟩ := of_store_ne hx
      rw [hrow] at hlo hhi
      simp only [txRow, txRows, txBufCount, packetlenSizeMax, bufsiz] at *
      omega
    · exact .inr (of_setInt_ne hhead)
  | sendNegative bytes hneg => exact .inr (of_setInt_ne hx)
  | scanNegative i bd size hat hempty hneg => exact of_setInt_ne hx
  | scanFound i bd size hat hempty hnonneg => exact of_setInt_ne hx
  | _ => exact absurd rfl hx

/-! ### Runs -/

variable {tr : List (Event Machine Act Answer)} {e : Event Machine Act Answer}

/-- The rule for the past of a run, with the counts of its frames. -/
theorem placed_of_run (hrun : Run steps (reset s) tr u) (hin : ∀ e ∈ tr, Inside e) :
    Placed (tr.countP isSent) (tr.countP isStored) u := by
  refine hrun.past (P := fun _ e => Inside e) (J := fun l s => Placed (l.countP isSent) (l.countP isStored) s)
    Placed.reset (fun l e r hl => hin e (by rw [hl]; simp)) ?_
  intro l e hs hp hj
  rw [List.countP_append, List.countP_append, List.countP_singleton, List.countP_singleton]
  exact hj.step hs hp

/-- By induction on the run: an event is inside because it is not the one too many. -/
theorem inside_of_counts (hrun : Run steps (reset s) tr u) (hsends : tr.countP isSent ≤ txRows)
    (hframes : tr.countP isStored ≤ rxRows) : ∀ e ∈ tr, Inside e := by
  induction hrun with
  | nil => simp
  | @snoc tr t a o u hr hs ih =>
    rw [List.countP_append, List.countP_singleton] at hsends hframes
    have hbefore := ih (by omega) (by omega)
    intro e he
    rcases List.mem_append.mp he with he | he
    · exact hbefore e he
    · rw [List.mem_singleton.mp he]
      exact (placed_of_run hr hbefore).inside hs hsends hframes

/-- The first 21 descriptors of a direction are programmed with a buffer of the declared array, and the
others are not. A run stays inside the arrays exactly if it sends at most 21 frames and the device
stores at most 21, and as long as it does, a frame is written only where it belongs. -/
theorem buffer_placement_iff (hrun : Run steps (reset s) tr u) :
    (∀ i < 64, (InTxBuffer ((reset s).txAddr (i : ℕ)) ↔ i < 21) ∧ (InRxBuffer ((reset s).rxAddr (i : ℕ)) ↔ i < 21)) ∧
      ((∀ e ∈ tr, Inside e) ↔ tr.countP isSent ≤ 21 ∧ tr.countP isStored ≤ 21) ∧
      ∀ e ∈ tr, Inside e → Confined e := by
  refine ⟨fun i hi => ?_, ⟨fun hin => ?_, fun ⟨hsends, hframes⟩ => ?_⟩, fun e he hin => ?_⟩
  · rw [txAddr_reset hi, rxAddr_reset hi]
    exact ⟨inTxBuffer_txRow, inRxBuffer_rxRow⟩
  · have hplaced := placed_of_run hrun hin
    exact ⟨hplaced.sends_le, hplaced.frames_le⟩
  · exact inside_of_counts hrun hsends hframes
  · exact confined_of_inside (hrun.step_of_mem he) hin

def blank : Machine := ⟨fun _ => 0, fun _ => 0, 0, .idle⟩

def unicast : Frame where
  bytes := [0x52, 0x54] ++ [0x00, 0x12, 0x34, 0x56] ++ List.replicate 58 0
  status := 0
  short := by simp [packetlenSizeMax]

/-- Two frames come in, one is sent, and `ethoc_pool` takes the first one that came in. -/
theorem buffer_placement_iff_one :
    ∃ tr u, Run steps (reset blank) tr u ∧
      tr.map (·.act) = [.receive unicast, .send (some unicast.bytes), .receive unicast, .pool false 64,
        .proceed, .proceed] ∧
      (tr.map (·.out)).getLast? = some (.frame 64 unicast.bytes) ∧
      tr.countP isSent = 1 ∧ tr.countP isStored = 2 ∧ ∀ e ∈ tr, Inside e ∧ Confined e := by
  obtain ⟨tr, u, hrun, hacts, hlast, hsent, hstored⟩ := exists_run_of_exec (f := step) (s := reset blank)
    [.receive unicast, .send (some unicast.bytes), .receive unicast, .pool false 64, .proceed, .proceed]
    (fun r => (r.1.map (·.out)).getLast? = some (.frame 64 unicast.bytes) ∧
      r.1.countP isSent = 1 ∧ r.1.countP isStored = 2) (by decide +kernel)
  obtain ⟨-, hiff, hconfined⟩ := buffer_placement_iff hrun
  have hin := hiff.mpr ⟨hsent.le.trans (by decide), hstored.le.trans (by decide)⟩
  exact ⟨tr, u, hrun, hacts, hlast, hsent, hstored, fun e he => ⟨hin e he, hconfined e he (hin e he)⟩⟩

/-! ### The first frame outside -/

/-- As many frames as there are rows can be received. -/
theorem exists_run_receive (f : Frame) {m : ℕ} (hm : m ≤ rxRows) :
    ∃ tr u, Run steps (reset s) tr u ∧ tr.map (·.act) = List.replicate m (.receive f) ∧ Placed 0 m u := by
  induction m with
  | zero => exact ⟨[], reset s, .nil, rfl, Placed.reset⟩
  | succ m ih =>
    obtain ⟨tr, u, hrun, hacts, hplaced⟩ := ih (Nat.le_of_succ_le hm)
    have hroom := hplaced.hasRoom
    refine ⟨_, u.received f, hrun.snoc (a := .receive f) (o := .quiet) ?_, ?_, hplaced.received hm f⟩
    · rw [steps, step, if_pos hroom]
    · rw [List.map_append, hacts, List.replicate_succ']
      rfl

/-- As many frames as there are rows can be sent. -/
theorem exists_run_send {bytes : List UInt8} (hpos : bytes.length ≠ 0) (hsize : bytes.length < bufsiz) {n : ℕ}
    (hn : n ≤ txRows) :
    ∃ tr u, Run steps (reset s) tr u ∧ tr.map (·.act) = List.replicate n (.send (some bytes)) ∧
      Placed n 0 u ∧ u.pc = .idle := by
  induction n with
  | zero => exact ⟨[], reset s, .nil, rfl, Placed.reset, rfl⟩
  | succ n ih =>
    obtain ⟨tr, u, hrun, hacts, hplaced, hidle⟩ := ih (Nat.le_of_succ_le hn)
    refine ⟨_, _, hrun.snoc (send_step hidle hpos hsize (by rw [hplaced.txHead_eq]; omega)), ?_,
      hplaced.filled hn hsize, hidle⟩
    rw [List.map_append, hacts, List.replicate_succ']
    rfl

theorem unicast_length_ne_zero : unicast.bytes.length ≠ 0 := by decide

theorem unicast_length_lt : unicast.bytes.length < bufsiz := by decide

/-- An `int` that lies inside what was written. -/
theorem intAt_store_at (bs cs ds : List UInt8) (hcs : cs.length = 4) {y : ℕ} (h : x = y + bs.length) :
    intAt (store mem y (bs ++ cs ++ ds)) x = (BitVec.ofNat 32 (leValue cs.reverse)).toInt := by
  have hload := load_store_at mem y bs cs ds
  rw [hcs] at hload
  rw [intAt, h, hload]

/-- The 22nd frame lies on `rx_head`, which becomes the last bytes of the address in the frame. -/
theorem exists_run_rxHead_lost :
    ∃ tr u, Run steps (reset blank) tr u ∧ tr.map (·.act) = List.replicate 22 (.receive unicast) ∧
      u.rxHead = 0x00123456 := by
  obtain ⟨tr, t, hrun, hacts, hplaced⟩ := exists_run_receive (s := blank) unicast (Nat.le_refl rxRows)
  have hstep : steps t (.receive unicast) .quiet (t.received unicast) := by
    rw [steps, step, if_pos hplaced.hasRoom]
  refine ⟨_, _, hrun.snoc hstep, ?_, ?_⟩
  · rw [List.map_append, hacts]
    rfl
  · have haddr : t.rxAddr t.rxNext = rxRow 21 := by
      rw [hplaced.rxNext_eq]
      exact hplaced.addr 21 (by decide)
    rw [Machine.rxHead, Machine.received, haddr]
    exact (intAt_store_at [0x52, 0x54] [0x00, 0x12, 0x34, 0x56] (List.replicate 58 0) rfl rfl).trans (by decide)

/-- The 22nd frame that is sent lies on `tx_head`. -/
theorem exists_run_txHead_lost :
    ∃ tr u, Run steps (reset blank) tr u ∧ tr.map (·.act) = List.replicate 22 (.send (some unicast.bytes)) ∧
      u.txHead = 0x52540012 := by
  obtain ⟨tr, t, hrun, hacts, hplaced, hidle⟩ := exists_run_send (s := blank) unicast_length_ne_zero
    unicast_length_lt (Nat.le_refl txRows)
  have hstep := send_step hidle unicast_length_ne_zero unicast_length_lt (by rw [hplaced.txHead_eq]; decide)
  refine ⟨_, _, hrun.snoc hstep, ?_, ?_⟩
  · rw [List.map_append, hacts]
    rfl
  · have hrow : txRow t.txHead.toNat = txRow 21 := by
      rw [hplaced.txHead_eq]
      rfl
    have hbytes : unicast.bytes = [] ++ [0x52, 0x54, 0x00, 0x12] ++ ([0x34, 0x56] ++ List.replicate 58 0) := by
      simp only [unicast, List.cons_append, List.nil_append]
    rw [Machine.txHead, Machine.filled, hrow, hbytes]
    exact (intAt_store_at [] [0x52, 0x54, 0x00, 0x12] _ rfl rfl).trans (by decide)

theorem twenty_second_frame_overwrites_head :
    (∃ tr u, Run steps (reset blank) tr u ∧ tr.map (·.act) = List.replicate 22 (.receive unicast) ∧
      u.rxHead = 0x00123456) ∧
    ∃ tr u, Run steps (reset blank) tr u ∧ tr.map (·.act) = List.replicate 22 (.send (some unicast.bytes)) ∧
      u.txHead = 0x52540012 :=
  ⟨exists_run_rxHead_lost, exists_run_txHead_lost⟩

end Nanvix.Dev.Ethoc
