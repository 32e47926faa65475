import Nanvix.Lib.Ring
import Nanvix.Noc.Mbuffer

/-! The request FIFO of an active. A port that wants to write registers itself
at the head and may write when it has reached the tail; a message consumed by a
local reader withdraws its sender from wherever it stands. The FIFO is a ring of
`max_capacity` port numbers. -/

namespace Nanvix.Noc

open Nanvix.Lib Function

/-- `__mod_pw2`, for a power of two `c`. -/
def modPw2 (x : ℤ) (c : ℕ) : ℕ := (x % c).toNat

theorem modPw2_natCast (x c : ℕ) : modPw2 x c = x % c := by
  unfold modPw2; omega

namespace RequestsFifo

def push (r : RequestsFifo) (x : ℤ) : RequestsFifo :=
  { r with
    fifo := update r.fifo r.head x
    head := modPw2 (r.head + 1) r.maxCapacity
    nelements := r.nelements + 1 }

def pop (r : RequestsFifo) : RequestsFifo :=
  { r with
    fifo := update r.fifo r.tail (-1)
    tail := modPw2 (r.tail + 1) r.maxCapacity
    nelements := r.nelements - 1 }

/-- The loop of `do_request_clear`: it stops when `curr` meets the head, which
in a ring takes fewer than `cap` rounds. -/
def clearLoop (cap head : ℕ) (x : ℤ) : ℕ → ℕ → Bool → (ℕ → ℤ) → Bool × (ℕ → ℤ)
  | 0, _, cleared, fifo => (cleared, fifo)
  | fuel + 1, curr, cleared, fifo =>
    if curr = head then (cleared, fifo)
    else
      let next := modPw2 (curr + 1) cap
      let cleared := cleared || fifo curr == x
      clearLoop cap head x fuel next cleared
        (if cleared then update fifo curr (fifo next) else fifo)

/-- The effect of `do_request_clear` on the FIFO, and whether it found `x`. -/
def clear (r : RequestsFifo) (x : ℤ) : Bool × RequestsFifo :=
  if r.nelements = 0 then (false, r)
  else
    match clearLoop r.maxCapacity r.head x r.maxCapacity r.tail false r.fifo with
    | (true, fifo) => (true, { r with
        fifo := fifo
        head := modPw2 (r.head - 1) r.maxCapacity
        nelements := r.nelements - 1 })
    | (false, fifo) => (false, { r with fifo := fifo })

/-- The live window: the registered ports, the one whose turn it is first. -/
def queue (r : RequestsFifo) : List ℤ :=
  Ring.window r.fifo r.maxCapacity r.tail r.nelements.toNat

structure Wf (r : RequestsFifo) : Prop where
  nonneg : 0 ≤ r.nelements
  le : r.nelements ≤ r.maxCapacity
  tail_lt : r.tail < r.maxCapacity
  head_eq : r.head = (r.tail + r.nelements.toNat) % r.maxCapacity

variable {r : RequestsFifo} {x : ℤ}

@[simp] theorem push_maxCapacity : (r.push x).maxCapacity = r.maxCapacity := rfl
@[simp] theorem push_nelements : (r.push x).nelements = r.nelements + 1 := rfl
@[simp] theorem push_tail : (r.push x).tail = r.tail := rfl
@[simp] theorem pop_maxCapacity : r.pop.maxCapacity = r.maxCapacity := rfl
@[simp] theorem pop_nelements : r.pop.nelements = r.nelements - 1 := rfl

theorem pop_tail : r.pop.tail = (r.tail + 1) % r.maxCapacity := modPw2_natCast (r.tail + 1) _

@[simp] theorem queue_length : r.queue.length = r.nelements.toNat := by simp [queue]

theorem push_wf (h : r.Wf) (hn : r.nelements ≠ r.maxCapacity) : (r.push x).Wf where
  nonneg := by have := h.nonneg; simp; omega
  le := by have := h.le; simp; omega
  tail_lt := h.tail_lt
  head_eq := by
    have h0 := h.nonneg
    have he : (r.nelements + 1).toNat = r.nelements.toNat + 1 := by omega
    simp only [push_tail, push_nelements, push_maxCapacity, he]
    change modPw2 (((r.head + 1 : ℕ) : ℤ)) r.maxCapacity = _
    rw [modPw2_natCast, h.head_eq, Nat.mod_add_mod, Nat.add_assoc]

theorem push_queue (h : r.Wf) (hn : r.nelements ≠ r.maxCapacity) :
    (r.push x).queue = r.queue ++ [x] := by
  have h0 := h.nonneg
  have h1 := h.le
  have he : (r.nelements + 1).toNat = r.nelements.toNat + 1 := by omega
  simp only [queue, push_nelements, push_tail, push_maxCapacity, he]
  change Ring.window (update r.fifo r.head x) _ _ _ = _
  rw [h.head_eq, Ring.window_push x (by omega)]

theorem pop_wf (h : r.Wf) (hn : r.nelements ≠ 0) : r.pop.Wf where
  nonneg := by have := h.nonneg; simp; omega
  le := by have := h.le; simp; omega
  tail_lt := by
    rw [pop_tail]
    exact Nat.mod_lt _ ((Nat.zero_le _).trans_lt h.tail_lt)
  head_eq := by
    have h0 := h.nonneg
    obtain ⟨n, hn'⟩ : ∃ n, r.nelements.toNat = n + 1 := ⟨r.nelements.toNat - 1, by omega⟩
    have he : (r.nelements - 1).toNat = n := by omega
    change r.head = (r.pop.tail + (r.nelements - 1).toNat) % r.maxCapacity
    rw [pop_tail, he, h.head_eq, hn', Ring.index_succ]

/-- The head of the queue is the cell at the tail, and `pop` removes it. -/
theorem queue_eq_cons (h : r.Wf) (hn : r.nelements ≠ 0) :
    r.queue = r.fifo r.tail :: r.pop.queue := by
  have h0 := h.nonneg
  have h1 := h.le
  obtain ⟨n, hn'⟩ : ∃ n, r.nelements.toNat = n + 1 := ⟨r.nelements.toNat - 1, by omega⟩
  have he : (r.nelements - 1).toNat = n := by omega
  have htl : r.tail % r.maxCapacity = r.tail := Nat.mod_eq_of_lt h.tail_lt
  have hp : Ring.window (update r.fifo (r.tail % r.maxCapacity) (-1)) r.maxCapacity
      ((r.tail + 1) % r.maxCapacity) n =
      Ring.window r.fifo r.maxCapacity ((r.tail + 1) % r.maxCapacity) n :=
    Ring.window_pop (-1) (by omega)
  rw [htl] at hp
  rw [queue, hn', Ring.window_cons, htl, queue, pop_tail, pop_nelements, he, pop_maxCapacity]
  exact congrArg _ hp.symm

/-! ### Withdrawing a port -/

section Clear
variable {cap head fuel curr d : ℕ} {f : ℕ → ℤ}

private theorem next_eq (curr cap : ℕ) : modPw2 ((curr : ℤ) + 1) cap = (curr + 1) % cap :=
  modPw2_natCast (curr + 1) cap

private theorem curr_ne_head (hh : head = (curr + (d + 1)) % cap) (hc : curr < cap)
    (hd : d + 1 < cap) : curr ≠ head := by
  intro he
  have h0 : (curr + 0) % cap = (curr + (d + 1)) % cap := by
    rw [← hh, ← he, Nat.add_zero, Nat.mod_eq_of_lt hc]
  have := Ring.index_inj (by omega) hd h0
  omega

/-- Once the port is found, every later cell moves one place towards the tail. -/
theorem clearLoop_true (hc : curr < cap) (hd : d < cap) (hh : head = (curr + d) % cap)
    (hf : d ≤ fuel) :
    ∃ g, clearLoop cap head x fuel curr true f = (true, g) ∧
      (∀ i < d, g ((curr + i) % cap) = f ((curr + (i + 1)) % cap)) ∧
      ∀ k, (∀ i < d, (curr + i) % cap ≠ k) → g k = f k := by
  induction d generalizing curr f fuel with
  | zero =>
    have he : curr = head := by rw [hh, Nat.add_zero, Nat.mod_eq_of_lt hc]
    refine ⟨f, ?_, by simp, by simp⟩
    cases fuel <;> simp [clearLoop, he]
  | succ d ih =>
    obtain ⟨fuel, rfl⟩ : ∃ m, fuel = m + 1 := ⟨fuel - 1, by omega⟩
    have hnext : (curr + 1) % cap < cap := Nat.mod_lt _ (by omega)
    have hrest : head = ((curr + 1) % cap + d) % cap := by rw [hh, Ring.index_succ]
    have hfuel : d ≤ fuel := by omega
    obtain ⟨g, hg, hsh, hout⟩ := ih (f := update f curr (f ((curr + 1) % cap))) hnext
      (by omega) hrest hfuel
    have hcc : curr = (curr + 0) % cap := by rw [Nat.add_zero, Nat.mod_eq_of_lt hc]
    refine ⟨g, ?_, ?_, ?_⟩
    · simpa [clearLoop, curr_ne_head hh hc hd, next_eq] using hg
    · intro i hi
      cases i with
      | zero =>
        rw [← hcc, hout curr, update_self]
        intro i hi he
        rw [Ring.index_succ, hcc, Nat.add_zero, Nat.mod_add_mod] at he
        exact absurd (Ring.index_inj (by omega) (by omega)
          (he.trans (by rw [Nat.mod_eq_of_lt hc, ← hcc] : _ = (curr + 0) % cap))) (by omega)
      | succ i =>
        have hs := hsh i (by omega)
        rw [Ring.index_succ, Ring.index_succ, update_of_ne] at hs
        · exact hs
        · intro he
          exact absurd (Ring.index_inj (by omega) (by omega) (he.trans hcc)) (by omega)
    · intro k hk
      rw [hout k fun i hi => by rw [Ring.index_succ]; exact hk (i + 1) (by omega),
        update_of_ne]
      intro he
      exact hk 0 (by omega) (hcc.symm.trans he.symm)

/-- The loop passes over the ports in front of `x` without a change. -/
theorem clearLoop_skip (hc : curr < cap) (hd : d < cap) (hh : head = (curr + d) % cap)
    (hf : d ≤ fuel) {j : ℕ} (hj : j ≤ d) (hx : ∀ i < j, f ((curr + i) % cap) ≠ x) :
    clearLoop cap head x fuel curr false f =
      clearLoop cap head x (fuel - j) ((curr + j) % cap) false f := by
  induction j generalizing curr d fuel with
  | zero => simp [Nat.mod_eq_of_lt hc]
  | succ j ih =>
    obtain ⟨d, rfl⟩ : ∃ m, d = m + 1 := ⟨d - 1, by omega⟩
    obtain ⟨fuel, rfl⟩ : ∃ m, fuel = m + 1 := ⟨fuel - 1, by omega⟩
    have h0 : (f curr == x) = false := by simpa [Nat.mod_eq_of_lt hc] using hx 0 (by omega)
    have hstep : clearLoop cap head x (fuel + 1) curr false f =
        clearLoop cap head x fuel ((curr + 1) % cap) false f := by
      simp [clearLoop, curr_ne_head hh hc hd, next_eq, h0]
    rw [hstep, ih (d := d) (Nat.mod_lt _ (by omega)) (by omega) (by rw [hh, Ring.index_succ])
      (by omega) (by omega) fun i hi => by rw [Ring.index_succ]; exact hx (i + 1) (by omega),
      Ring.index_succ, show fuel + 1 - (j + 1) = fuel - j by omega]

theorem clearLoop_notMem (hc : curr < cap) (hd : d < cap) (hh : head = (curr + d) % cap)
    (hf : d ≤ fuel) (hx : ∀ i < d, f ((curr + i) % cap) ≠ x) :
    clearLoop cap head x fuel curr false f = (false, f) := by
  rw [clearLoop_skip hc hd hh hf le_rfl hx, ← hh]
  cases fuel - d <;> simp [clearLoop]

theorem clearLoop_mem (hc : curr < cap) (hd : d < cap) (hh : head = (curr + d) % cap)
    (hf : d ≤ fuel) {j : ℕ} (hj : j < d) (hx : ∀ i < j, f ((curr + i) % cap) ≠ x)
    (hjx : f ((curr + j) % cap) = x) :
    ∃ g, clearLoop cap head x fuel curr false f = (true, g) ∧
      (∀ i < j, g ((curr + i) % cap) = f ((curr + i) % cap)) ∧
      ∀ i, j ≤ i → i < d → g ((curr + i) % cap) = f ((curr + (i + 1)) % cap) := by
  set c := (curr + j) % cap with hcdef
  have hcc : c < cap := Nat.mod_lt _ (by omega)
  have hadd : ∀ i, (c + i) % cap = (curr + (j + i)) % cap := fun i => by
    rw [hcdef, Nat.mod_add_mod, Nat.add_assoc]
  have hhc : head = (c + (d - j)) % cap := by rw [hadd, hh]; congr 2; omega
  obtain ⟨m, hm⟩ : ∃ m, fuel - j = m + 1 := ⟨fuel - j - 1, by omega⟩
  obtain ⟨e, he⟩ : ∃ e, d - j = e + 1 := ⟨d - j - 1, by omega⟩
  rw [he] at hhc
  have hfound : clearLoop cap head x fuel curr false f =
      clearLoop cap head x (m + 1) c true f := by
    rw [clearLoop_skip hc hd hh hf (by omega) hx, ← hcdef, hm]
    simp [clearLoop, curr_ne_head hhc hcc (by omega), hjx]
  obtain ⟨g, hg, hsh, hout⟩ := clearLoop_true (x := x) (f := f) hcc
    (show e + 1 < cap by omega) hhc (show e + 1 ≤ m + 1 by omega)
  refine ⟨g, hfound.trans hg, fun i hi => hout _ fun k hk hki => ?_, fun i hi hid => ?_⟩
  · rw [hadd] at hki
    exact absurd (Ring.index_inj (by omega) (by omega) hki) (by omega)
  · have hs := hsh (i - j) (by omega)
    rwa [hadd, hadd, show j + (i - j) = i by omega, show j + (i - j + 1) = i + 1 by omega] at hs

end Clear

/-- On a ring that is not full, `do_request_clear` removes the first entry of
the port and keeps the order of the others. -/
theorem clear_spec (h : r.Wf) (hn : r.nelements ≠ r.maxCapacity) :
    (r.clear x).2.Wf ∧ (r.clear x).2.queue = r.queue.erase x ∧
      ((r.clear x).1 = true ↔ x ∈ r.queue) ∧ (r.clear x).2.maxCapacity = r.maxCapacity := by
  have h0 := h.nonneg
  have h1 := h.le
  by_cases hz : r.nelements = 0
  · have hq : r.queue = [] := by simp [queue, hz]
    simp [clear, hz, hq, h]
  have hlt : r.nelements.toNat < r.maxCapacity := by omega
  have hget : ∀ i (hi : i < r.queue.length), r.queue[i] = r.fifo ((r.tail + i) % r.maxCapacity) :=
    fun i hi => by simp [queue, Ring.window]
  by_cases hx : x ∈ r.queue
  · set j := r.queue.idxOf x with hj
    have hjn : j < r.nelements.toNat := by simpa using List.idxOf_lt_length_of_mem hx
    have hlo : ∀ i < j, r.fifo ((r.tail + i) % r.maxCapacity) ≠ x := fun i hi => by
      have := List.not_of_lt_findIdx (hi : i < r.queue.findIdx (· == x))
      rw [hget] at this
      simpa using this
    obtain ⟨g, hg, hgl, hgh⟩ := clearLoop_mem h.tail_lt hlt h.head_eq hlt.le hjn hlo
      (by rw [← hget j (by simpa using hjn)]; exact List.getElem_idxOf (by simpa using hjn))
    have hc : r.clear x = (true, { r with
        fifo := g, head := modPw2 (r.head - 1) r.maxCapacity, nelements := r.nelements - 1 }) := by
      simp [clear, hz, hg]
    rw [hc]
    have he : (r.nelements - 1).toNat = r.nelements.toNat - 1 := by omega
    refine ⟨⟨by simp; omega, by simp; omega, h.tail_lt, ?_⟩, ?_, by simp [hx], rfl⟩
    · -- stepping the head back by one undoes the last push
      obtain ⟨n, hn'⟩ : ∃ n, r.nelements.toNat = n + 1 := ⟨r.nelements.toNat - 1, by omega⟩
      change modPw2 ((r.head : ℤ) - 1) r.maxCapacity = (r.tail + (r.nelements - 1).toNat) % _
      rw [he, hn', Nat.add_sub_cancel, ← modPw2_natCast, h.head_eq, hn']
      unfold modPw2
      congr 1
      push_cast
      rw [Int.emod_sub_emod]
      congr 1
      ring
    · rw [List.erase_eq_eraseIdx_of_idxOf hj.symm, queue, queue]
      simp only [he]
      exact Ring.window_shift hjn hgl fun i hi hin => hgh i hi (by omega)
  · have hnx : ∀ i < r.nelements.toNat, r.fifo ((r.tail + i) % r.maxCapacity) ≠ x :=
      fun i hi he => hx (Ring.mem_window.mpr ⟨i, hi, he⟩)
    have hc : r.clear x = (false, r) := by
      simp [clear, hz, clearLoop_notMem h.tail_lt hlt h.head_eq hlt.le hnx]
    simp [hc, h, hx, List.erase_of_not_mem hx]

/-- On a full ring the loop ends before its first round and nothing is removed. -/
theorem clear_full (h : r.Wf) (hn : r.nelements = r.maxCapacity) : r.clear x = (false, r) := by
  have hz : r.nelements ≠ 0 := by have := h.tail_lt; omega
  have he : r.tail = r.head := by
    rw [h.head_eq, hn, Int.toNat_natCast, Nat.add_mod_right, Nat.mod_eq_of_lt h.tail_lt]
  have hl : clearLoop r.maxCapacity r.head x r.maxCapacity r.tail false r.fifo =
      (false, r.fifo) := by
    rw [he]; cases r.maxCapacity <;> simp [clearLoop]
  simp [clear, hz, hl]

end RequestsFifo

/-! ### The operations on an active -/

/-- Port `p` enters the FIFO. -/
def Phys.register (s : Phys) (a p : ℕ) : Phys :=
  (s.setPort (a, p) { s.ports (a, p) with requested := true }).setActive a
    { s.actives a with requests := (s.actives a).requests.push p }

/-- The port at the tail leaves the FIFO. -/
def Phys.complete (s : Phys) (a p : ℕ) : Phys :=
  (s.setPort (a, p) { s.ports (a, p) with requested := false }).setActive a
    { s.actives a with requests := (s.actives a).requests.pop }

def doRequestOperation (s : Phys) (a p : ℕ) : Except Err Phys :=
  let r := (s.actives a).requests
  if r.nelements = r.maxCapacity then .error .EBUSY else .ok (s.register a p)

def doRequestComplete (s : Phys) (a p : ℕ) : Except Err Phys :=
  let r := (s.actives a).requests
  if r.fifo r.tail ≠ p then .error .EINVAL else .ok (s.complete a p)

/-- `do_request_clear`, which always returns zero. -/
def doRequestClear (s : Phys) (a p : ℕ) : Phys :=
  let found := (s.actives a).requests.clear p
  (s.setPort (a, p) { s.ports (a, p) with
    requested := (s.ports (a, p)).requested && !found.1 }).setActive a
    { s.actives a with requests := found.2 }

def doRequestVerify (s : Phys) (a p : ℕ) : Bool :=
  let r := (s.actives a).requests
  if r.nelements = 0 then false else r.fifo r.tail == p

section Frame
variable (s : Phys) (a p : ℕ)

@[simp] theorem register_mbuffers : (s.register a p).mbuffers = s.mbuffers := rfl
@[simp] theorem register_lent : (s.register a p).lent = s.lent := rfl
@[simp] theorem register_age : (s.register a p).age = s.age := rfl
@[simp] theorem register_clockError : (s.register a p).clockError = s.clockError := rfl
@[simp] theorem complete_mbuffers : (s.complete a p).mbuffers = s.mbuffers := rfl
@[simp] theorem complete_lent : (s.complete a p).lent = s.lent := rfl

variable {s a p}

theorem doRequestVerify_iff :
    doRequestVerify s a p = true ↔ (s.actives a).requests.nelements ≠ 0 ∧
      (s.actives a).requests.fifo (s.actives a).requests.tail = p := by
  simp only [doRequestVerify]
  split <;> simp_all

end Frame

/-! ### Withdrawing exactly one port -/

open RequestsFifo

/-- What `do_request_clear` is for: port `p` is gone from the FIFO of active `a`, the others
keep their order, the cursors describe the queue that is left, and the port counts as requested
no more. -/
def Withdrawn (s : Phys) (a p : ℕ) : Prop :=
  let r := (s.actives a).requests
  let t := doRequestClear s a p
  let r' := (t.actives a).requests
  let rest := r.queue.filter (· ≠ (p : ℤ))
  r'.queue = rest ∧ r'.nelements = rest.length ∧
    r'.head = (r'.tail + rest.length) % r'.maxCapacity ∧ r'.maxCapacity = r.maxCapacity ∧
    ((p : ℤ) ∈ r.queue → (t.ports (a, p)).requested = false)

variable {s : Phys} {a p : ℕ}

theorem doRequestClear_requests_self :
    ((doRequestClear s a p).actives a).requests = ((s.actives a).requests.clear p).2 := by
  simp [doRequestClear]

theorem doRequestClear_requested_self : ((doRequestClear s a p).ports (a, p)).requested =
    ((s.ports (a, p)).requested && !((s.actives a).requests.clear p).1) := by
  simp [doRequestClear]

/-- A ring without duplicates loses exactly the given port, unless the ring is full and the
port is in it. -/
theorem doRequestClear_withdraws_iff (hwf : (s.actives a).requests.Wf)
    (hnodup : (s.actives a).requests.queue.Nodup) :
    Withdrawn s a p ↔
      (s.actives a).requests.nelements ≠ (s.actives a).requests.maxCapacity ∨
        (p : ℤ) ∉ (s.actives a).requests.queue := by
  unfold Withdrawn
  dsimp only
  rw [doRequestClear_requests_self, doRequestClear_requested_self]
  generalize (s.actives a).requests = r at hwf hnodup
  constructor
  · -- a full ring is left as it is, with the port in it
    rintro ⟨hqueue, -⟩
    by_contra hno
    obtain ⟨hfull, hmem⟩ : r.nelements = r.maxCapacity ∧ (p : ℤ) ∈ r.queue := by
      simpa [not_or] using hno
    rw [clear_full hwf hfull] at hqueue
    rw [hqueue] at hmem
    simp at hmem
  · intro h
    by_cases hfull : r.nelements = r.maxCapacity
    · have hmem : (p : ℤ) ∉ r.queue := h.resolve_left (not_not.mpr hfull)
      have hrest : r.queue.filter (· ≠ (p : ℤ)) = r.queue :=
        List.filter_eq_self.mpr fun x hx => decide_eq_true fun he => hmem (he ▸ hx)
      rw [clear_full hwf hfull, hrest, queue_length]
      dsimp only
      exact ⟨rfl, by have := hwf.nonneg; omega, hwf.head_eq, rfl, fun hx => absurd hx hmem⟩
    · obtain ⟨hwf', hqueue, hfound, hcap⟩ := clear_spec (x := p) hwf hfull
      rw [hnodup.erase_eq_filter] at hqueue
      have hrest : r.queue.filter (· ≠ (p : ℤ)) = (r.clear p).2.queue := by
        rw [hqueue]
        apply List.filter_congr
        intro x _
        simp [bne, beq_eq_decide]
      rw [hrest, queue_length]
      refine ⟨rfl, by have := hwf'.nonneg; omega, hwf'.head_eq, hcap, fun hx => ?_⟩
      rw [hfound.mpr hx, Bool.not_true, Bool.and_false]

/-- Tables in which every active has the ring `r` and every port is marked as requested. -/
def physWithRing (r : RequestsFifo) : Phys where
  actives := fun _ => { requests := r }
  ports := fun _ => { requested := true }
  mbuffers := fun _ => {}
  age := 0
  lent := fun _ => none
  clockError := 0

def wrappedRing : RequestsFifo :=
  { maxCapacity := 16, tail := 15, head := 2, nelements := 3
    fifo := fun i => if i = 15 then 7 else if i = 0 then 3 else 5 }

theorem doRequestClear_withdraws_iff_three :
    wrappedRing.queue = [7, 3, 5] ∧ Withdrawn (physWithRing wrappedRing) 1 3 :=
  ⟨by decide, (doRequestClear_withdraws_iff ⟨by decide, by decide, by decide, by decide⟩
    (by decide)).mpr (.inl (by decide))⟩

def fullRing : RequestsFifo := { maxCapacity := 16, nelements := 16, fifo := fun i => i }

/-- Port 0 stays in a full ring. -/
theorem not_doRequestClear_withdraws :
    ¬ ∀ (s : Phys) (a p : ℕ), (s.actives a).requests.Wf → (s.actives a).requests.queue.Nodup →
      Withdrawn s a p := by
  intro h
  obtain ⟨hqueue, -⟩ := h (physWithRing fullRing) 1 0 ⟨by decide, by decide, by decide, by decide⟩
    (by decide)
  exact absurd hqueue (by decide)

end Nanvix.Noc
