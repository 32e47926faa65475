import Nanvix.Noc.Data

/-! The mbuffer pools. The principal pool is the whole table and the auxiliary
pool its last entries, so an index is relative to a pool and every operation
goes through the view it was called on. A pool pointer that may be `NULL` is an
`Option Pool`, and a failed assertion is `none`. -/

namespace Nanvix.Noc

open Function

namespace Phys

def setActive (s : Phys) (a : ℕ) (x : Active) : Phys :=
  { s with actives := update s.actives a x }

def setPort (s : Phys) (ap : ℕ × ℕ) (x : Port) : Phys :=
  { s with ports := update s.ports ap x }

def setMbuffer (s : Phys) (k : ℕ) (m : Mbuffer) : Phys :=
  { s with mbuffers := update s.mbuffers k m }

def setLent (s : Phys) (a : ℕ) (x : Option ℕ) : Phys :=
  { s with lent := update s.lent a x }

section Fields
variable (s : Phys) (a k : ℕ) (ap : ℕ × ℕ) (x : Active) (q : Port) (m : Mbuffer) (l : Option ℕ)

@[simp] theorem setActive_actives :
    (s.setActive a x).actives = update s.actives a x := rfl
@[simp] theorem setActive_ports : (s.setActive a x).ports = s.ports := rfl
@[simp] theorem setActive_mbuffers : (s.setActive a x).mbuffers = s.mbuffers := rfl
@[simp] theorem setActive_lent : (s.setActive a x).lent = s.lent := rfl
@[simp] theorem setPort_actives : (s.setPort ap q).actives = s.actives := rfl
@[simp] theorem setPort_ports : (s.setPort ap q).ports = update s.ports ap q := rfl
@[simp] theorem setPort_mbuffers : (s.setPort ap q).mbuffers = s.mbuffers := rfl
@[simp] theorem setPort_lent : (s.setPort ap q).lent = s.lent := rfl
@[simp] theorem setMbuffer_actives : (s.setMbuffer k m).actives = s.actives := rfl
@[simp] theorem setMbuffer_ports : (s.setMbuffer k m).ports = s.ports := rfl
@[simp] theorem setMbuffer_mbuffers :
    (s.setMbuffer k m).mbuffers = update s.mbuffers k m := rfl
@[simp] theorem setMbuffer_age : (s.setMbuffer k m).age = s.age := rfl
@[simp] theorem setMbuffer_lent : (s.setMbuffer k m).lent = s.lent := rfl
@[simp] theorem setMbuffer_clockError : (s.setMbuffer k m).clockError = s.clockError := rfl
@[simp] theorem setLent_actives : (s.setLent a l).actives = s.actives := rfl
@[simp] theorem setLent_ports : (s.setLent a l).ports = s.ports := rfl
@[simp] theorem setLent_mbuffers : (s.setLent a l).mbuffers = s.mbuffers := rfl
@[simp] theorem setLent_lent : (s.setLent a l).lent = update s.lent a l := rfl

end Fields

end Phys

variable (F : Facility)

def Pool.base : Pool → ℕ
  | .principal => 0
  | .aux => F.mbufferMax - F.auxMax

def Pool.nmbuffers : Pool → ℕ
  | .principal => F.mbufferMax
  | .aux => F.auxMax

/-- A free mbuffer after `mbuffer_alloc` has initialised it. -/
def Mbuffer.allocated (m : Mbuffer) : Mbuffer :=
  { resource := { used := true }, message := m.message.reset }

def Mbuffer.discarded (m : Mbuffer) : Mbuffer := { message := m.message.reset }

def mbufferAlloc (P : Pool) (s : Phys) : Except Err ℕ × Phys :=
  match (List.range (P.nmbuffers F)).find? fun i => !(s.mbuffers (P.base F + i)).resource.used with
  | some i => (.ok i, s.setMbuffer (P.base F + i) (s.mbuffers (P.base F + i)).allocated)
  | none => (.error .EBUSY, s)

/-- `mbuffer_get`: the table entry that `id` names in the pool. -/
def mbufferGet (P : Option Pool) (id : ℤ) : Option ℕ :=
  match P with
  | none => none
  | some P => if 0 ≤ id ∧ id < P.nmbuffers F then some (P.base F + id.toNat) else none

/-- Release of a table entry in use, keeping or discarding its message. -/
def Phys.releaseMbuffer (s : Phys) (k : ℕ) (keep : Bool) : Phys :=
  let m := s.mbuffers k
  if keep then
    { s.setMbuffer k { m with age := s.age, resource := { m.resource with busy := true } } with
      age := s.age + 1 }
  else s.setMbuffer k m.discarded

def mbufferRelease (P : Option Pool) (id : ℤ) (keep : Bool) (s : Phys) :
    Option (Except Err Unit × Phys) :=
  match mbufferGet F P id with
  | none => none
  | some k =>
    if (s.mbuffers k).resource.used then some (.ok (), s.releaseMbuffer k keep)
    else some (.error .EINVAL, s)

/-- A message that is stored for `dest` and comes from an accepted source. -/
def candidate (dest src : ℤ) (m : Mbuffer) : Bool :=
  m.resource.used && m.resource.busy && m.message.header.dest == dest &&
    sourceCheck F m.message.header src

/-- One iteration of the loop of `mbuffer_search`. -/
def searchStep (P : Pool) (dest src : ℤ) (s : Phys) (acc : Option ℕ × UInt64) (i : ℕ) :
    Option ℕ × UInt64 :=
  let buf := s.mbuffers (P.base F + i)
  if !buf.resource.used then acc
  else if !buf.resource.busy then acc
  else if buf.message.header.dest != dest then acc
  else if !sourceCheck F buf.message.header src then acc
  else if buf.age > acc.2 then acc
  else (some i, buf.age)

/-- `mbuffer_search`; `none` is `-EINVAL`. -/
def mbufferSearch (P : Pool) (dest src : ℤ) (s : Phys) : Option ℕ :=
  ((List.range (P.nmbuffers F)).foldl (searchStep F P dest src s) (none, ageMax)).1

/-! ### Allocation -/

variable {F} {P : Pool} {s t : Phys} {dest src : ℤ}

theorem mbufferAlloc_ok {i : ℕ} (h : mbufferAlloc F P s = (.ok i, t)) :
    i < P.nmbuffers F ∧ (s.mbuffers (P.base F + i)).resource.used = false ∧
      t = s.setMbuffer (P.base F + i) (s.mbuffers (P.base F + i)).allocated := by
  unfold mbufferAlloc at h
  split at h
  · rename_i j hj
    obtain ⟨hu, hlt, -⟩ := List.find?_range_eq_some.mp hj
    simp only [Prod.mk.injEq, Except.ok.injEq] at h
    obtain ⟨rfl, rfl⟩ := h
    exact ⟨List.mem_range.mp hlt, by simpa using hu, rfl⟩
  · simp at h

theorem mbufferAlloc_error {e : Err} (h : mbufferAlloc F P s = (.error e, t)) :
    e = .EBUSY ∧ t = s ∧
      ∀ i < P.nmbuffers F, (s.mbuffers (P.base F + i)).resource.used = true := by
  unfold mbufferAlloc at h
  split at h
  · simp at h
  · rename_i hn
    simp only [Prod.mk.injEq, Except.error.injEq] at h
    refine ⟨h.1.symm, h.2.symm, fun i hi => ?_⟩
    simpa using List.find?_range_eq_none.mp hn i hi

theorem mbufferGet_principal {k : ℕ} (hk : k < F.mbufferMax) :
    mbufferGet F (some .principal) k = some k := by
  simp [mbufferGet, Pool.nmbuffers, Pool.base, hk]

theorem Pool.index_lt (P : Pool) {i : ℕ} (hi : i < P.nmbuffers F) :
    P.base F + i < F.mbufferMax := by
  have := F.auxMax_le
  cases P <;> simp only [Pool.base, Pool.nmbuffers] at * <;> omega

theorem mbufferGet_index (P : Pool) {i : ℕ} (hi : i < P.nmbuffers F) :
    mbufferGet F (some P) i = some (P.base F + i) := by
  simp [mbufferGet, hi]

theorem mbufferGet_lt {P : Option Pool} {id : ℤ} {k : ℕ} (h : mbufferGet F P id = some k) :
    k < F.mbufferMax := by
  unfold mbufferGet at h
  split at h
  · cases h
  · rename_i P
    split at h
    · cases h
      exact P.index_lt (by omega)
    · cases h

/-! ### Search -/

theorem le_ageMax (a : UInt64) : a ≤ ageMax := by
  rw [UInt64.le_iff_toNat_le]
  have h : ageMax.toNat = 2 ^ 64 - 1 := rfl
  have := a.toNat_lt
  omega

theorem searchStep_eq (P : Pool) (dest src : ℤ) (s : Phys) (acc : Option ℕ × UInt64) (i : ℕ) :
    searchStep F P dest src s acc i =
      if candidate F dest src (s.mbuffers (P.base F + i)) = true ∧
          (s.mbuffers (P.base F + i)).age ≤ acc.2
      then (some i, (s.mbuffers (P.base F + i)).age) else acc := by
  unfold searchStep candidate
  simp only [bne, gt_iff_lt, ← UInt64.not_le]
  split_ifs <;> simp_all

/-- After the first `n` iterations the loop holds an oldest candidate among the
first `n` entries, if there is one. -/
theorem search_loop (P : Pool) (dest src : ℤ) (s : Phys) (n : ℕ) :
    match (List.range n).foldl (searchStep F P dest src s) (none, ageMax) with
    | (none, a) => a = ageMax ∧
        ∀ j < n, candidate F dest src (s.mbuffers (P.base F + j)) = false
    | (some i, a) => i < n ∧ a = (s.mbuffers (P.base F + i)).age ∧
        candidate F dest src (s.mbuffers (P.base F + i)) = true ∧
        ∀ j < n, candidate F dest src (s.mbuffers (P.base F + j)) = true →
          (s.mbuffers (P.base F + i)).age ≤ (s.mbuffers (P.base F + j)).age := by
  induction n with
  | zero => simp
  | succ n ih =>
    rw [List.range_succ, List.foldl_append, List.foldl_cons, List.foldl_nil, searchStep_eq]
    generalize (List.range n).foldl (searchStep F P dest src s) (none, ageMax) = acc at ih ⊢
    obtain ⟨r, a⟩ := acc
    by_cases hc : candidate F dest src (s.mbuffers (P.base F + n)) = true ∧
        (s.mbuffers (P.base F + n)).age ≤ a
    · rw [if_pos hc]
      refine ⟨by omega, rfl, hc.1, fun j hj hcj => ?_⟩
      rcases Nat.lt_succ_iff_lt_or_eq.mp hj with hj | rfl
      · cases r with
        | none => exact absurd hcj (by simp [ih.2 j hj])
        | some i =>
          obtain ⟨-, rfl, -, hmin⟩ := ih
          exact UInt64.le_trans hc.2 (hmin j hj hcj)
      · exact UInt64.le_refl _
    · rw [if_neg hc]
      -- entry `n` is no candidate, or it is younger than the one held
      cases r with
      | none =>
        obtain ⟨rfl, hnone⟩ := ih
        refine ⟨rfl, fun j hj => ?_⟩
        rcases Nat.lt_succ_iff_lt_or_eq.mp hj with hj | rfl
        · exact hnone j hj
        · simpa [le_ageMax] using hc
      | some i =>
        obtain ⟨hi, rfl, hci, hmin⟩ := ih
        refine ⟨by omega, rfl, hci, fun j hj hcj => ?_⟩
        rcases Nat.lt_succ_iff_lt_or_eq.mp hj with hj | rfl
        · exact hmin j hj hcj
        · have hlt : ¬ (s.mbuffers (P.base F + j)).age ≤ (s.mbuffers (P.base F + i)).age :=
            fun h => hc ⟨hcj, h⟩
          exact UInt64.le_of_lt (UInt64.not_le.mp hlt)

/-- A successful search returns an oldest candidate of the pool. -/
theorem mbufferSearch_some {i : ℕ} (h : mbufferSearch F P dest src s = some i) :
    i < P.nmbuffers F ∧ candidate F dest src (s.mbuffers (P.base F + i)) = true ∧
      ∀ j < P.nmbuffers F, candidate F dest src (s.mbuffers (P.base F + j)) = true →
        (s.mbuffers (P.base F + i)).age ≤ (s.mbuffers (P.base F + j)).age := by
  have hl := search_loop (F := F) P dest src s (P.nmbuffers F)
  unfold mbufferSearch at h
  generalize (List.range (P.nmbuffers F)).foldl (searchStep F P dest src s) (none, ageMax) = acc
    at h hl
  obtain ⟨r, a⟩ := acc
  obtain rfl : r = some i := h
  exact ⟨hl.1, hl.2.2⟩

/-- A search fails only when the pool holds no candidate. -/
theorem mbufferSearch_none :
    mbufferSearch F P dest src s = none ↔
      ∀ j < P.nmbuffers F, candidate F dest src (s.mbuffers (P.base F + j)) = false := by
  have hl := search_loop (F := F) P dest src s (P.nmbuffers F)
  unfold mbufferSearch
  generalize (List.range (P.nmbuffers F)).foldl (searchStep F P dest src s) (none, ageMax) = acc
    at hl ⊢
  obtain ⟨_ | i, a⟩ := acc
  · simpa using hl.2
  · obtain ⟨hi, -, hc, -⟩ := hl
    simp only [reduceCtorEq, false_iff, not_forall]
    exact ⟨i, hi, by simp [hc]⟩

end Nanvix.Noc
