import Mathlib.Data.List.Pairwise
import Nanvix.Lib.Fifo
import Nanvix.Noc.Boot

/-! The two pools of a facility over runs of calls. The auxiliary pool is the end of the
principal one, with the same lock and the same age counter, so every call is one step on
the whole table. A ledger of the calls says which entries are in use and in which order
messages were kept; the flags and the ages of the table agree with it, and a search
returns the first kept message that fits. -/

namespace Nanvix.Noc

open Nanvix.Lib

/-- The calls on the pools. Between the calls an owner writes the fields of an mbuffer that are
its own. -/
inductive PoolCall
  | alloc (P : Pool)
  | release (P : Pool) (id : ℤ) (keep : Bool)
  | search (P : Pool) (dest src : ℤ)
  | fill (k : ℕ) (latency : UInt64) (actid portid : ℤ) (message : Message)

inductive PoolAnswer
  | allocated (r : Except Err ℕ)
  | released (r : Except Err Unit)
  | found (r : Option ℕ)
  | filled
  deriving DecidableEq

variable (F : Facility)

/-- One call. It is undefined where an assertion fails. -/
def poolStep (s : Phys) : PoolCall → Option (PoolAnswer × Phys)
  | .alloc P =>
    let r := mbufferAlloc F P s
    some (.allocated r.1, r.2)
  | .release P id keep => (mbufferRelease F (some P) id keep s).map fun r => (.released r.1, r.2)
  | .search P dest src => some (.found (mbufferSearch F P dest src s), s)
  | .fill k latency actid portid message =>
    some (.filled, s.setMbuffer k
      { s.mbuffers k with latency := latency, actid := actid, portid := portid, message := message })

/-- A message is kept in an mbuffer in use that keeps none yet. -/
def KeepsOnce (s : Phys) : PoolCall → Prop
  | .release P id keep => keep = true → ∀ k ∈ mbufferGet F (some P) id, (s.mbuffers k).kept = false
  | _ => True

instance (s : Phys) : (c : PoolCall) → Decidable (KeepsOnce F s c)
  | .alloc _ => inferInstanceAs (Decidable True)
  | .release _ _ _ => inferInstanceAs (Decidable (_ → ∀ k ∈ _, _))
  | .search _ _ _ => inferInstanceAs (Decidable True)
  | .fill _ _ _ _ _ => inferInstanceAs (Decidable True)

structure Fresh (s : Phys) : Prop where
  unused : ∀ k < F.mbufferMax, (s.mbuffers k).resource.used = false
  age_eq : s.age = 0

theorem Boot.fresh {F : Facility} {s : Phys} (h : Boot F s) : Fresh F s := by
  obtain ⟨hwfd, c, rfl⟩ := h.eq_bootState
  exact ⟨fun _ _ => rfl, rfl⟩

def Pool.Has (P : Pool) (k : ℕ) : Prop := P.base F ≤ k ∧ k < P.base F + P.nmbuffers F

def fits (dest src : ℤ) (m : Mbuffer) : Bool :=
  m.message.header.dest == dest && sourceCheck F m.message.header src

instance (P : Pool) (k : ℕ) : Decidable (P.Has F k) := inferInstanceAs (Decidable (_ ∧ _))

/-! ### The ledger -/

/-- The entries in use, the entries with a kept message in the order of keeping, and the number of
messages kept so far. -/
structure Ledger where
  inUse : List ℕ := []
  kept : List ℕ := []
  keeps : ℕ := 0

def Ledger.note (g : Ledger) (e : Event Phys PoolCall PoolAnswer) : Ledger :=
  match e.act, e.out with
  | .alloc P, .allocated (.ok i) => { g with inUse := (P.base F + i) :: g.inUse }
  | .release P id keep, .released (.ok _) =>
    let k := P.base F + id.toNat
    if keep then { g with kept := g.kept ++ [k], keeps := g.keeps + 1 }
    else { g with inUse := g.inUse.erase k, kept := g.kept.erase k }
  | _, _ => g

def Ledger.of (tr : List (Event Phys PoolCall PoolAnswer)) : Ledger := tr.foldl (Ledger.note F) {}

structure Ledger.Agrees (g : Ledger) (s : Phys) : Prop where
  mem_inUse : ∀ k, k ∈ g.inUse ↔ k < F.mbufferMax ∧ (s.mbuffers k).resource.used = true
  nodup : g.inUse.Nodup
  mem_kept : ∀ k, k ∈ g.kept ↔ k < F.mbufferMax ∧ (s.mbuffers k).kept = true
  sorted : g.kept.Pairwise fun j k => (s.mbuffers j).age < (s.mbuffers k).age
  below : ∀ k ∈ g.kept, (s.mbuffers k).age < s.age
  age_eq : s.age.toNat = g.keeps

variable {F}

theorem Ledger.keeps_le_note (g : Ledger) (e : Event Phys PoolCall PoolAnswer) :
    g.keeps ≤ (g.note F e).keeps := by
  unfold Ledger.note
  split
  · exact Nat.le_refl _
  · dsimp only
    split_ifs
    · exact Nat.le_succ _
    · exact Nat.le_refl _
  · exact Nat.le_refl _

theorem Ledger.keeps_le_foldl (g : Ledger) (tr : List (Event Phys PoolCall PoolAnswer)) :
    g.keeps ≤ (tr.foldl (Ledger.note F) g).keeps := by
  induction tr generalizing g with
  | nil => exact Nat.le_refl _
  | cons e tr ih => exact Nat.le_trans (g.keeps_le_note e) (ih _)

theorem candidate_eq (dest src : ℤ) (m : Mbuffer) : candidate F dest src m = (m.kept && fits F dest src m) := by
  simp only [candidate, Mbuffer.kept, fits, Bool.and_assoc]

theorem mbufferGet_eq {P : Pool} {id : ℤ} {k : ℕ} (h : mbufferGet F (some P) id = some k) :
    k = P.base F + id.toNat := by
  dsimp only [mbufferGet] at h
  split_ifs at h
  exact (Option.some.inj h).symm

@[simp] theorem Mbuffer.allocated_used (m : Mbuffer) : m.allocated.resource.used = true := rfl
@[simp] theorem Mbuffer.allocated_kept (m : Mbuffer) : m.allocated.kept = false := rfl
@[simp] theorem Mbuffer.discarded_used (m : Mbuffer) : m.discarded.resource.used = false := rfl
@[simp] theorem Mbuffer.discarded_kept (m : Mbuffer) : m.discarded.kept = false := rfl

namespace Ledger.Agrees

variable {g : Ledger} {s t : Phys} {P : Pool} {k : ℕ}

theorem fresh (h : Fresh F s) : Agrees F {} s where
  mem_inUse k := by
    simp only [List.not_mem_nil, false_iff, not_and, Bool.not_eq_true]
    exact h.unused k
  nodup := List.nodup_nil
  mem_kept k := by
    simp only [List.not_mem_nil, false_iff, not_and, Bool.not_eq_true]
    intro hk
    rw [Mbuffer.kept, h.unused k hk, Bool.false_and]
  sorted := List.Pairwise.nil
  below k hk := absurd hk List.not_mem_nil
  age_eq := by rw [h.age_eq]; rfl

theorem kept_nodup (h : Agrees F g s) : g.kept.Nodup :=
  h.sorted.imp fun hlt heq => absurd (heq ▸ hlt) (UInt64.lt_irrefl _)

theorem ages_ne (h : Agrees F g s) {j k : ℕ} (hj : j ∈ g.kept) (hk : k ∈ g.kept) (hne : j ≠ k) :
    (s.mbuffers j).age ≠ (s.mbuffers k).age := by
  have hpair : g.kept.Pairwise fun j k => (s.mbuffers j).age ≠ (s.mbuffers k).age :=
    h.sorted.imp fun hlt => UInt64.ne_of_lt hlt
  have : Std.Symm fun j k => (s.mbuffers j).age ≠ (s.mbuffers k).age := ⟨fun _ _ hne => hne.symm⟩
  exact hpair.forall hj hk hne

/-- The order depends on the ages of the kept entries only. -/
theorem sorted_congr (h : Agrees F g s)
    (hage : ∀ k ∈ g.kept, (t.mbuffers k).age = (s.mbuffers k).age) :
    g.kept.Pairwise fun j k => (t.mbuffers j).age < (t.mbuffers k).age :=
  h.sorted.imp_of_mem fun hj hk hlt => by rwa [hage _ hj, hage _ hk]

theorem alloc (h : Agrees F g s) (hk : k < F.mbufferMax) (hu : (s.mbuffers k).resource.used = false) :
    Agrees F { g with inUse := k :: g.inUse } (s.setMbuffer k (s.mbuffers k).allocated) := by
  have hkept : (s.mbuffers k).kept = false := by rw [Mbuffer.kept, hu, Bool.false_and]
  have hne : ∀ j ∈ g.kept, j ≠ k := by
    rintro j hj rfl
    rw [((h.mem_kept j).mp hj).2] at hkept
    cases hkept
  have hmb : ∀ j ∈ g.kept, (s.setMbuffer k (s.mbuffers k).allocated).mbuffers j = s.mbuffers j := by
    intro j hj
    rw [Phys.setMbuffer_mbuffers, Function.update_of_ne (hne j hj)]
  refine ⟨fun j => ?_, ?_, fun j => ?_, ?_, ?_, h.age_eq⟩
  · by_cases hj : j = k
    · subst hj
      simp [hk]
    · simp [hj, h.mem_inUse]
  · refine List.nodup_cons.mpr ⟨fun hmem => ?_, h.nodup⟩
    rw [((h.mem_inUse k).mp hmem).2] at hu
    cases hu
  · by_cases hj : j = k
    · subst hj
      simp [h.mem_kept, hkept]
    · simp [hj, h.mem_kept]
  · exact h.sorted_congr fun j hj => by rw [hmb j hj]
  · intro j hj
    rw [hmb j hj]
    exact h.below j hj

/-- A message is kept: it is the youngest one. -/
theorem keep (h : Agrees F g s) (hk : k < F.mbufferMax) (hu : (s.mbuffers k).resource.used = true)
    (hkept : (s.mbuffers k).kept = false) (hkeeps : g.keeps + 1 < 2 ^ 64) :
    Agrees F { g with kept := g.kept ++ [k], keeps := g.keeps + 1 } (s.releaseMbuffer k true) := by
  have hne : ∀ j ∈ g.kept, j ≠ k := by
    rintro j hj rfl
    rw [((h.mem_kept j).mp hj).2] at hkept
    cases hkept
  have hmb : ∀ j, j ≠ k → (s.releaseMbuffer k true).mbuffers j = s.mbuffers j := by
    intro j hj
    simp [Phys.releaseMbuffer, hj]
  have hself : (s.releaseMbuffer k true).mbuffers k =
      { s.mbuffers k with age := s.age, resource := { (s.mbuffers k).resource with busy := true } } := by
    simp [Phys.releaseMbuffer]
  have hage : (s.releaseMbuffer k true).age = s.age + 1 := rfl
  have hnext : (s.age + 1).toNat = s.age.toNat + 1 := by
    rw [UInt64.toNat_add, h.age_eq, UInt64.toNat_one, Nat.mod_eq_of_lt hkeeps]
  have hgrow : s.age < s.age + 1 := by
    rw [UInt64.lt_iff_toNat_lt, hnext]
    exact Nat.lt_succ_self _
  refine ⟨fun j => ?_, h.nodup, fun j => ?_, ?_, fun j hj => ?_, ?_⟩
  · by_cases hj : j = k
    · subst hj
      rw [hself, h.mem_inUse]
    · rw [hmb j hj, h.mem_inUse]
  · rw [List.mem_append, List.mem_singleton, h.mem_kept]
    by_cases hj : j = k
    · subst hj
      rw [hself]
      simp [Mbuffer.kept, hk, hu]
    · simp [hj, hmb]
  · refine List.pairwise_append.mpr ⟨?_, List.pairwise_singleton _ _, fun j hj k' hk' => ?_⟩
    · exact h.sorted_congr fun j hj => by rw [hmb j (hne j hj)]
    · rw [List.mem_singleton.mp hk', hmb j (hne j hj), hself]
      exact h.below j hj
  · rw [hage]
    rcases List.mem_append.mp hj with hj | hj
    · rw [hmb j (hne j hj)]
      exact UInt64.lt_trans (h.below j hj) hgrow
    · rw [List.mem_singleton.mp hj, hself]
      exact hgrow
  · rw [hage, hnext, h.age_eq]

theorem discard (h : Agrees F g s) :
    Agrees F { g with inUse := g.inUse.erase k, kept := g.kept.erase k } (s.releaseMbuffer k false) := by
  have hmb : ∀ j, j ≠ k → (s.releaseMbuffer k false).mbuffers j = s.mbuffers j := by
    intro j hj
    simp [Phys.releaseMbuffer, hj]
  have hself : (s.releaseMbuffer k false).mbuffers k = (s.mbuffers k).discarded := by
    simp [Phys.releaseMbuffer]
  have hmem : ∀ j ∈ g.kept.erase k, j ≠ k ∧ j ∈ g.kept := fun j hj => (h.kept_nodup.mem_erase_iff).mp hj
  refine ⟨fun j => ?_, h.nodup.erase k, fun j => ?_, ?_, fun j hj => ?_, h.age_eq⟩
  · rw [h.nodup.mem_erase_iff, h.mem_inUse]
    by_cases hj : j = k
    · subst hj
      simp [hself]
    · simp [hj, hmb]
  · rw [h.kept_nodup.mem_erase_iff, h.mem_kept]
    by_cases hj : j = k
    · subst hj
      simp [hself]
    · simp [hj, hmb]
  · refine (h.sorted.sublist List.erase_sublist).imp_of_mem fun hi hj hlt => ?_
    rwa [hmb _ (hmem _ hi).1, hmb _ (hmem _ hj).1]
  · rw [hmb j (hmem j hj).1]
    exact h.below j (hmem j hj).2

/-- The fields that an owner writes are not those that the pools look at. -/
theorem fill (h : Agrees F g s) (k : ℕ) (latency : UInt64) (actid portid : ℤ) (message : Message) :
    Agrees F g (s.setMbuffer k
      { s.mbuffers k with latency := latency, actid := actid, portid := portid, message := message }) := by
  set t := s.setMbuffer k
    { s.mbuffers k with latency := latency, actid := actid, portid := portid, message := message } with ht
  have hres : ∀ j, (t.mbuffers j).resource = (s.mbuffers j).resource ∧
      (t.mbuffers j).age = (s.mbuffers j).age := by
    intro j
    by_cases hj : j = k
    · subst hj
      simp [ht]
    · simp [ht, hj]
  refine ⟨fun j => ?_, h.nodup, fun j => ?_, ?_, fun j hj => ?_, h.age_eq⟩
  · rw [(hres j).1, h.mem_inUse]
  · rw [Mbuffer.kept, (hres j).1, h.mem_kept, Mbuffer.kept]
  · exact h.sorted_congr fun j _ => (hres j).2
  · rw [(hres j).2]
    exact h.below j hj

/-- A call that keeps a message only where none is kept yet leaves table and ledger in
agreement, as long as the age counter has not come round. -/
theorem step (h : Agrees F g s) {c : PoolCall} {o : PoolAnswer} (hs : poolStep F s c = some (o, t))
    (hkeep : KeepsOnce F s c) (hkeeps : (g.note F ⟨s, c, o, t⟩).keeps < 2 ^ 64) :
    Agrees F (g.note F ⟨s, c, o, t⟩) t := by
  cases c with
  | alloc P =>
    obtain ⟨r, t', hr⟩ : ∃ r t', mbufferAlloc F P s = (r, t') := ⟨_, _, rfl⟩
    simp only [poolStep, hr, Option.some.injEq, Prod.mk.injEq] at hs
    obtain ⟨rfl, rfl⟩ := hs
    cases r with
    | ok i =>
      obtain ⟨hi, hu, rfl⟩ := mbufferAlloc_ok hr
      exact h.alloc (P.index_lt hi) hu
    | error e =>
      obtain ⟨-, rfl, -⟩ := mbufferAlloc_error hr
      exact h
  | release P id keep =>
    obtain ⟨⟨r, t'⟩, hr, hs⟩ := Option.map_eq_some_iff.mp hs
    cases hs
    unfold mbufferRelease at hr
    cases hget : mbufferGet F (some P) id with
    | none => simp [hget] at hr
    | some k =>
      obtain rfl : k = P.base F + id.toNat := mbufferGet_eq hget
      simp only [hget] at hr
      split_ifs at hr with hu
      · simp only [Option.some.injEq, Prod.mk.injEq] at hr
        obtain ⟨rfl, rfl⟩ := hr
        cases keep with
        | true => exact h.keep (mbufferGet_lt hget) hu (hkeep rfl _ hget) hkeeps
        | false => exact h.discard
      · simp only [Option.some.injEq, Prod.mk.injEq] at hr
        obtain ⟨rfl, rfl⟩ := hr
        exact h
  | search P dest src =>
    simp only [poolStep, Option.some.injEq, Prod.mk.injEq] at hs
    obtain ⟨rfl, rfl⟩ := hs
    exact h
  | fill k latency actid portid message =>
    simp only [poolStep, Option.some.injEq, Prod.mk.injEq] at hs
    obtain ⟨rfl, rfl⟩ := hs
    exact h.fill k latency actid portid message

/-- The entry that the search of a pool returns is the first kept one that fits. -/
theorem search_eq (h : Agrees F g s) (P : Pool) (dest src : ℤ) :
    (mbufferSearch F P dest src s).map (P.base F + ·) =
      g.kept.find? fun k => decide (P.Has F k) && fits F dest src (s.mbuffers k) := by
  cases hr : mbufferSearch F P dest src s with
  | none =>
    symm
    rw [Option.map_none, List.find?_eq_none]
    intro k hmem hk
    obtain ⟨hhas, hfits⟩ := Bool.and_eq_true_iff.mp hk
    obtain ⟨hlo, hhi⟩ := of_decide_eq_true hhas
    have hno := mbufferSearch_none.mp hr (k - P.base F) (by omega)
    rw [Nat.add_sub_cancel' hlo, candidate_eq, ((h.mem_kept k).mp hmem).2, hfits] at hno
    cases hno
  | some i =>
    obtain ⟨hi, hc, hmin⟩ := mbufferSearch_some hr
    rw [candidate_eq, Bool.and_eq_true_iff] at hc
    have hsorted : g.kept.Pairwise fun j k => (s.mbuffers j).age.toNat < (s.mbuffers k).age.toNat :=
      h.sorted.imp fun hlt => UInt64.lt_iff_toNat_lt.mp hlt
    symm
    refine find?_eq_some_of_le hsorted ((h.mem_kept _).mpr ⟨P.index_lt hi, hc.1⟩) ?_ ?_
    · simp [Pool.Has, hi, hc.2]
    · intro k hmem hk
      obtain ⟨hhas, hfits⟩ := Bool.and_eq_true_iff.mp hk
      obtain ⟨hlo, hhi⟩ := of_decide_eq_true hhas
      have hle := hmin (k - P.base F) (by omega)
      rw [Nat.add_sub_cancel' hlo, candidate_eq, ((h.mem_kept k).mp hmem).2, hfits] at hle
      exact UInt64.le_iff_toNat_le.mp (hle rfl)

/-- Allocation fails only when the ledger has every entry of the pool in use. -/
theorem alloc_busy_iff (h : Agrees F g s) (P : Pool) :
    (mbufferAlloc F P s).1 = .error .EBUSY ↔ ∀ k, P.Has F k → k ∈ g.inUse := by
  obtain ⟨r, t, hr⟩ : ∃ r t, mbufferAlloc F P s = (r, t) := ⟨_, _, rfl⟩
  rw [hr]
  cases r with
  | ok i =>
    obtain ⟨hi, hu, -⟩ := mbufferAlloc_ok hr
    simp only [reduceCtorEq, false_iff, not_forall]
    refine ⟨P.base F + i, ⟨Nat.le_add_right _ _, by omega⟩, fun hmem => ?_⟩
    rw [((h.mem_inUse _).mp hmem).2] at hu
    cases hu
  | error e =>
    obtain ⟨rfl, -, hall⟩ := mbufferAlloc_error hr
    simp only [true_iff]
    rintro k ⟨hlo, hhi⟩
    have hu := hall (k - P.base F) (by omega)
    have hlt := P.index_lt (F := F) (i := k - P.base F) (by omega)
    rw [Nat.add_sub_cancel' hlo] at hu hlt
    exact (h.mem_inUse k).mpr ⟨hlt, hu⟩

end Ledger.Agrees

/-! ### Runs -/

/-- Runs of calls on the pools from the initialised tables, in which no message is kept twice. -/
structure PoolRun (F : Facility) (s : Phys) (tr : List (Event Phys PoolCall PoolAnswer)) (u : Phys) :
    Prop where
  run : Run (fun s c o t => poolStep F s c = some (o, t)) s tr u
  fresh : Fresh F s
  keepsOnce : ∀ e ∈ tr, KeepsOnce F e.pre e.act

variable {s u : Phys} {tr l r : List (Event Phys PoolCall PoolAnswer)} {e : Event Phys PoolCall PoolAnswer}

theorem PoolRun.agrees (h : PoolRun F s tr u) (hkeeps : (Ledger.of F tr).keeps < 2 ^ 64) :
    (Ledger.of F tr).Agrees F u := by
  have hrun := Run.history (Ledger.note F) (P := fun _ e => KeepsOnce F e.pre e.act)
    (J := fun g s => g.keeps < 2 ^ 64 → g.Agrees F s) h.run (fun _ => .fresh h.fresh)
    (fun l e r htr => h.keepsOnce e (by rw [htr]; simp))
    (fun g e hs hk hJ hlt => (hJ (Nat.lt_of_le_of_lt (g.keeps_le_note e) hlt)).step hs hk hlt)
  exact hrun hkeeps

theorem PoolRun.at_event (h : PoolRun F s (l ++ e :: r) u) : PoolRun F s l e.pre where
  run := h.run.at_event.1
  fresh := h.fresh
  keepsOnce x hx := h.keepsOnce x (List.mem_append_left _ hx)

theorem Ledger.keeps_le_append (l r : List (Event Phys PoolCall PoolAnswer)) :
    (Ledger.of F l).keeps ≤ (Ledger.of F (l ++ r)).keeps := by
  rw [Ledger.of, Ledger.of, List.foldl_append]
  exact Ledger.keeps_le_foldl _ r

/-- What the calls of a run on the two pools do, told by the ledger of the calls before. An
allocation returns an entry of its pool that is not in use, and fails exactly when the pool has
none. The kept messages have distinct ages below the counter. A search returns the first kept
message of its pool that fits, and fails exactly when there is none. -/
theorem overlapping_pools (h : PoolRun F s tr u) (hkeeps : (Ledger.of F tr).keeps < 2 ^ 64 - 1) :
    (∀ j < F.mbufferMax, ∀ k < F.mbufferMax, (u.mbuffers j).kept = true → (u.mbuffers k).kept = true →
      (u.mbuffers j).age < u.age ∧ ((u.mbuffers j).age = (u.mbuffers k).age → j = k)) ∧
    ∀ l e r, tr = l ++ e :: r →
      (∀ P o, e.act = .alloc P → e.out = .allocated o →
        (∀ i, o = .ok i → P.Has F (P.base F + i) ∧ P.base F + i ∉ (Ledger.of F l).inUse) ∧
        (o = .error .EBUSY ↔ ∀ k, P.Has F k → k ∈ (Ledger.of F l).inUse)) ∧
      (∀ P dest src o, e.act = .search P dest src → e.out = .found o →
        o.map (P.base F + ·) =
          (Ledger.of F l).kept.find? fun k => decide (P.Has F k) &&
            fits F dest src (e.pre.mbuffers k)) := by
  have hend := h.agrees (Nat.lt_of_lt_of_le hkeeps (Nat.sub_le _ _))
  refine ⟨fun j hj k hk hkj hkk => ?_, ?_⟩
  · have hmemj := (hend.mem_kept j).mpr ⟨hj, hkj⟩
    have hmemk := (hend.mem_kept k).mpr ⟨hk, hkk⟩
    refine ⟨hend.below j hmemj, fun hage => ?_⟩
    by_contra hne
    exact hend.ages_ne hmemj hmemk hne hage
  · rintro l e r rfl
    have hpre : (Ledger.of F l).keeps < 2 ^ 64 := by
      have := Ledger.keeps_le_append (F := F) l (e :: r)
      omega
    have hag := h.at_event.agrees hpre
    have hstep := h.run.at_event.2.1
    refine ⟨fun P o hact hout => ?_, fun P dest src o hact hout => ?_⟩
    · simp only [hact, hout, poolStep, Option.some.injEq, Prod.mk.injEq,
        PoolAnswer.allocated.injEq] at hstep
      rw [← hstep.1]
      refine ⟨fun i hi => ?_, hag.alloc_busy_iff P⟩
      obtain ⟨hlt, hu, -⟩ := mbufferAlloc_ok (Prod.ext hi rfl)
      refine ⟨⟨Nat.le_add_right _ _, Nat.add_lt_add_left hlt _⟩, fun hmem => ?_⟩
      rw [((hag.mem_inUse _).mp hmem).2] at hu
      cases hu
    · simp only [hact, hout, poolStep, Option.some.injEq, Prod.mk.injEq,
        PoolAnswer.found.injEq] at hstep
      rw [← hstep.1]
      exact hag.search_eq P dest src

/-- A message kept through the auxiliary pool is found before one that was kept later at a smaller
index. -/
theorem overlapping_pools_aux_first :
    ∃ tr u, PoolRun quadMailbox quadBoot tr u ∧ (Ledger.of quadMailbox tr).kept = [16, 0] ∧
      (∃ e ∈ tr, e.out = .found (some 16)) ∧
      (∀ j < 32, ∀ k < 32, (u.mbuffers j).kept = true → (u.mbuffers k).kept = true →
        (u.mbuffers j).age < u.age ∧ ((u.mbuffers j).age = (u.mbuffers k).age → j = k)) := by
  obtain ⟨tr, u, hrun, -, hkeep, hled, hfound⟩ := exists_run_of_exec
    (f := fun s c => poolStep quadMailbox s c) (s := quadBoot)
    [.alloc .principal, .alloc .aux, .fill 0 0 (-1) (-1) { header := { dest := 5, src := 7 } },
      .fill 16 0 (-1) (-1) { header := { dest := 5, src := 7 } }, .release .aux 0 true,
      .release .principal 0 true, .search .principal 5 (-1)]
    (fun r => (∀ e ∈ r.1, KeepsOnce quadMailbox e.pre e.act) ∧
      ((Ledger.of quadMailbox r.1).kept = [16, 0] ∧ (Ledger.of quadMailbox r.1).keeps = 2) ∧
      ∃ e ∈ r.1, e.out = .found (some 16)) (by decide +kernel)
  have hpools : PoolRun quadMailbox quadBoot tr u := ⟨hrun, quadBoot_boot.fresh, hkeep⟩
  exact ⟨tr, u, hpools, hled.1, hfound, (overlapping_pools hpools (by rw [hled.2]; decide)).1⟩

end Nanvix.Noc
