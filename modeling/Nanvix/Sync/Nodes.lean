import Nanvix.Sync.Vsync

/-! The node lists of synchronisation points. `sync_nodelist_is_valid` collects the nodes of a list
in a 64-bit word, which tells it of a node that comes twice and in the end whether the local node is
there. It answers with the bit of the local node as an `int`: on a node whose number is 32 or more
the bit is lost, and no list is valid. -/

namespace Nanvix.Sync

open Nanvix.Lib
open Nanvix.Noc (Err)

variable {T : Target} {nodes : List ℤ} {one : Bool}

/-- The lists that `sync_nodelist_is_valid` is to accept. -/
structure ValidList (T : Target) (nodes : List ℤ) (one : Bool) : Prop where
  range : ∀ n ∈ nodes, 0 ≤ n ∧ n < T.nodesNum
  distinct : nodes.Nodup
  local_mem : (T.node : ℤ) ∈ nodes
  first : nodes.head? = some (T.node : ℤ) ↔ one = true

/-- The loop lets a list pass whose nodes are in range, distinct and not seen before, and has then
seen these as well. -/
theorem checkNodes_eq_some_iff (hT : T.nodesNum ≤ 64) {checks c : BitVec 64} :
    checkNodes T checks nodes = some c ↔ (∀ n ∈ nodes, 0 ≤ n ∧ n < T.nodesNum) ∧ nodes.Nodup ∧
      (∀ n ∈ nodes, checks.getLsbD n.toNat = false) ∧ c = setBits checks nodes := by
  induction nodes generalizing checks with
  | nil =>
    simp only [checkNodes, setBits, List.foldl_nil, List.not_mem_nil, false_implies, implies_true,
      List.nodup_nil, true_and, Option.some.injEq]
    exact eq_comm
  | cons n ns ih =>
    unfold checkNodes
    by_cases hn : 0 ≤ n ∧ n < T.nodesNum
    · have hfit : 0 ≤ n ∧ n < (64 : ℕ) := by omega
      rw [if_neg (not_not.mpr hn)]
      by_cases hseen : checks.getLsbD n.toNat = true
      · rw [if_pos ((and_bitAt_ne_zero_iff hfit checks).mpr hseen)]
        simp [hseen]
      · rw [if_neg (mt (and_bitAt_ne_zero_iff hfit checks).mp hseen), ih]
        -- the bit of `n` is new exactly for the nodes other than `n`
        have hbit : ∀ m : ℤ, 0 ≤ m → ((checks ||| bitAt 64 n).getLsbD m.toNat = false ↔
            checks.getLsbD m.toNat = false ∧ m ≠ n) := by
          intro m hm
          rw [BitVec.getLsbD_or, getLsbD_bitAt hfit, Int.toNat_of_nonneg hm]
          simp
        have hset : setBits (checks ||| bitAt 64 n) ns = setBits checks (n :: ns) := rfl
        rw [hset]
        simp only [List.forall_mem_cons, List.nodup_cons]
        constructor
        · rintro ⟨hr, hd, hs, rfl⟩
          refine ⟨⟨hn, hr⟩, ⟨?_, hd⟩, ⟨by simpa using hseen, ?_⟩, rfl⟩
          · intro hmem
            exact ((hbit n hn.1).mp (hs n hmem)).2 rfl
          · intro m hm
            exact ((hbit m (hr m hm).1).mp (hs m hm)).1
        · rintro ⟨⟨-, hr⟩, ⟨hnot, hd⟩, ⟨-, hs⟩, rfl⟩
          refine ⟨hr, hd, fun m hm => ?_, rfl⟩
          exact (hbit m (hr m hm).1).mpr ⟨hs m hm, fun heq => hnot (heq ▸ hm)⟩
    · rw [if_pos hn]
      simp [hn]

/-- What `sync_nodelist_is_valid` tests: the place of the local node, and the loop with the word that
it leaves. -/
theorem nodelistIsValid_ne_zero_iff :
    nodelistIsValid T nodes one ≠ 0 ↔ (nodes.headD 0 = T.node ↔ one = true) ∧
      ∃ c, checkNodes T 0#64 nodes = some c ∧ (c &&& bitAt 64 T.node).setWidth 32 ≠ 0#32 := by
  unfold nodelistIsValid
  by_cases hfirst : nodes.headD 0 = T.node ↔ one = true
  · rw [if_neg (by cases one <;> simp_all), if_neg (by cases one <;> simp_all)]
    cases checkNodes T 0#64 nodes with
    | none => simp
    | some c => exact ⟨fun h => ⟨hfirst, c, rfl, h⟩, fun ⟨_, d, hd, h⟩ => by cases hd; exact h⟩
  · refine iff_of_false ?_ fun h => hfirst h.1
    rw [not_not]
    cases one
    · rw [if_neg (by simp), if_pos (by simp_all)]
    · rw [if_pos (by simp_all)]

theorem headD_iff_head? {m : ℤ} (hm : m ∈ nodes) : nodes.headD 0 = m ↔ nodes.head? = some m := by
  cases nodes with
  | nil => cases hm
  | cons n ns => simp

/-- The answer is the bit of the local node, as far as an `int` has it. -/
theorem nodelistIsValid_iff (hT : T.nodesNum ≤ 64) :
    nodelistIsValid T nodes one ≠ 0 ↔ ValidList T nodes one ∧ T.node < 32 := by
  rw [nodelistIsValid_ne_zero_iff]
  -- the word left by the loop has the bits of the list
  have hword : (∀ n ∈ nodes, 0 ≤ n ∧ n < T.nodesNum) →
      ((setBits 0#64 nodes &&& bitAt 64 T.node).setWidth 32 ≠ 0#32 ↔
        (T.node : ℤ) ∈ nodes ∧ T.node < 32) := by
    intro hr
    have hfit : Fits 64 nodes := fun n hn => by have := hr n hn; omega
    by_cases hnode : T.node < 64
    · rw [setWidth_and_bitAt_ne_zero_iff (by omega), getLsbD_setBits hfit, BitVec.getLsbD_zero, Bool.false_or,
        Int.toNat_natCast, decide_eq_true_eq]
      exact and_congr_right fun _ => by omega
    · have hzero : bitAt 64 T.node = 0#64 := BitVec.shiftLeft_eq_zero (by omega)
      simp only [hzero, BitVec.and_zero, BitVec.setWidth_zero, ne_eq, not_true_eq_false, false_iff]
      omega
  constructor
  · rintro ⟨hfirst, c, hc, hbit⟩
    obtain ⟨hr, hd, -, rfl⟩ := (checkNodes_eq_some_iff hT).mp hc
    obtain ⟨hmem, hlt⟩ := (hword hr).mp hbit
    exact ⟨⟨hr, hd, hmem, (headD_iff_head? hmem).symm.trans hfirst⟩, hlt⟩
  · rintro ⟨h, hlt⟩
    refine ⟨(headD_iff_head? h.local_mem).trans h.first, setBits 0#64 nodes, ?_,
      (hword h.range).mpr ⟨h.local_mem, hlt⟩⟩
    exact (checkNodes_eq_some_iff hT).mpr ⟨h.range, h.distinct, by simp, rfl⟩

theorem fits_of_valid (hT : T.nodesNum ≤ 64) (h : nodelistIsValid T nodes one ≠ 0) : Fits 64 nodes := by
  intro n hn
  have := ((nodelistIsValid_iff hT).mp h).1.range n hn
  omega

/-! ### The kernel calls -/

/-- What `kernel_sync_create` and `kernel_sync_open` check of their arguments; the local node is the
one in the mode `one`. -/
def kernelSyncCheck (T : Target) (addr : ℕ) (nodes : List ℤ) (mode : Option Mode) (one : Mode) :
    Except Err Mode :=
  if addr = 0 then .error .EINVAL
  else if ¬ (2 ≤ nodes.length ∧ nodes.length < T.nodesNum + 1) then .error .EINVAL
  else
    match mode with
    | none => .error .EINVAL
    | some mode =>
      if !T.mmCheckArea addr (4 * nodes.length) then .error .EFAULT
      else if nodelistIsValid T nodes (decide (mode = one)) = 0 then .error .EINVAL
      else .ok mode

/-- `kernel_sync_create` with the list `nodes` at `addr`; another type than the two modes is `none`. -/
def kernelSyncCreate (T : Target) (s : Vsync) (addr : ℕ) (nodes : List ℤ) (mode : Option Mode) (hw : ℤ) :
    Except Err ℕ × Vsync :=
  match kernelSyncCheck T addr nodes mode .allToOne with
  | .error e => (.error e, s)
  | .ok mode => doVsyncCreate T s nodes mode hw

def kernelSyncOpen (T : Target) (s : Vsync) (addr : ℕ) (nodes : List ℤ) (mode : Option Mode) (hw : ℤ) :
    Except Err ℕ × Vsync :=
  match kernelSyncCheck T addr nodes mode .oneToAll with
  | .error e => (.error e, s)
  | .ok mode => doVsyncOpen T s nodes mode hw

theorem kernelSyncCheck_ok {addr : ℕ} {mode : Option Mode} {m one : Mode}
    (h : kernelSyncCheck T addr nodes mode one = .ok m) :
    mode = some m ∧ nodelistIsValid T nodes (decide (m = one)) ≠ 0 := by
  unfold kernelSyncCheck at h
  split at h
  · cases h
  split at h
  · cases h
  cases mode with
  | none => cases h
  | some mode =>
    dsimp only at h
    split at h
    · cases h
    split at h
    · cases h
    rename_i hv
    cases h
    exact ⟨rfl, hv⟩

/-- On a node with a number of 32 or more nobody gets a synchronisation point. -/
theorem kernel_sync_refused (hT : T.nodesNum ≤ 64) (hnode : 32 ≤ T.node) (s : Vsync) (addr : ℕ)
    (nodes : List ℤ) (mode : Option Mode) (hw : ℤ) :
    (∃ e, kernelSyncCreate T s addr nodes mode hw = (.error e, s)) ∧
      ∃ e, kernelSyncOpen T s addr nodes mode hw = (.error e, s) := by
  have hcheck : ∀ one, ∃ e, kernelSyncCheck T addr nodes mode one = .error e := by
    intro one
    cases h : kernelSyncCheck T addr nodes mode one with
    | error e => exact ⟨e, rfl⟩
    | ok m =>
      have := ((nodelistIsValid_iff hT).mp (kernelSyncCheck_ok h).2).2
      omega
  obtain ⟨e, he⟩ := hcheck .allToOne
  obtain ⟨e', he'⟩ := hcheck .oneToAll
  exact ⟨⟨e, by rw [kernelSyncCreate, he]⟩, e', by rw [kernelSyncOpen, he']⟩

/-- `sync_nodelist_is_valid` decides whether a list is valid exactly if the number of the local node
is below 32 or the list is not valid. -/
theorem nodelistIsValid_decides_iff (hT : T.nodesNum ≤ 64) (nodes : List ℤ) (one : Bool) :
    (nodelistIsValid T nodes one ≠ 0 ↔ ValidList T nodes one) ↔
      (T.node < 32 ∨ ¬ ValidList T nodes one) := by
  rw [nodelistIsValid_iff hT]
  tauto

/-- A target with 64 nodes. -/
def largeTarget (node : ℕ) : Target where
  createMax := 1
  openMax := 1
  nodesNum := 64
  node := node
  mmCheckArea := fun _ _ => true

/-- On node 31 the list of the nodes 31 and 40 is valid, and found to be. -/
theorem nodelistIsValid_decides_low :
    nodelistIsValid (largeTarget 31) [31, 40] true ≠ 0 ∧ ValidList (largeTarget 31) [31, 40] true := by
  have h : nodelistIsValid (largeTarget 31) [31, 40] true ≠ 0 := by decide
  exact ⟨h, ((nodelistIsValid_decides_iff (T := largeTarget 31) (by decide) [31, 40] true).mpr
    (.inl (by decide))).mp h⟩

/-- On node 40 the same nodes are a valid list, but its bit is not in the low half of the word. -/
theorem not_nodelistIsValid_decides :
    ValidList (largeTarget 40) [40, 31] true ∧ nodelistIsValid (largeTarget 40) [40, 31] true = 0 :=
  ⟨⟨by decide, by decide, by decide, by decide⟩, by decide⟩

end Nanvix.Sync
