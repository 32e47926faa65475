import Mathlib.Data.List.Nodup
import Mathlib.Data.List.Perm.Subperm
import Mathlib.Logic.Function.Basic
import Mathlib.Tactic.Common

/-! Lists that are threaded through the elements themselves: `f i` is the link of the
element `i`. What is known of such a list is which elements a walk from its head
visits, and the walk reads the links of those elements only. -/

namespace Nanvix.Lib

open Function

variable {f g : ℕ → Option ℕ} {h : Option ℕ} {q r : List ℕ} {i j : ℕ}

/-- A walk from `h` along the links visits the elements of `q` and ends. -/
def Linked (f : ℕ → Option ℕ) : Option ℕ → List ℕ → Prop
  | h, [] => h = none
  | h, i :: q => h = some i ∧ Linked f (f i) q

namespace Linked

theorem head_eq (hl : Linked f h (i :: q)) : h = some i := hl.1

theorem tail (hl : Linked f h (i :: q)) : Linked f (f i) q := hl.2

theorem congr (hl : Linked f h q) (hfg : ∀ i ∈ q, g i = f i) : Linked g h q := by
  induction q generalizing h with
  | nil => exact hl
  | cons i q ih =>
    refine ⟨hl.1, ?_⟩
    rw [hfg i (List.mem_cons_self ..)]
    exact ih hl.2 fun j hj => hfg j (List.mem_cons_of_mem _ hj)

/-- The link of an element outside the list does not matter. -/
theorem update (hl : Linked f h q) (hi : i ∉ q) (x : Option ℕ) :
    Linked (Function.update f i x) h q := by
  apply hl.congr
  intro j hj
  exact update_of_ne (ne_of_mem_of_not_mem hj hi) _ _

theorem unique (hq : Linked f h q) (hr : Linked f h r) : q = r := by
  induction q generalizing h r with
  | nil =>
    cases r with
    | nil => rfl
    | cons j r => exact absurd (hq.symm.trans hr.1) (by simp)
  | cons i q ih =>
    cases r with
    | nil => exact absurd (hr.symm.trans hq.1) (by simp)
    | cons j r =>
      obtain rfl : i = j := Option.some.inj (hq.1.symm.trans hr.1)
      rw [ih hq.2 hr.2]

/-- A link of the list leads to an element of the list. -/
theorem next_mem (hl : Linked f h q) (hi : i ∈ q) (hj : f i = some j) : j ∈ q := by
  induction q generalizing h with
  | nil => cases hi
  | cons k q ih =>
    rcases List.mem_cons.mp hi with rfl | hi
    · have htail := hl.tail
      rw [hj] at htail
      cases q with
      | nil => exact absurd htail (by simp [Linked])
      | cons m q =>
        rw [Option.some.inj htail.head_eq]
        exact List.mem_cons_of_mem _ (List.mem_cons_self ..)
    · exact List.mem_cons_of_mem _ (ih hl.tail hi)

/-- An element put in front. -/
theorem push_front (hl : Linked f h q) (hi : i ∉ q) : Linked (Function.update f i h) (some i) (i :: q) := by
  refine ⟨rfl, ?_⟩
  rw [update_self]
  exact hl.update hi h

/-- An element put at the end: the link of the last element is set to it, and its own is
cleared. -/
theorem push_back (hl : Linked f h q) (hi : i ∉ q) (hq : q ≠ []) (hd : q.Nodup) :
    Linked (Function.update (Function.update f (q.getLast hq) (some i)) i none) h (q ++ [i]) := by
  induction q generalizing h with
  | nil => exact absurd rfl hq
  | cons j q ih =>
    refine ⟨hl.1, ?_⟩
    have hij : j ≠ i := fun hji => hi (hji ▸ List.mem_cons_self ..)
    rw [update_of_ne hij]
    cases q with
    | nil =>
      rw [List.getLast_singleton, update_self]
      exact ⟨rfl, update_self ..⟩
    | cons k q =>
      have hj : j ∉ k :: q := (List.nodup_cons.mp hd).1
      rw [List.getLast_cons (by simp), update_of_ne]
      · exact ih hl.2 (fun hm => hi (List.mem_cons_of_mem _ hm)) (by simp) (List.nodup_cons.mp hd).2
      · exact fun hje => hj (hje ▸ List.getLast_mem _)

end Linked

/-- The elements that a walk from `h` visits, if it ends within `n` of them. -/
def walk (f : ℕ → Option ℕ) : ℕ → Option ℕ → Option (List ℕ)
  | _, none => some []
  | 0, some _ => none
  | n + 1, some i => (walk f n (f i)).map (i :: ·)

theorem Linked.walk {n : ℕ} (hl : Linked f h q) (hn : q.length ≤ n) : Lib.walk f n h = some q := by
  induction q generalizing h n with
  | nil =>
    obtain rfl : h = none := hl
    cases n <;> rfl
  | cons i q ih =>
    obtain rfl := hl.1
    cases n with
    | zero => simp at hn
    | succ n =>
      rw [Lib.walk, ih hl.2 (by simpa using hn)]
      rfl

/-- A list of distinct numbers below `n` has at most `n` elements. -/
theorem length_le_of_nodup {n : ℕ} (hd : q.Nodup) (hq : ∀ i ∈ q, i < n) : q.length ≤ n := by
  have hsub : q ⊆ List.range n := fun i hi => List.mem_range.mpr (hq i hi)
  simpa using (List.subperm_of_subset hd hsub).length_le

end Nanvix.Lib
