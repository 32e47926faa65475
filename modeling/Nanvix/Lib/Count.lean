import Mathlib.Logic.Function.Basic
import Mathlib.Tactic.Common

/-! How many entries of a table have a property, and what an update of one entry
does to that number. -/

namespace Nanvix.Lib

open Function

variable {α : Type*} {P Q : α → Bool} {f g : ℕ → α} {i n : ℕ}

/-- The number of the first `n` entries of a table that satisfy `P`. -/
def tally (P : α → Bool) (f : ℕ → α) (n : ℕ) : ℕ := (List.range n).countP fun i => P (f i)

theorem tally_succ (P : α → Bool) (f : ℕ → α) (n : ℕ) :
    tally P f (n + 1) = tally P f n + if P (f n) then 1 else 0 := by
  rw [tally, List.range_succ, List.countP_append, List.countP_singleton, tally]

theorem tally_congr (h : ∀ i < n, P (f i) = Q (g i)) : tally P f n = tally Q g n := by
  apply List.countP_congr
  intro i hi
  rw [h i (List.mem_range.mp hi)]

theorem tally_le (P : α → Bool) (f : ℕ → α) (n : ℕ) : tally P f n ≤ n := by
  have hle := List.countP_le_length (p := fun i => P (f i)) (l := List.range n)
  rwa [List.length_range] at hle

theorem tally_pos : 0 < tally P f n ↔ ∃ i < n, P (f i) = true := by
  simp [tally, List.countP_pos_iff]

/-- Updating one entry moves the number by that entry alone. -/
theorem tally_update (P : α → Bool) (f : ℕ → α) (x : α) (hi : i < n) :
    tally P (update f i x) n + (if P (f i) then 1 else 0) =
      tally P f n + if P x then 1 else 0 := by
  induction n with
  | zero => omega
  | succ n ih =>
    rw [tally_succ, tally_succ]
    by_cases hn : i = n
    · subst hn
      have hsame : tally P (update f i x) i = tally P f i := by
        apply tally_congr
        intro j hj
        rw [update_of_ne (by omega)]
      rw [hsame, update_self]
      omega
    · have := ih (by omega)
      rw [update_of_ne (by omega : n ≠ i)]
      omega

theorem tally_update_same {x : α} (h : P x = P (f i)) :
    tally P (update f i x) n = tally P f n := by
  apply tally_congr
  intro j _
  by_cases hj : j = i
  · subst hj
    rw [update_self, h]
  · rw [update_of_ne hj]

end Nanvix.Lib
