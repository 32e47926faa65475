import Mathlib.Logic.Function.Basic
import Mathlib.Tactic.Common

/-! Tables in two levels: a directory tells for an index which table to look into, if there is
one. A write to a table is seen through the directory entries that lead to it. -/

namespace Nanvix.Lib.TwoLevel

variable {ι κ J V : Type*}

def lookup (dir : ι → Option κ) (tab : κ → J → Option V) (i : ι) (j : J) : Option V :=
  (dir i).bind fun k => tab k j

variable {dir : ι → Option κ} {tab tab' : κ → J → Option V} {i i' : ι} {j j' : J} {k : κ}

theorem lookup_of_some (h : dir i = some k) : lookup dir tab i j = tab k j := by
  rw [lookup, h, Option.bind_some]

theorem lookup_of_none (h : dir i = none) : lookup dir tab i j = none := by
  rw [lookup, h, Option.bind_none]

/-- What is written to other tables is not seen. -/
theorem lookup_congr (h : ∀ k, dir i = some k → tab' k j = tab k j) :
    lookup dir tab' i j = lookup dir tab i j := by
  cases hd : dir i with
  | none => rw [lookup_of_none hd, lookup_of_none hd]
  | some k => rw [lookup_of_some hd, lookup_of_some hd, h k hd]

variable [DecidableEq ι] [DecidableEq J] {dir' : ι → Option κ} {x : Option V}

/-- One entry of one table is set, whether or not the table comes or goes with it. The tables
of other directory entries are seen as they were. -/
theorem lookup_set (hdir : i' ≠ i → dir' i' = dir i')
    (htab : i' ≠ i → ∀ k, dir i' = some k → tab' k j' = tab k j')
    (hown : lookup dir' tab' i j' = if j' = j then x else lookup dir tab i j') :
    lookup dir' tab' i' j' = if i' = i ∧ j' = j then x else lookup dir tab i' j' := by
  by_cases hi : i' = i
  · subst hi
    rw [hown]
    simp only [true_and]
  · rw [if_neg fun h => hi h.1, lookup, hdir hi]
    exact lookup_congr (htab hi)

end Nanvix.Lib.TwoLevel
