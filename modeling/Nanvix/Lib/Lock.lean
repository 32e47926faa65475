import Mathlib.Logic.Function.Basic
import Mathlib.Tactic.Common

/-! A lock and those who hold it. Whether somebody holds the lock is read off from where it is
in its code, and the lock is taken exactly if somebody does. -/

namespace Nanvix.Lib

open Function

variable {α : Type*} {lock : Bool} {h : α → Bool} {t : α}

/-- One holder at a time, and the lock tells whether there is one. -/
structure Excludes (lock : Bool) (h : α → Bool) : Prop where
  held : lock = true ↔ ∃ t, h t = true
  unique : ∀ {t u}, h t = true → h u = true → t = u

namespace Excludes

theorem free : Excludes false fun _ : α => false where
  held := by simp
  unique ht := absurd ht (by simp)

theorem not_held (hx : Excludes false h) (t : α) : h t = false := by
  rw [Bool.eq_false_iff]
  intro ht
  have := hx.held.mpr ⟨t, ht⟩
  cases this

variable [DecidableEq α]

theorem acquire (hx : Excludes false h) (t : α) : Excludes true (update h t true) where
  held := iff_of_true rfl ⟨t, update_self ..⟩
  unique {u v} hu hv := by
    have only : ∀ {u}, update h t true u = true → u = t := by
      intro u hu
      by_contra hne
      rw [update_of_ne hne, hx.not_held] at hu
      cases hu
    rw [only hu, only hv]

theorem release (hx : Excludes lock h) (ht : h t = true) : Excludes false (update h t false) := by
  have none : ∀ u, update h t false u = false := by
    intro u
    by_cases hu : u = t
    · rw [hu, update_self]
    · rw [update_of_ne hu, Bool.eq_false_iff]
      exact fun hh => hu (hx.unique hh ht)
  refine ⟨iff_of_false (by simp) ?_, ?_⟩
  · rintro ⟨u, hu⟩
    rw [none] at hu
    cases hu
  · intro u v hu
    rw [none] at hu
    cases hu

/-- Whoever moves without taking or releasing the lock. -/
theorem keep {b : Bool} (hx : Excludes lock h) (hb : b = h t) : Excludes lock (update h t b) := by
  rw [hb, update_eq_self]
  exact hx

end Excludes

end Nanvix.Lib
