import Mathlib.Data.List.Basic
import Mathlib.Logic.Function.Basic
import Mathlib.Tactic.Common

/-! Bitmaps: words of `w` bits each, where bit `i` of the bitmap is bit `i % w` of word `i / w`. -/

namespace Nanvix.Lib

open Function

/-- A bitmap. How many of its words there are is up to its user. -/
structure Bitmap (w : ℕ) where
  words : ℕ → BitVec w

namespace Bitmap

variable {w : ℕ} (m : Bitmap w)

def check (i : ℕ) : Bool := (m.words (i / w)).getLsbD (i % w)

def store (k : ℕ) (v : BitVec w) : Bitmap w := ⟨update m.words k v⟩

def set (i : ℕ) : Bitmap w := m.store (i / w) (m.words (i / w) ||| BitVec.twoPow w (i % w))

def clear (i : ℕ) : Bitmap w := m.store (i / w) (m.words (i / w) &&& ~~~ BitVec.twoPow w (i % w))

/-- The lowest bit of the first `len` words that is clear. -/
def firstFree (len : ℕ) : Option ℕ := (List.range (len * w)).find? fun i => !m.check i

def empty (w : ℕ) : Bitmap w := ⟨fun _ => 0#w⟩

variable {m} {i j len : ℕ}

@[simp] theorem check_empty (i : ℕ) : (empty w).check i = false := by simp [check, empty]

/-- Writing a word that differs from the old one in the place of bit `i` changes that bit alone. -/
theorem check_store {v : BitVec w} {b : Bool} (hw : 0 < w)
    (hv : ∀ k < w, v.getLsbD k = if k = i % w then b else (m.words (i / w)).getLsbD k) :
    (m.store (i / w) v).check j = if j = i then b else m.check j := by
  unfold check store
  by_cases hd : j / w = i / w
  · rw [hd]
    dsimp only
    rw [update_self, hv _ (Nat.mod_lt j hw)]
    have heq : j % w = i % w ↔ j = i := by
      refine ⟨fun hm => ?_, fun h => by rw [h]⟩
      rw [← Nat.div_add_mod j w, ← Nat.div_add_mod i w, hd, hm]
    simp only [heq]
  · have hji : j ≠ i := fun h => hd (by rw [h])
    dsimp only
    rw [update_of_ne hd, if_neg hji]

@[simp] theorem check_set (hw : 0 < w) : (m.set i).check j = if j = i then true else m.check j := by
  refine check_store hw fun k hk => ?_
  rw [BitVec.getLsbD_or, BitVec.getLsbD_twoPow]
  by_cases h : k = i % w
  · simp [← h, hk]
  · simp [h, Ne.symm h]

@[simp] theorem check_clear (hw : 0 < w) : (m.clear i).check j = if j = i then false else m.check j := by
  refine check_store hw fun k hk => ?_
  rw [BitVec.getLsbD_and, BitVec.getLsbD_not, BitVec.getLsbD_twoPow]
  by_cases h : k = i % w
  · simp [← h, hk]
  · simp [h, Ne.symm h, hk]

theorem firstFree_eq_some (h : m.firstFree len = some i) : i < len * w ∧ m.check i = false := by
  obtain ⟨hfree, hlt, -⟩ := List.find?_range_eq_some.mp h
  exact ⟨List.mem_range.mp hlt, by simpa using hfree⟩

theorem firstFree_eq_none (h : m.firstFree len = none) (hi : i < len * w) : m.check i = true := by
  simpa using List.find?_eq_none.mp h i (List.mem_range.mpr hi)

end Bitmap

end Nanvix.Lib
