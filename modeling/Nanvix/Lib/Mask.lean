import Mathlib.Data.Int.Order.Basic
import Mathlib.Data.List.Basic
import Mathlib.Tactic.Common

/-! Sets of small numbers as the bits of a word. A list of numbers is collapsed to the word that
has their bits set; among numbers below the width, the word tells which of them were in the
list and nothing else. -/

namespace Nanvix.Lib

variable {w : ℕ} {l l' : List ℤ} {n : ℤ}

/-- The word with the single bit `n`. -/
def bitAt (w : ℕ) (n : ℤ) : BitVec w := 1#w <<< n.toNat

/-- The word with the bits of `l` set, on top of those of `acc`. -/
def setBits (acc : BitVec w) (l : List ℤ) : BitVec w := l.foldl (fun m n => m ||| bitAt w n) acc

/-- The numbers of a list are bit positions. -/
def Fits (w : ℕ) (l : List ℤ) : Prop := ∀ n ∈ l, 0 ≤ n ∧ n < w

theorem getLsbD_bitAt (hn : 0 ≤ n ∧ n < w) (i : ℕ) : (bitAt w n).getLsbD i = decide ((i : ℤ) = n) := by
  unfold bitAt
  rw [BitVec.getLsbD_shiftLeft, BitVec.getLsbD_one, Bool.eq_iff_iff]
  simp only [Bool.and_eq_true, decide_eq_true_eq, Bool.not_eq_true', decide_eq_false_iff_not]
  omega

/-- Masking a word with a single bit and keeping the low `v` bits tells whether the word has the bit
and whether it is among those kept. -/
theorem setWidth_and_bitAt_ne_zero_iff {v : ℕ} (hn : 0 ≤ n ∧ n < w) (m : BitVec w) :
    (m &&& bitAt w n).setWidth v ≠ 0#v ↔ m.getLsbD n.toNat = true ∧ n < v := by
  have hbit : ∀ i, ((m &&& bitAt w n).setWidth v).getLsbD i =
      (decide (i < v) && (m.getLsbD i && decide ((i : ℤ) = n))) := by
    intro i
    rw [BitVec.getLsbD_setWidth, BitVec.getLsbD_and, getLsbD_bitAt hn]
  constructor
  · contrapose!
    intro hout
    apply BitVec.eq_of_getLsbD_eq
    intro i hi
    rw [hbit i, BitVec.getLsbD_zero]
    by_cases hin : (i : ℤ) = n
    · subst hin
      have : m.getLsbD i ≠ true := fun hm => absurd (hout hm) (by omega)
      simp [this]
    · simp [hin]
  · rintro ⟨hm, hv⟩ hzero
    have := hbit n.toNat
    rw [hzero, BitVec.getLsbD_zero, hm] at this
    simp at this
    omega

theorem and_bitAt_ne_zero_iff (hn : 0 ≤ n ∧ n < w) (m : BitVec w) :
    m &&& bitAt w n ≠ 0#w ↔ m.getLsbD n.toNat = true := by
  rw [← BitVec.setWidth_eq (m &&& bitAt w n), setWidth_and_bitAt_ne_zero_iff hn]
  exact and_iff_left hn.2

theorem getLsbD_setBits (hl : Fits w l) (acc : BitVec w) (i : ℕ) :
    (setBits acc l).getLsbD i = (acc.getLsbD i || decide ((i : ℤ) ∈ l)) := by
  induction l generalizing acc with
  | nil => simp [setBits]
  | cons n l ih =>
    have hn := hl n List.mem_cons_self
    have hrest := ih (fun m hm => hl m (List.mem_cons_of_mem n hm)) (acc ||| bitAt w n)
    rw [setBits, List.foldl_cons]
    rw [setBits] at hrest
    rw [hrest, BitVec.getLsbD_or, getLsbD_bitAt hn, Bool.or_assoc]
    simp [List.mem_cons, Bool.decide_or]

/-- The word of a list determines which numbers are in it. -/
theorem setBits_eq_iff (hl : Fits w l) (hl' : Fits w l') :
    setBits (0#w) l = setBits (0#w) l' ↔ ∀ n, n ∈ l ↔ n ∈ l' := by
  have hbit : ∀ {l}, Fits w l → ∀ i, (setBits (0#w) l).getLsbD i = decide ((i : ℤ) ∈ l) := by
    intro l hl i
    rw [getLsbD_setBits hl, BitVec.getLsbD_zero, Bool.false_or]
  constructor
  · intro heq n
    -- a number of either list is a bit position, and the two words agree there
    have hside : ∀ {l l'}, Fits w l → Fits w l' → setBits (0#w) l = setBits (0#w) l' →
        n ∈ l → n ∈ l' := by
      intro l l' hl hl' heq hn
      obtain ⟨i, rfl⟩ := Int.eq_ofNat_of_zero_le (hl n hn).1
      have hi := hbit hl i
      rw [heq, hbit hl' i, decide_eq_true hn] at hi
      exact of_decide_eq_true hi
    exact ⟨hside hl hl' heq, hside hl' hl heq.symm⟩
  · intro hsame
    apply BitVec.eq_of_getLsbD_eq
    intro i _
    rw [hbit hl, hbit hl']
    exact decide_eq_decide.mpr (hsame i)

end Nanvix.Lib
