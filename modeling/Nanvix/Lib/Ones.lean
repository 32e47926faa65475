import Nanvix.Lib.Bytes

/-! Sums of bytes in ones' complement. The bytes of a sum weigh 1 and 256 in turn, and a carry out of the
16 bits is added back. Such a sum is known up to multiples of 65535, except that only nothing but
zeros has the sum zero; to weigh the bytes the other way round is to multiply by 256. -/

namespace Nanvix.Lib.Ones

variable {a b n : ℕ}

/-- The sum in 16 bits, with the carries added back. -/
def canon (n : ℕ) : ℕ := if n = 0 then 0 else (n - 1) % 65535 + 1

theorem canon_le (n : ℕ) : canon n ≤ 65535 := by
  unfold canon
  split_ifs <;> omega

theorem canon_mod (n : ℕ) : canon n % 2 ^ 16 = canon n := Nat.mod_eq_of_lt (Nat.lt_succ_of_le (canon_le n))

theorem canon_of_le (h : n ≤ 65535) : canon n = n := by
  unfold canon
  split_ifs <;> omega

theorem canon_eq_iff : canon a = canon b ↔ a % 65535 = b % 65535 ∧ (a = 0 ↔ b = 0) := by
  by_cases ha : a = 0 <;> by_cases hb : b = 0 <;> simp [canon, ha, hb]
  omega

theorem canon_spec (n : ℕ) : canon n ≤ 65535 ∧ canon n % 65535 = n % 65535 ∧ (canon n = 0 ↔ n = 0) :=
  ⟨canon_le n, canon_eq_iff.mp (canon_of_le (canon_le n))⟩

theorem canon_canon_add (a b : ℕ) : canon (canon a + b) = canon (a + b) := by
  have h := canon_spec a
  rw [canon_eq_iff]
  omega

theorem canon_mul_canon (n : ℕ) : canon (256 * canon n) = canon (256 * n) := by
  have h := canon_spec n
  rw [canon_eq_iff]
  omega

theorem canon_mul_mul (n : ℕ) : canon (256 * (256 * n)) = canon n := by
  rw [canon_eq_iff]
  omega

/-- What makes a sum all ones is its complement; zero has two of them. -/
theorem canon_add_eq_iff (h : b ≤ 65535) :
    65535 - canon (a + b) = 0 ↔ b = 65535 - canon a ∨ 65535 - canon a = 0 ∧ b = 65535 := by
  have ha := canon_spec a
  have hab := canon_spec (a + b)
  constructor <;> intro <;> omega

/-- The sum of bytes the first of which weighs 256 or 1. -/
def byteSum : Bool → List UInt8 → ℕ
  | _, [] => 0
  | hi, x :: xs => (if hi then 256 else 1) * x.toNat + byteSum (!hi) xs

theorem byteSum_append (hi : Bool) (l r : List UInt8) :
    byteSum hi (l ++ r) = byteSum hi l + byteSum (if l.length % 2 = 0 then hi else !hi) r := by
  induction l generalizing hi with
  | nil => simp [byteSum]
  | cons x l ih =>
    have hlen : (if l.length % 2 = 0 then !hi else !!hi) = if (l.length + 1) % 2 = 0 then hi else !hi := by
      rcases Nat.mod_two_eq_zero_or_one l.length with h | h <;> simp [h, Nat.add_mod]
    rw [List.cons_append, byteSum, ih, byteSum, List.length_cons, hlen, Nat.add_assoc]

/-- To weigh the bytes the other way round is to multiply by 256. -/
theorem canon_byteSum_not (hi : Bool) (xs : List UInt8) :
    canon (byteSum (!hi) xs) = canon (256 * byteSum hi xs) := by
  induction xs generalizing hi with
  | nil => rfl
  | cons x xs ih =>
    have hrest := canon_eq_iff.mp (ih !hi)
    rw [canon_eq_iff, byteSum, byteSum]
    cases hi <;> simp only [Bool.not_true, Bool.not_false, if_true, Bool.false_eq_true, if_false] at * <;> omega

/-- Whether a sum is all ones does not depend on the weights. -/
theorem canon_byteSum_eq_iff (hi hi' : Bool) (xs : List UInt8) :
    65535 - canon (byteSum hi xs) = 0 ↔ 65535 - canon (byteSum hi' xs) = 0 := by
  have hnot := canon_byteSum_not hi' xs
  obtain rfl | rfl : hi = hi' ∨ hi = !hi' := by cases hi <;> cases hi' <;> simp
  · rfl
  · have hn := canon_spec (byteSum hi' xs)
    have hmul := canon_spec (256 * byteSum hi' xs)
    rw [hnot]
    constructor <;> intro <;> omega

/-- Two bytes give one carry at most. -/
theorem byteSum_le (hi : Bool) : (xs : List UInt8) → byteSum hi xs ≤ 65535 * ((xs.length + 1) / 2)
  | [] => Nat.zero_le _
  | [x] => by
    have := x.toNat_lt
    cases hi <;> simp [byteSum] <;> omega
  | x :: y :: xs => by
    have := x.toNat_lt
    have := y.toNat_lt
    have := byteSum_le hi xs
    cases hi <;> simp only [byteSum, Bool.not_not, List.length_cons] <;> simp <;> omega

end Nanvix.Lib.Ones
