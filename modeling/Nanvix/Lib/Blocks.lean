import Mathlib.Data.Set.Insert
import Mathlib.Tactic.Common

/-! A stretch of memory that is cut into blocks. Every block begins with a header, which says where the
next and the previous block begin and whether the block is in use. The blocks are known by the places
where they begin, and what changes a few headers makes blocks one or cuts one in two. -/

namespace Nanvix.Lib.Blocks

structure Header where
  next : ℕ
  prev : ℕ
  used : Bool
  deriving DecidableEq, Repr

variable {hdr hdr' : ℕ → Header} {g n a k x y z w : ℕ} {u v : Bool} {B : Set ℕ}

/-- The blocks that begin at the places of `B` lie end to end from zero to `n`, each at least `g` long, and
are linked both ways. -/
structure Laid (hdr : ℕ → Header) (g n : ℕ) (B : Set ℕ) : Prop where
  zero : 0 ∈ B
  first : (hdr 0).prev = 0
  gap : ∀ {x}, x ∈ B → x + g ≤ (hdr x).next
  le : ∀ {x}, x ∈ B → (hdr x).next ≤ n
  apart : ∀ {x y}, x ∈ B → y ∈ B → x < y → (hdr x).next ≤ y
  next : ∀ {x}, x ∈ B → (hdr x).next ≠ n → (hdr x).next ∈ B ∧ (hdr (hdr x).next).prev = x

/-- The first place on the walk from `a` where the test stops it; the number bounds the walk. -/
def seek (hdr : ℕ → Header) (stop : ℕ → Bool) : ℕ → ℕ → Option ℕ
  | 0, _ => none
  | k + 1, a => if stop a then some a else seek hdr stop k (hdr a).next

/-- A free block has a free block behind it. -/
def Loose (hdr : ℕ → Header) (n x : ℕ) : Prop :=
  (hdr x).next ≠ n ∧ (hdr x).used = false ∧ (hdr (hdr x).next).used = false

namespace Laid

theorem ne_end (h : Laid hdr g n B) (hg : 0 < g) (hx : x ∈ B) : x ≠ n := by
  have := h.gap hx
  have := h.le hx
  omega

/-- The blocks from `x` to `y` become one. -/
theorem join (h : Laid hdr g n B) (hg : 0 < g) (hx : x ∈ B) (hxy : x + g ≤ y) (hy : y ∈ B ∨ y = n)
    (hx' : hdr' x = ⟨y, (hdr x).prev, u⟩) (hy' : y ≠ n → hdr' y = { hdr y with prev := x })
    (hw : ∀ w ∈ B, w < x ∨ y < w → hdr' w = hdr w) :
    Laid hdr' g n {w ∈ B | w ≤ x ∨ y ≤ w} := by
  have hnext : ∀ w ∈ B, w ≤ x ∨ y ≤ w → (hdr' w).next = if w = x then y else (hdr w).next := by
    intro w hwB hin
    have := h.ne_end hg hwB
    grind
  have hprev : ∀ w ∈ B, w ≤ x ∨ y ≤ w → (hdr' w).prev = if w = y then x else (hdr w).prev := by
    intro w hwB hin
    have := h.ne_end hg hwB
    grind
  clear hx' hy' hw
  have hyn : y ≤ n := by
    rcases hy with hy | rfl
    · have := h.gap hy
      have := h.le hy
      omega
    · exact Nat.le_refl y
  refine ⟨⟨h.zero, .inl (Nat.zero_le x)⟩, ?_, ?_, ?_, ?_, ?_⟩
  · rw [hprev 0 h.zero (.inl (Nat.zero_le x)), if_neg (by omega), h.first]
  · rintro w ⟨hwB, hin⟩
    have := h.gap hwB
    grind
  · rintro w ⟨hwB, hin⟩
    have := h.le hwB
    grind
  · rintro v w ⟨hv, hvin⟩ ⟨hwB, hwin⟩ hlt
    have := h.apart hv hwB hlt
    grind
  · rintro w ⟨hwB, hin⟩ hne
    rw [hnext w hwB hin] at hne ⊢
    split_ifs at hne ⊢ with hwx
    · have hyB := hy.resolve_right hne
      exact ⟨⟨hyB, .inr (Nat.le_refl y)⟩, by rw [hprev y hyB (.inr (Nat.le_refl y)), if_pos rfl, hwx]⟩
    · obtain ⟨hm, hp⟩ := h.next hwB hne
      have := h.gap hwB
      have := h.apart hwB hx
      have hin' : (hdr w).next ≤ x ∨ y ≤ (hdr w).next := by omega
      exact ⟨⟨hm, hin'⟩, by rw [hprev _ hm hin', if_neg (by omega), hp]⟩

/-- A block is cut at `z`. -/
theorem split (h : Laid hdr g n B) (hg : 0 < g) (hx : x ∈ B) (hgx : x + g ≤ z) (hgz : z + g ≤ (hdr x).next)
    (hx' : hdr' x = ⟨z, (hdr x).prev, u⟩) (hz' : hdr' z = ⟨(hdr x).next, x, v⟩)
    (hy' : (hdr x).next ≠ n → hdr' (hdr x).next = { hdr (hdr x).next with prev := z })
    (hw : ∀ w ∈ B, w ≠ x → w ≠ (hdr x).next → hdr' w = hdr w) : Laid hdr' g n (insert z B) := by
  have hout : ∀ w ∈ B, w ≤ x ∨ (hdr x).next ≤ w := fun w hwB => by
    have := h.apart hx hwB
    omega
  have hnext : ∀ w ∈ B, (hdr' w).next = if w = x then z else (hdr w).next := by
    intro w hwB
    have := h.ne_end hg hwB
    grind
  have hprev : ∀ w ∈ B, (hdr' w).prev = if w = (hdr x).next then z else (hdr w).prev := by
    intro w hwB
    have := h.ne_end hg hwB
    grind
  clear hx' hy' hw
  refine ⟨.inr h.zero, ?_, ?_, ?_, ?_, ?_⟩
  · rw [hprev 0 h.zero, if_neg (by omega), h.first]
  · rintro w (rfl | hwB)
    · rw [hz']
      exact hgz
    · have := h.gap hwB
      grind
  · rintro w (rfl | hwB)
    · rw [hz']
      exact h.le hx
    · have := h.le hwB
      have := h.le hx
      grind
  · rintro v w (rfl | hv) (rfl | hwB) hlt
    · omega
    · have := hout w hwB
      grind
    · have := hout v hv
      have := h.apart hv hx
      grind
    · have := h.apart hv hwB hlt
      grind
  · rintro w (rfl | hwB) hne
    · have := h.next hx
      grind
    · have := h.next hwB
      have := h.gap hwB
      have := h.apart hwB hx
      have := hout w hwB
      grind

theorem congr (h : Laid hdr g n B)
    (heq : ∀ x ∈ B, (hdr' x).next = (hdr x).next ∧ (hdr' x).prev = (hdr x).prev) : Laid hdr' g n B where
  zero := h.zero
  first := (heq 0 h.zero).2.trans h.first
  gap hx := by rw [(heq _ hx).1]; exact h.gap hx
  le hx := by rw [(heq _ hx).1]; exact h.le hx
  apart hx hy hlt := by rw [(heq _ hx).1]; exact h.apart hx hy hlt
  next hx hne := by
    rw [(heq _ hx).1] at hne ⊢
    obtain ⟨hB, hp⟩ := h.next hx hne
    exact ⟨hB, by rw [(heq _ hB).2, hp]⟩

/-- Two blocks are one or do not overlap. -/
theorem separate (h : Laid hdr g n B) (hx : x ∈ B) (hy : y ∈ B) :
    x = y ∨ (hdr x).next ≤ y ∨ (hdr y).next ≤ x := by
  rcases Nat.lt_trichotomy x y with hlt | rfl | hlt
  · exact .inr (.inl (h.apart hx hy hlt))
  · exact .inl rfl
  · exact .inr (.inr (h.apart hy hx hlt))

theorem exists_block (h : Laid hdr g n B) (hg : 0 < g) (ha : a < n) : ∃ x ∈ B, x ≤ a ∧ a < (hdr x).next := by
  induction a with
  | zero =>
    have := h.gap h.zero
    exact ⟨0, h.zero, Nat.le_refl 0, by omega⟩
  | succ a ih =>
    obtain ⟨x, hx, hle, hlt⟩ := ih (by omega)
    by_cases hin : a + 1 < (hdr x).next
    · exact ⟨x, hx, by omega, hin⟩
    · obtain ⟨hB, -⟩ := h.next hx (by omega)
      have := h.gap hB
      exact ⟨_, hB, by omega, by omega⟩

theorem prev (h : Laid hdr g n B) (hg : 0 < g) (hx : x ∈ B) (hne : x ≠ 0) :
    (hdr x).prev ∈ B ∧ (hdr (hdr x).prev).next = x := by
  have hend := h.ne_end hg hx
  obtain ⟨p, hp, hle, hlt⟩ := h.exists_block hg (a := x - 1) (by have := h.gap hx; have := h.le hx; omega)
  have hnext : (hdr p).next = x := by
    have := h.apart hp hx (by omega)
    omega
  have hback := (h.next hp (by rwa [hnext])).2
  rw [hnext] at hback
  rw [hback]
  exact ⟨hp, hnext⟩

/-- A walk that is stopped at the end at the latest finds the first place. -/
theorem seek_eq (h : Laid hdr g n B) (hg : 0 < g) (stop : ℕ → Bool) (hstop : stop n = true)
    (ha : a ∈ B ∨ a = n) (hk : n < a + k) :
    ∃ x, seek hdr stop k a = some x ∧ stop x = true ∧ (x ∈ B ∨ x = n) ∧ a ≤ x ∧
      ∀ w ∈ B, a ≤ w → w < x → stop w = false := by
  induction k generalizing a with
  | zero =>
    rcases ha with ha | rfl
    · have := h.gap ha
      have := h.le ha
      omega
    · omega
  | succ k ih =>
    by_cases hs : stop a = true
    · exact ⟨a, if_pos hs, hs, ha, Nat.le_refl a, fun w _ _ _ => by omega⟩
    · have haB := ha.resolve_right fun he => hs (he ▸ hstop)
      have hgap := h.gap haB
      have hmem : (hdr a).next ∈ B ∨ (hdr a).next = n := by
        by_cases hn : (hdr a).next = n
        · exact .inr hn
        · exact .inl (h.next haB hn).1
      obtain ⟨x, hx, hsx, hxB, hle, hpast⟩ := ih hmem (by omega)
      refine ⟨x, (if_neg hs).trans hx, hsx, hxB, by omega, fun w hw haw hwx => ?_⟩
      rcases Nat.eq_or_lt_of_le haw with rfl | hlt
      · exact eq_false_of_ne_true hs
      · exact hpast w hw (h.apart haB hw hlt) hwx

/-- A stretch that no block in use meets lies in one free block. -/
theorem free_block (h : Laid hdr g n B) (hg : 0 < g) (hc : ∀ x ∈ B, ¬ Loose hdr n x) (hk : 0 < k)
    (hn : a + k ≤ n) (hfree : ∀ x ∈ B, (hdr x).used = true → (hdr x).next ≤ a ∨ a + k ≤ x) :
    ∃ x ∈ B, (hdr x).used = false ∧ x ≤ a ∧ a + k ≤ (hdr x).next := by
  obtain ⟨x, hx, hle, hlt⟩ := h.exists_block hg (show a < n by omega)
  have hxu : (hdr x).used = false := by
    by_contra hu
    have := hfree x hx (eq_true_of_ne_false hu)
    omega
  refine ⟨x, hx, hxu, hle, ?_⟩
  by_contra hover
  -- the next block is in use, and the stretch must end before it
  have hend : (hdr x).next ≠ n := by omega
  obtain ⟨hy, -⟩ := h.next hx hend
  have hyu : (hdr (hdr x).next).used = true := by
    by_contra hu
    exact hc x hx ⟨hend, hxu, eq_false_of_ne_true hu⟩
  have := hfree _ hy hyu
  have := h.gap hy
  omega

end Laid
end Nanvix.Lib.Blocks
