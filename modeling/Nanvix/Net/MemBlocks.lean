import Mathlib.Algebra.Order.Ring.Nat
import Mathlib.Tactic.Linarith
import Nanvix.Net.Mem

/-! The blocks of the heap. The operations change a few descriptors, which keep clear of each other and
of the data, so what they do is to mark a block, to cut one in two or to make two neighbours one. -/

namespace Nanvix.Net

open Nanvix.Lib Blocks

/-! ### Alignment -/

theorem dvd_alignSize (a n : ℕ) : a ∣ alignSize a n := Nat.dvd_mul_left a _

theorem le_alignSize {a : ℕ} (ha : 0 < a) (n : ℕ) : n ≤ alignSize a n := by
  have hdiv := Nat.div_add_mod (n + a - 1) a
  have hmod := Nat.mod_lt (n + a - 1) ha
  rw [alignSize, Nat.mul_comm]
  omega

theorem alignSize_mono {a m n : ℕ} (h : m ≤ n) : alignSize a m ≤ alignSize a n :=
  Nat.mul_le_mul_right a (Nat.div_le_div_right (by omega))

theorem alignSize_of_dvd {a n : ℕ} (ha : 0 < a) (h : a ∣ n) : alignSize a n = n := by
  obtain ⟨k, rfl⟩ := h
  have hdiv : (a * k + a - 1) / a = k := by
    rw [Nat.add_sub_assoc ha, Nat.mul_add_div ha, Nat.div_eq_of_lt (by omega), Nat.add_zero]
  rw [alignSize, hdiv, Nat.mul_comm]

namespace Heap

variable (H : Heap)

theorem alignment_pos : 0 < H.alignment := by
  obtain ⟨k, hk⟩ := H.alignment_pow
  rw [hk]
  exact Nat.two_pow_pos k

theorem six_le_sizeofMem : 6 ≤ H.sizeofMem := le_alignSize H.alignment_pos 6

theorem minAligned_pos : 0 < H.minAligned := H.minSize_pos.trans_le (le_alignSize H.alignment_pos _)

theorem ramEnd_lt : H.ramEnd < 2 ^ 16 := H.memSize_fits

/-- The size of the smallest block. -/
def gap : ℕ := H.sizeofMem + H.minAligned

theorem gap_le : H.gap ≤ H.ramEnd := H.memSize_room

theorem six_le_gap : 6 ≤ H.gap := H.six_le_sizeofMem.trans (Nat.le_add_right _ _)

theorem gap_pos : 0 < H.gap := Nat.lt_of_lt_of_le (by decide) H.six_le_gap

/-- The bytes of data that a block for `n` bytes has. -/
def need (n : ℕ) : ℕ := max (alignSize H.alignment n) H.minAligned

theorem le_need (n : ℕ) : n ≤ H.need n := (le_alignSize H.alignment_pos n).trans (le_max_left _ _)

theorem minAligned_le_need (n : ℕ) : H.minAligned ≤ H.need n := le_max_right _ _

theorem dvd_need (n : ℕ) : H.alignment ∣ H.need n := by
  unfold need
  rcases max_choice (alignSize H.alignment n) H.minAligned with h | h <;> rw [h] <;> exact dvd_alignSize _ _

theorem dvd_sizeofMem : H.alignment ∣ H.sizeofMem := dvd_alignSize _ _

theorem alignment_dvd : H.alignment ∣ 2 ^ 16 := by
  obtain ⟨k, hk⟩ := H.alignment_pow
  have hle : H.alignment ≤ H.ramEnd := by
    have hsize : H.alignment ≤ H.sizeofMem := by
      refine Nat.le_of_dvd ?_ H.dvd_sizeofMem
      have := H.six_le_sizeofMem
      omega
    exact hsize.trans ((Nat.le_add_right _ _).trans H.gap_le)
  have hlt : 2 ^ k < 2 ^ 16 := hk ▸ hle.trans_lt H.ramEnd_lt
  rw [hk]
  exact Nat.pow_dvd_pow 2 ((Nat.pow_lt_pow_iff_right (by decide)).mp hlt).le

/-- A size whose rounding overflows is refused like any other one that is too big. -/
theorem rounded_eq_need (n : UInt16) (h : ¬ (H.ramEnd < H.rounded n ∨ H.rounded n < n.toNat)) :
    H.rounded n = H.need n.toNat := by
  unfold rounded at h ⊢
  have hle : alignSize H.alignment n.toNat ≤ 2 ^ 16 :=
    (alignSize_mono n.toNat_lt.le).trans (alignSize_of_dvd H.alignment_pos H.alignment_dvd).le
  have hlt : alignSize H.alignment n.toNat < 2 ^ 16 := by
    refine Nat.lt_of_le_of_ne hle fun hfull => h ?_
    -- nothing is left of the rounded size, and the least size is too small
    rw [hfull, Nat.mod_self, Nat.zero_max]
    by_contra hno
    have hmin := alignSize_mono (a := H.alignment) (Nat.le_of_not_lt fun hn => hno (.inr hn))
    rw [hfull, alignSize_of_dvd H.alignment_pos (n := H.minAligned) (dvd_alignSize _ _)] at hmin
    have := H.ramEnd_lt
    omega
  rw [Nat.mod_eq_of_lt hlt]
  rfl

theorem ramEnd_lt_need_of_refused (n : UInt16) (h : H.ramEnd < H.rounded n ∨ H.rounded n < n.toNat) :
    H.ramEnd < H.need n.toNat := by
  unfold rounded at h
  by_cases hlt : alignSize H.alignment n.toNat < 2 ^ 16
  · rw [Nat.mod_eq_of_lt hlt] at h
    exact h.resolve_right (Nat.not_lt.mpr (H.le_need n.toNat))
  · have hle : alignSize H.alignment n.toNat ≤ H.need n.toNat := le_max_left _ _
    have := H.ramEnd_lt
    omega

end Heap

namespace Mem

variable {H : Heap} {m m' m'' : ℕ → UInt8} {p q v x y z : ℕ} {u : Bool} {B : Set ℕ}

/-! ### Descriptors -/

theorem header_congr (h : ∀ b, p ≤ b → b < p + 5 → m' b = m b) : header m' p = header m p := by
  have hn : ∀ i < 2, m' (p + i) = m (p + i) := fun i hi => h _ (by omega) (by omega)
  have hp : ∀ i < 2, m' (p + 2 + i) = m (p + 2 + i) := fun i hi => h _ (by omega) (by omega)
  unfold header
  rw [Bytes.load_congr hn, Bytes.load_congr hp, h (p + 4) (by omega) (by omega)]

theorem word_store (m : ℕ → UInt8) (p : ℕ) (hv : v < 2 ^ 16) :
    Bytes.leValue (Bytes.load (Bytes.store m p (Bytes.leBytes 2 v)) p 2) = v := by
  have hload := Bytes.load_store m p (Bytes.leBytes 2 v)
  rw [Bytes.leBytes_length] at hload
  rw [hload, Bytes.leValue_leBytes, Nat.mod_eq_of_lt (by omega)]

theorem header_setNext_self (hv : v < 2 ^ 16) :
    header (setNext m p v) p = { header m p with next := v } := by
  unfold header setNext
  rw [word_store m p hv, Bytes.load_store_of_outside (.inr (by simp)),
    Bytes.store_of_outside (.inr (by simp))]

theorem header_setPrev_self (hv : v < 2 ^ 16) :
    header (setPrev m p v) p = { header m p with prev := v } := by
  unfold header setPrev
  rw [word_store m (p + 2) hv, Bytes.load_store_of_outside (.inl (by simp)),
    Bytes.store_of_outside (.inr (by simp))]

theorem header_setUsed_self : header (setUsed m p u) p = { header m p with used := u } := by
  unfold header setUsed
  rw [Bytes.load_store_of_outside (.inl (by omega)), Bytes.load_store_of_outside (.inl (by omega)),
    Bytes.store_singleton, Function.update_self]
  cases u <;> rfl

/-- The memory changes between `x` and `y` only. -/
def Within (m m' : ℕ → UInt8) (x y : ℕ) : Prop := ∀ b, b < x ∨ y ≤ b → m' b = m b

theorem within_setNext (m : ℕ → UInt8) (v : ℕ) (hx : x ≤ p) (hy : p + 5 ≤ y) :
    Within m (setNext m p v) x y :=
  fun b hb => Bytes.store_of_outside (by rw [Bytes.leBytes_length]; omega)

theorem within_setPrev (m : ℕ → UInt8) (v : ℕ) (hx : x ≤ p) (hy : p + 5 ≤ y) :
    Within m (setPrev m p v) x y :=
  fun b hb => Bytes.store_of_outside (by rw [Bytes.leBytes_length]; omega)

theorem within_setUsed (m : ℕ → UInt8) (u : Bool) (hx : x ≤ p) (hy : p + 5 ≤ y) :
    Within m (setUsed m p u) x y :=
  fun b hb => Bytes.store_of_outside (by rw [List.length_singleton]; omega)

namespace Within

theorem trans (h : Within m m' x y) (h' : Within m' m'' x y) : Within m m'' x y :=
  fun b hb => (h' b hb).trans (h b hb)

theorem header_eq (h : Within m m' x y) (hq : q + 5 ≤ x ∨ y ≤ q) : header m' q = header m q :=
  header_congr fun b hlo hhi => h b (by omega)

end Within

theorem header_setNext_of_apart (h : q + 5 ≤ p ∨ p + 5 ≤ q) : header (setNext m p v) q = header m q :=
  (within_setNext m v (Nat.le_refl p) (Nat.le_refl _)).header_eq h

theorem header_setPrev_of_apart (h : q + 5 ≤ p ∨ p + 5 ≤ q) : header (setPrev m p v) q = header m q :=
  (within_setPrev m v (Nat.le_refl p) (Nat.le_refl _)).header_eq h

theorem header_setUsed_of_apart (h : q + 5 ≤ p ∨ p + 5 ≤ q) : header (setUsed m p u) q = header m q :=
  (within_setUsed m u (Nat.le_refl p) (Nat.le_refl _)).header_eq h

theorem header_relink_of_apart (h : q + 5 ≤ p ∨ p + 5 ≤ q) : header (relink H m p v) q = header m q := by
  unfold relink
  split_ifs
  · exact header_setPrev_of_apart h
  · rfl

theorem header_relink_self (hv : v < 2 ^ 16) (hp : p ≠ H.ramEnd) :
    header (relink H m p v) p = { header m p with prev := v } := by
  rw [relink, if_pos hp, header_setPrev_self hv]

/-! ### The heap -/

structure Shape (H : Heap) (m : ℕ → UInt8) (B : Set ℕ) : Prop where
  laid : Laid (header m) H.gap H.ramEnd B
  aligned : ∀ x ∈ B, H.alignment ∣ x
  ramEnd_used : (header m H.ramEnd).used = true

/-- The size and the use of a block and the bytes behind its descriptor stay. -/
structure Keeps (m m' : ℕ → UInt8) (x : ℕ) : Prop where
  next : (header m' x).next = (header m x).next
  used : (header m' x).used = (header m x).used
  data : ∀ b, x + 5 ≤ b → b < (header m x).next → m' b = m b

theorem Keeps.trans (h : Keeps m m' x) (h' : Keeps m' m'' x) : Keeps m m'' x where
  next := h'.next.trans h.next
  used := h'.used.trans h.used
  data b hx hlt := (h'.data b hx (by rwa [h.next])).trans (h.data b hx hlt)

theorem Within.keeps (h : Within m m' x y) (hl : Laid (header m) H.gap H.ramEnd B) (hx : x ∈ B) (hq : q ∈ B)
    (hin : q < x ∨ y ≤ q) : Keeps m m' q := by
  have hgap := hl.gap hq
  have hsix := H.six_le_gap
  have hqx := hl.apart hq hx
  have hsame : header m' q = header m q := h.header_eq (by omega)
  exact ⟨by rw [hsame], by rw [hsame], fun b hlo hhi => h b (by omega)⟩

theorem Shape.next_lt (hs : Shape H m B) (hx : x ∈ B) : (header m x).next < 2 ^ 16 :=
  (hs.laid.le hx).trans_lt H.ramEnd_lt

theorem Shape.mark (hs : Shape H m B) (hx : x ∈ B) (u : Bool) :
    Shape H (setUsed m x u) B ∧ ∀ w ∈ B, w ≠ x → Keeps m (setUsed m x u) w := by
  have hsix := H.six_le_gap
  have hgap := hs.laid.gap hx
  have hin : Within m (setUsed m x u) x (header m x).next := within_setUsed m u (Nat.le_refl x) (by omega)
  have hother : ∀ w ∈ B, w ≠ x → w < x ∨ (header m x).next ≤ w := fun w hw hne => by
    have := hs.laid.apart hx hw
    omega
  have hsame : ∀ w ∈ B, w ≠ x → header (setUsed m x u) w = header m w := fun w hw hne => by
    have := hs.laid.gap hw
    have := hs.laid.apart hw hx
    exact hin.header_eq (by have := hother w hw hne; omega)
  refine ⟨⟨hs.laid.congr fun w hw => ?_, hs.aligned, ?_⟩,
    fun w hw hne => hin.keeps hs.laid hx hw (hother w hw hne)⟩
  · by_cases hwx : w = x
    · simp [hwx, header_setUsed_self]
    · simp [hsame w hw hwx]
  · rw [hin.header_eq (.inr (hs.laid.le hx))]
    exact hs.ramEnd_used

/-- What is written from `x` to `y` and the link back in the block at `y`. -/
structure Patched (H : Heap) (m m' : ℕ → UInt8) (B : Set ℕ) (x y p : ℕ) : Prop where
  header : ∀ w ∈ B, w < x ∨ y < w → header m' w = header m w
  next : y ≠ H.ramEnd → Mem.header m' y = { Mem.header m y with prev := p }
  ramEnd : Mem.header m' H.ramEnd = Mem.header m H.ramEnd
  keeps : ∀ w ∈ B, w < x ∨ y ≤ w → Keeps m m' w

theorem Within.patched (h : Within m m' x y) (hl : Laid (header m) H.gap H.ramEnd B) (hx : x ∈ B)
    (hxy : x < y) (hy : y ∈ B ∨ y = H.ramEnd) (hp : p < 2 ^ 16) :
    Patched H m (relink H m' y p) B x y p := by
  have hsix := H.six_le_gap
  have hnext : y ≠ H.ramEnd → header (relink H m' y p) y = { header m y with prev := p } := by
    intro hne
    rw [header_relink_self hp hne, h.header_eq (.inr (Nat.le_refl y))]
  have hlink : ∀ b, b < y + 2 ∨ y + 4 ≤ b → relink H m' y p b = m' b := by
    intro b hb
    unfold relink
    split_ifs
    · exact Bytes.store_of_outside (by rw [Bytes.leBytes_length]; omega)
    · rfl
  -- the other blocks keep clear of the link
  have hfar : ∀ w ∈ B, w < x ∨ y < w → (header m w).next ≤ y ∨ y + 6 ≤ w := by
    rintro w hw (hlt | hlt)
    · have := hl.apart hw hx hlt
      omega
    · rcases hy with hy | rfl
      · have := hl.gap hy
        have := hl.apart hy hw hlt
        omega
      · have := hl.gap hw
        have := hl.le hw
        omega
  have hsame : ∀ w ∈ B, w < x ∨ y < w → header (relink H m' y p) w = header m' w := fun w hw hin => by
    have := hfar w hw hin
    have := hl.gap hw
    exact header_relink_of_apart (by omega)
  refine ⟨fun w hw hin => (hsame w hw hin).trans ?_, hnext, ?_, fun w hw hin => ?_⟩
  · have := hl.gap hw
    have := hl.apart hw hx
    exact h.header_eq (by omega)
  · by_cases hend : y = H.ramEnd
    · rw [relink, if_neg (not_not.mpr hend)]
      exact h.header_eq (.inr hend.le)
    · have hyB := hy.resolve_right hend
      have := hl.gap hyB
      have := hl.le hyB
      exact (header_relink_of_apart (by omega)).trans (h.header_eq (by omega))
  · have hk := h.keeps hl hx hw hin
    have hdata : ∀ b, w + 5 ≤ b → b < (header m w).next → relink H m' y p b = m b := fun b hlo hhi => by
      rw [← hk.data b hlo hhi]
      have := hfar w hw
      exact hlink b (by omega)
    by_cases hwy : w = y
    · have hne := hl.ne_end H.gap_pos hw
      rw [hwy] at hne hdata ⊢
      exact ⟨by rw [hnext hne], by rw [hnext hne], hdata⟩
    · have hhdr := hsame w hw (by omega)
      exact ⟨by rw [hhdr, hk.next], by rw [hhdr, hk.used], hdata⟩

theorem Shape.next_mem (hs : Shape H m B) (hx : x ∈ B) : (header m x).next ∈ B ∨ (header m x).next = H.ramEnd :=
  (em _).symm.imp_left fun hne => (hs.laid.next hx hne).1

/-- A block is cut at `z`, and the part behind is free. -/
theorem Shape.split (hs : Shape H m B) (hx : x ∈ B) (hy : (header m x).next = y) (hgx : x + H.gap ≤ z)
    (hgz : z + H.gap ≤ y) (hz : H.alignment ∣ z) (h : Within m m' x y)
    (hx' : header m' x = ⟨z, (header m x).prev, u⟩) (hz' : header m' z = ⟨y, x, false⟩) :
    Shape H (relink H m' y z) (insert z B) ∧ (∀ w ∈ B, w ≠ x → Keeps m (relink H m' y z) w) ∧
      header (relink H m' y z) x = ⟨z, (header m x).prev, u⟩ ∧ header (relink H m' y z) z = ⟨y, x, false⟩ := by
  subst hy
  have hsix := H.six_le_gap
  have hlt := hs.next_lt hx
  have hpatch := h.patched hs.laid hx (by omega) (hs.next_mem hx) (p := z) (by omega)
  have hclear : ∀ w ∈ B, w ≠ x → w < x ∨ (header m x).next ≤ w := fun w hw hne => by
    have := hs.laid.apart hx hw
    omega
  have hxp : header (relink H m' (header m x).next z) x = ⟨z, (header m x).prev, u⟩ := by
    rw [header_relink_of_apart (by omega), hx']
  have hzp : header (relink H m' (header m x).next z) z = ⟨(header m x).next, x, false⟩ := by
    rw [header_relink_of_apart (by omega), hz']
  have hlaid := hs.laid.split H.gap_pos hx hgx hgz hxp hzp hpatch.next fun w hw hne hny =>
    hpatch.header w hw (by have := hclear w hw hne; omega)
  refine ⟨⟨hlaid, ?_, ?_⟩, fun w hw hne => hpatch.keeps w hw (hclear w hw hne), hxp, hzp⟩
  · rintro w (rfl | hw)
    · exact hz
    · exact hs.aligned w hw
  · rw [hpatch.ramEnd]
    exact hs.ramEnd_used

theorem Shape.merge (hs : Shape H m B) (hx : x ∈ B) (hz : (header m x).next = z) (hzB : z ∈ B)
    (hy : (header m z).next = y) :
    Shape H (relink H (setNext m x y) y x) {w ∈ B | w ≤ x ∨ y ≤ w} ∧
      (∀ w ∈ B, w < x ∨ y ≤ w → Keeps m (relink H (setNext m x y) y x) w) ∧
      header (relink H (setNext m x y) y x) x = { header m x with next := y } := by
  have hsix := H.six_le_gap
  have hxz := hs.laid.gap hx
  have hzy := hs.laid.gap hzB
  have hlt := hs.next_lt hzB
  have hyB : y ∈ B ∨ y = H.ramEnd := hy ▸ hs.next_mem hzB
  have hin : Within m (setNext m x y) x y := within_setNext m y (Nat.le_refl x) (by omega)
  have hpatch := hin.patched hs.laid hx (by omega) hyB (p := x) (by omega)
  have hxp : header (relink H (setNext m x y) y x) x = { header m x with next := y } := by
    rw [header_relink_of_apart (by omega), header_setNext_self (by omega)]
  refine ⟨⟨hs.laid.join H.gap_pos hx (by omega) hyB hxp hpatch.next hpatch.header, ?_, ?_⟩, hpatch.keeps, hxp⟩
  · rintro w ⟨hw, -⟩
    exact hs.aligned w hw
  · rw [hpatch.ramEnd]
    exact hs.ramEnd_used

end Mem

end Nanvix.Net
