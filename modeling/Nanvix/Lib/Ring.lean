import Mathlib.Data.Int.ModEq
import Mathlib.Data.List.Nodup
import Mathlib.Logic.Function.Basic

/-! A queue laid out in a ring of `cap` cells. The window is the list of the
`n` cells from `tail` on. Pushing writes the cell after the window, popping
moves `tail`, and deleting shifts the cells behind the deleted one. A pointer
that sweeps the ring comes nearer to every cell but the one it leaves. -/

namespace Nanvix.Lib.Ring

open Function

variable {α : Type*} {f g : ℕ → α} {cap tail n i j : ℕ}

/-- The cells `tail, tail + 1, ..., tail + n - 1` of the ring. -/
def window (f : ℕ → α) (cap tail n : ℕ) : List α :=
  (List.range n).map fun i => f ((tail + i) % cap)

@[simp] theorem window_length (f : ℕ → α) (cap tail n : ℕ) : (window f cap tail n).length = n := by
  simp [window]

@[simp] theorem window_zero (f : ℕ → α) (cap tail : ℕ) : window f cap tail 0 = [] := rfl

theorem mem_window {x : α} : x ∈ window f cap tail n ↔ ∃ i < n, f ((tail + i) % cap) = x := by
  simp [window]

theorem window_congr (h : ∀ i < n, f ((tail + i) % cap) = g ((tail + i) % cap)) :
    window f cap tail n = window g cap tail n :=
  List.map_congr_left fun i hi => h i (List.mem_range.mp hi)

theorem index_inj (hi : i < cap) (hj : j < cap) (h : (tail + i) % cap = (tail + j) % cap) :
    i = j := by
  have hm : i ≡ j [MOD cap] := Nat.ModEq.add_left_cancel' tail h
  rwa [Nat.ModEq, Nat.mod_eq_of_lt hi, Nat.mod_eq_of_lt hj] at hm

theorem index_succ (cap tail i : ℕ) : ((tail + 1) % cap + i) % cap = (tail + (i + 1)) % cap := by
  rw [Nat.mod_add_mod]; congr 1; omega

theorem window_append (f : ℕ → α) (cap tail n : ℕ) :
    window f cap tail (n + 1) = window f cap tail n ++ [f ((tail + n) % cap)] := by
  simp [window, List.range_succ]

theorem window_cons (f : ℕ → α) (cap tail n : ℕ) :
    window f cap tail (n + 1) = f (tail % cap) :: window f cap ((tail + 1) % cap) n := by
  simp only [window, List.range_succ_eq_map, List.map_cons, List.map_map, add_zero]
  congr 1
  exact List.map_congr_left fun i _ => (congrArg f (index_succ cap tail i)).symm

/-- Writing a cell outside the window does not change it. -/
theorem window_update_of_outside (x : α) (h : ∀ k < n, (tail + k) % cap ≠ j) :
    window (update f j x) cap tail n = window f cap tail n :=
  window_congr fun i hi => by rw [update_of_ne (h i hi)]

theorem window_push (x : α) (hn : n < cap) :
    window (update f ((tail + n) % cap) x) cap tail (n + 1) =
      window f cap tail n ++ [x] := by
  rw [window_append, update_self, window_update_of_outside]
  intro k hk h
  exact absurd (index_inj (by omega) hn h) (by omega)

theorem window_pop (x : α) (hn : n < cap) :
    window (update f (tail % cap) x) cap ((tail + 1) % cap) n =
      window f cap ((tail + 1) % cap) n := by
  apply window_update_of_outside
  intro k hk h
  rw [index_succ] at h
  have h0 : (tail + (k + 1)) % cap = (tail + 0) % cap := by simpa using h
  exact absurd (index_inj (by omega) (by omega) h0) (by omega)

/-- Moving every cell from offset `j` on one place towards the tail deletes
the element at offset `j`. -/
theorem window_shift (hj : j < n)
    (hlo : ∀ i < j, g ((tail + i) % cap) = f ((tail + i) % cap))
    (hhi : ∀ i, j ≤ i → i + 1 < n → g ((tail + i) % cap) = f ((tail + (i + 1)) % cap)) :
    window g cap tail (n - 1) = (window f cap tail n).eraseIdx j := by
  apply List.ext_getElem
  · simp [List.length_eraseIdx, hj]
  · intro i h₁ h₂
    simp only [window_length] at h₁
    rw [List.getElem_eraseIdx]
    split_ifs with h
    · simpa [window] using hlo i h
    · simpa [window] using hhi i (by omega) (by omega)

/-- How many cells a sweep from `a` passes before it comes to `b`. -/
def dist (cap a b : ℕ) : ℕ := if a ≤ b then b - a else b + cap - a

theorem dist_lt (ha : i < cap) (hb : j < cap) : dist cap i j < cap := by
  unfold dist
  split_ifs <;> omega

theorem succ_mod (ha : i < cap) : (i + 1) % cap = if i + 1 = cap then 0 else i + 1 := by
  split_ifs with h
  · rw [h, Nat.mod_self]
  · exact Nat.mod_eq_of_lt (by omega)

/-- A step of the sweep brings every cell nearer but the one it leaves. -/
theorem dist_succ (ha : i < cap) (hb : j < cap) (hne : i ≠ j) :
    dist cap ((i + 1) % cap) j + 1 = dist cap i j := by
  rw [succ_mod ha]
  unfold dist
  split_ifs <;> omega

/-! ### Segments -/

section Segment

variable {lo hi k : ℕ}

/-- The cell of one of the positions from `lo` up to `hi`. -/
def Segment (cap lo hi k : ℕ) : Prop := ∃ j, lo ≤ j ∧ j < hi ∧ j % cap = k

theorem not_segment_self : ¬ Segment cap lo lo k := by
  rintro ⟨j, hlo, hhi, -⟩
  omega

/-- The cell at offset `i` is in the segment exactly if the segment is longer. -/
theorem segment_index (hi' : i < cap) (hcap : hi ≤ lo + cap) :
    Segment cap lo hi ((lo + i) % cap) ↔ lo + i < hi := by
  constructor
  · rintro ⟨j, hlo, hhi, heq⟩
    obtain ⟨d, rfl⟩ := Nat.exists_eq_add_of_le hlo
    rw [← index_inj (by omega) hi' heq]
    exact hhi
  · intro h
    exact ⟨lo + i, Nat.le_add_right lo i, h, rfl⟩

theorem segment_push (h : lo ≤ hi) : Segment cap lo (hi + 1) k ↔ Segment cap lo hi k ∨ k = hi % cap := by
  constructor
  · rintro ⟨j, hlo, hhi, rfl⟩
    rcases Nat.lt_succ_iff_lt_or_eq.mp hhi with hlt | rfl
    · exact .inl ⟨j, hlo, hlt, rfl⟩
    · exact .inr rfl
  · rintro (⟨j, hlo, hhi, rfl⟩ | rfl)
    · exact ⟨j, hlo, Nat.lt_succ_of_lt hhi, rfl⟩
    · exact ⟨hi, h, Nat.lt_succ_self hi, rfl⟩

theorem segment_pop (hcap : hi ≤ lo + cap) :
    Segment cap (lo + 1) hi k ↔ Segment cap lo hi k ∧ k ≠ lo % cap := by
  constructor
  · rintro ⟨j, hlo, hhi, rfl⟩
    refine ⟨⟨j, Nat.le_of_succ_le hlo, hhi, rfl⟩, fun heq => ?_⟩
    obtain ⟨d, rfl⟩ := Nat.exists_eq_add_of_le (Nat.le_of_succ_le hlo)
    have := index_inj (i := d) (j := 0) (by omega) (by omega) heq
    omega
  · rintro ⟨⟨j, hlo, hhi, rfl⟩, hne⟩
    rcases Nat.eq_or_lt_of_le hlo with rfl | hlt
    · exact absurd rfl hne
    · exact ⟨j, hlt, hhi, rfl⟩

/-- The cell behind a segment is outside of it until the segment takes up the whole ring. -/
theorem segment_end (hcap : 0 < cap) (h : lo ≤ hi) (hle : hi ≤ lo + cap) :
    Segment cap lo hi (hi % cap) ↔ hi = lo + cap := by
  obtain ⟨d, rfl⟩ := Nat.exists_eq_add_of_le h
  rcases Nat.lt_or_ge d cap with hlt | hge
  · rw [segment_index hlt hle]
    omega
  · have hd : d = cap := by omega
    rw [hd, Nat.add_mod_right]
    exact ⟨fun _ => rfl, fun _ => ⟨lo, Nat.le_refl lo, by omega, rfl⟩⟩

end Segment

/-! ### A ring that is written over -/

/-- The cells hold the last `cap` elements of `l`, the next one goes to `next`, and cells that
were never written are blank. -/
structure Logs (f : ℕ → α) (cap next : ℕ) (blank : α) (l : List α) : Prop where
  next_eq : next = l.length % cap
  last : ∀ k (hk : k < l.length), l.length ≤ k + cap → f (k % cap) = l[k]
  rest : ∀ j, l.length ≤ j → j < cap → f j = blank

namespace Logs

variable {next : ℕ} {blank : α} {l : List α}

theorem nil (blank : α) (cap : ℕ) : Logs (fun _ => blank) cap 0 blank [] where
  next_eq := (Nat.zero_mod cap).symm
  last k hk := absurd hk (Nat.not_lt_zero k)
  rest _ _ _ := rfl

/-- The next element takes the place of the oldest one. -/
theorem push (h : Logs f cap next blank l) (hcap : 0 < cap) (x : α) :
    Logs (update f next x) cap ((next + 1) % cap) blank (l ++ [x]) where
  next_eq := by
    rw [h.next_eq, Nat.mod_add_mod, List.length_append, List.length_singleton]
  last k hk hlast := by
    rw [List.length_append, List.length_singleton] at hk hlast
    rw [h.next_eq]
    by_cases hkl : k = l.length
    · subst hkl
      rw [update_self, List.getElem_concat_length rfl]
    · -- Two of the last `cap` elements are in different cells.
      have hne : k % cap ≠ l.length % cap := by
        intro heq
        have hk0 : (k + 0) % cap = (k + (l.length - k)) % cap := by
          rw [Nat.add_zero, Nat.add_sub_cancel' (by omega), heq]
        have := index_inj hcap (by omega) hk0
        omega
      rw [update_of_ne hne, h.last k (by omega) (by omega), List.getElem_append_left]
  rest j hj hjc := by
    rw [List.length_append, List.length_singleton] at hj
    have hne : j ≠ next := by
      rw [h.next_eq, Nat.mod_eq_of_lt (by omega)]
      omega
    rw [update_of_ne hne]
    exact h.rest j (by omega) hjc

/-- A cell is blank or holds one of the elements. -/
theorem cell (h : Logs f cap next blank l) (hj : j < cap) : f j = blank ∨ f j ∈ l := by
  by_cases hl : l.length ≤ j
  · exact .inl (h.rest j hl hj)
  · -- The last index below the length that falls into the cell.
    right
    have hlt : (l.length - 1 - j) % cap < cap := Nat.mod_lt _ (by omega)
    have hmod : (j + (l.length - 1 - j) / cap * cap) % cap = j := by
      rw [Nat.add_mul_mod_self_right, Nat.mod_eq_of_lt hj]
    have hdiv := Nat.div_add_mod (l.length - 1 - j) cap
    rw [Nat.mul_comm] at hdiv
    have hk := h.last (j + (l.length - 1 - j) / cap * cap) (by omega) (by omega)
    rw [hmod] at hk
    rw [hk]
    exact List.getElem_mem _

end Logs

end Nanvix.Lib.Ring
