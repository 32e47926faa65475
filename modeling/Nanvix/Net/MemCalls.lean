import Nanvix.Net.MemBlocks

/-! The allocation of a block: the first free block that is big enough is taken, and what it does not
need becomes a free block again. -/

namespace Nanvix.Net.Mem

open Nanvix.Lib Blocks

variable {H : Heap} {s s' : State} {m m' : ℕ → UInt8} {x y z w size : ℕ} {B : Set ℕ}

/-- `lfree` is at a block or at the end, and no free block lies below it. -/
structure Lowest (H : Heap) (s : State) (B : Set ℕ) : Prop where
  mem : s.lfree ∈ B ∨ s.lfree = H.ramEnd
  le : ∀ x ∈ B, (header s.ram x).used = false → s.lfree ≤ x

/-- The heap has these blocks between two calls: no two free ones are neighbours. -/
structure Good (H : Heap) (s : State) (B : Set ℕ) : Prop where
  shape : Shape H s.ram B
  lowest : Lowest H s B
  tight : ∀ x ∈ B, ¬ Loose (header s.ram) H.ramEnd x

def Owns (m : ℕ → UInt8) (B : Set ℕ) (x : ℕ) : Prop := x ∈ B ∧ (header m x).used = true

theorem Owns.ne_of_free (h : Owns m B w) (hx : (header m x).used = false) : w ≠ x := by
  rintro rfl
  rw [h.2] at hx
  cases hx

theorem header_memInit (H : Heap) (m : ℕ → UInt8) :
    header (memInit H m).ram 0 = ⟨H.ramEnd, 0, false⟩ ∧ (header (memInit H m).ram H.ramEnd).used = true := by
  have hgap := H.gap_le
  have hend := H.ramEnd_lt
  have hsix := H.six_le_gap
  constructor
  · simp (disch := omega) only [memInit, header_setPrev_of_apart, header_setNext_of_apart,
      header_setUsed_of_apart, header_setUsed_self, header_setPrev_self, header_setNext_self]
  · simp (disch := omega) only [memInit, header_setPrev_self, header_setNext_self, header_setUsed_self]

theorem good_memInit (H : Heap) (m : ℕ → UInt8) : Good H (memInit H m) {0} := by
  have hgap := H.gap_le
  obtain ⟨hfirst, hlast⟩ := header_memInit H m
  have hlaid : Laid (header (memInit H m).ram) H.gap H.ramEnd {0} := by
    refine ⟨rfl, by rw [hfirst], ?_, ?_, ?_, ?_⟩
    · rintro x rfl
      rwa [hfirst, Nat.zero_add]
    · rintro x rfl
      rw [hfirst]
    · rintro x y rfl rfl hlt
      omega
    · rintro x rfl hne
      exact absurd (by rw [hfirst]) hne
  refine ⟨⟨hlaid, ?_, hlast⟩, ⟨.inl rfl, fun x _ _ => Nat.zero_le x⟩, ?_⟩
  · rintro x rfl
    exact dvd_zero _
  · rintro x rfl ⟨hne, -⟩
    exact hne (by rw [hfirst])

/-! ### Allocation -/

theorem Shape.room_eq (hs : Shape H m B) (hx : x ∈ B) :
    room H m x = (header m x).next - (x + H.sizeofMem) := by
  have hgap := hs.laid.gap hx
  have hlt := hs.next_lt hx
  unfold Heap.gap at hgap
  unfold room
  omega

structure Takes (H : Heap) (s : State) (B : Set ℕ) (x size : ℕ) (s' : State) (B' : Set ℕ) : Prop where
  good : Good H s' B'
  owns : ∀ w, Owns s'.ram B' w ↔ w = x ∨ Owns s.ram B w
  keeps : ∀ w, Owns s.ram B w → Keeps s.ram s'.ram w
  fits : x + H.sizeofMem + size ≤ (header s'.ram x).next
  /-- What is left over could not hold another block. -/
  snug : (header s'.ram x).next < x + H.sizeofMem + size + H.gap

/-- A descriptor at `z` is put behind the one at `x`, whose block is marked as used. -/
theorem linkIn_spec (m : ℕ → UInt8) (hz : x + 5 ≤ z) (hzy : z + 5 ≤ y) (hy : y < 2 ^ 16)
    (hm : m' = setUsed (setNext (setPrev (setNext (setUsed m z false) z y) z x) x z) x true) :
    header m' x = ⟨z, (header m x).prev, true⟩ ∧ header m' z = ⟨y, x, false⟩ ∧ Within m m' x y := by
  subst hm
  refine ⟨?_, ?_, ?_⟩
  · simp (disch := omega) only [header_setUsed_self, header_setNext_self, header_setPrev_of_apart,
      header_setNext_of_apart, header_setUsed_of_apart]
  · simp (disch := omega) only [header_setUsed_of_apart, header_setNext_of_apart, header_setPrev_self,
      header_setNext_self, header_setUsed_self]
  · exact ((((within_setUsed m false (by omega) hzy).trans (within_setNext _ y (by omega) hzy)).trans
      (within_setPrev _ x (by omega) hzy)).trans (within_setNext _ z (Nat.le_refl x) (by omega))).trans
      (within_setUsed _ true (Nat.le_refl x) (by omega))

/-- A free block is marked as used and keeps its place; of what it does not need, a free block may be cut. -/
theorem Good.takes {B' : Set ℕ} (hg : Good H s B) (hx : x ∈ B) (hfree : (header s.ram x).used = false)
    (hs : Shape H m B') (hkeeps : ∀ w ∈ B, w ≠ x → Keeps s.ram m w) (hxu : (header m x).used = true)
    (hfits : x + H.sizeofMem + size ≤ (header m x).next)
    (hsnug : (header m x).next < x + H.sizeofMem + size + H.gap) (hsub : B ⊆ B')
    (hnew : ∀ w ∈ B', w ∉ B → x < w ∧ header m w = ⟨(header s.ram x).next, x, false⟩) :
    Takes H s B x size { s with ram := m } B' := by
  have hl := hg.shape.laid
  -- a block that is free was free before, unless it is new
  have hold : ∀ w ∈ B, (header m w).used = false → w ≠ x ∧ (header s.ram w).used = false := by
    intro w hw hu
    have hwx : w ≠ x := by
      rintro rfl
      rw [hxu] at hu
      cases hu
    exact ⟨hwx, by rwa [← (hkeeps w hw hwx).used]⟩
  refine ⟨⟨hs, ⟨hg.lowest.mem.imp_left fun h => hsub h, fun w hw hu => ?_⟩, ?_⟩, fun w => ?_,
    fun w hw => hkeeps w hw.1 (hw.ne_of_free hfree), hfits, hsnug⟩
  · by_cases hwB : w ∈ B
    · exact hg.lowest.le w hwB (hold w hwB hu).2
    · exact (hg.lowest.le x hx hfree).trans (hnew w hw hwB).1.le
  · rintro w hw ⟨hne, hu, hnu⟩
    by_cases hwB : w ∈ B
    · obtain ⟨hwx, hu⟩ := hold w hwB hu
      rw [(hkeeps w hwB hwx).next] at hne hnu
      exact hg.tight w hwB ⟨hne, hu, (hold _ (hl.next hwB hne).1 hnu).2⟩
    · rw [(hnew w hw hwB).2] at hne hnu
      exact hg.tight x hx ⟨hne, hfree, (hold _ (hl.next hx hne).1 hnu).2⟩
  · by_cases hwx : w = x
    · subst hwx
      exact ⟨fun _ => .inl rfl, fun _ => ⟨hsub hx, hxu⟩⟩
    · rw [or_iff_right hwx]
      refine ⟨fun ⟨hw, hu⟩ => ?_, fun ⟨hw, hu⟩ => ⟨hsub hw, by rwa [(hkeeps w hw hwx).used]⟩⟩
      by_cases hwB : w ∈ B
      · exact ⟨hwB, by rwa [← (hkeeps w hwB hwx).used]⟩
      · rw [(hnew w hw hwB).2] at hu
        cases hu

/-- The lowest free block is found again. -/
theorem adjustLfree_eq (hg : Good H s B) (x : ℕ) :
    ∃ f, adjustLfree H s x = .ok { s with lfree := f } ∧ Good H { s with lfree := f } B := by
  have hs := hg.shape
  by_cases hx : x = s.lfree
  · obtain ⟨cur, hseek, hstop, hmem, hle, hpast⟩ := hs.laid.seek_eq (k := H.ramEnd + 1) H.gap_pos
      (fun cur => !((header s.ram cur).used && cur != H.ramEnd)) (by simp) hg.lowest.mem (by omega)
    have hcur : cur = H.ramEnd ∨ (header s.ram cur).used = false := by
      by_cases hend : cur = H.ramEnd
      · exact .inl hend
      · exact .inr (by simpa [hend] using hstop)
    refine ⟨cur, ?_, hs, ⟨hmem, fun w hw hu => ?_⟩, hg.tight⟩
    · unfold adjustLfree
      rw [if_pos hx]
      dsimp only
      rw [hseek]
      exact if_pos hcur
    · -- the walk has passed blocks in use only
      by_contra hlt
      have := hpast w hw (hg.lowest.le w hw hu) (Nat.lt_of_not_le hlt)
      simp [hu] at this
  · exact ⟨s.lfree, if_neg hx, hg⟩

section Block
variable (hg : Good H s B) (hx : x ∈ B) (hfree : (header s.ram x).used = false)
  (hmin : H.minAligned ≤ size) (hdvd : H.alignment ∣ size)
include hg hx hfree hmin hdvd

theorem splitBlock_eq (hfit : x + H.sizeofMem + size + H.gap ≤ (header s.ram x).next) :
    ∃ s' B', splitBlock H s x size = .ok s' ∧ Takes H s B x size s' B' := by
  have hs := hg.shape
  have hsix := H.six_le_sizeofMem
  have hlt := hs.next_lt hx
  have hle := hs.laid.le hx
  have hgap : H.gap = H.sizeofMem + H.minAligned := rfl
  set y := (header s.ram x).next with hy
  set z := x + H.sizeofMem + size with hz
  have hzmod : z % 2 ^ 16 = z := Nat.mod_eq_of_lt (by omega)
  obtain ⟨m', hm'⟩ : ∃ m', m' = setUsed (setNext (setPrev (setNext (setUsed s.ram z false) z y) z x) x z) x true :=
    ⟨_, rfl⟩
  obtain ⟨hx₁, hz₁, hin⟩ := linkIn_spec s.ram (by omega) (by omega) hlt hm'
  have hza : H.alignment ∣ z := Nat.dvd_add (Nat.dvd_add (hs.aligned x hx) H.dvd_sizeofMem) hdvd
  obtain ⟨hshape, hkeeps, hx', hz'⟩ := hs.split hx hy.symm (by omega) (by omega) hza hin hx₁ hz₁
  refine ⟨{ s with ram := relink H m' y z }, insert z B, ?_, hg.takes hx hfree hshape hkeeps (by rw [hx'])
    (by rw [hx']) (by rw [hx']; exact Nat.lt_add_of_pos_right H.gap_pos) (Set.subset_insert z B) ?_⟩
  · have hynext : (header (setUsed s.ram z false) x).next = y := by rw [header_setUsed_of_apart (by omega)]
    unfold splitBlock
    simp only [← hz, hzmod, hynext, if_neg (show ¬ z = H.ramEnd by omega), ← hm', hz₁]
  · rintro w (rfl | hw) hnot
    · exact ⟨by omega, hz'⟩
    · exact absurd hw hnot

theorem takeBlock_eq (hfit : x + H.sizeofMem + size ≤ (header s.ram x).next) :
    ∃ s' B', takeBlock H s x size = .ok s' ∧ Takes H s B x size s' B' := by
  have hroom := hg.shape.room_eq hx
  have hgap : H.gap = H.sizeofMem + H.minAligned := rfl
  by_cases hsplit : size + H.sizeofMem + H.minAligned ≤ room H s.ram x
  · obtain ⟨s', B', hs', htakes⟩ := splitBlock_eq hg hx hfree hmin hdvd (by omega)
    exact ⟨s', B', by rw [takeBlock, if_pos hsplit, hs'], htakes⟩
  · obtain ⟨hshape, hkeeps⟩ := hg.shape.mark hx true
    have hx' : header (setUsed s.ram x true) x = { header s.ram x with used := true } := header_setUsed_self
    exact ⟨_, B, by rw [takeBlock, if_neg hsplit], hg.takes hx hfree hshape hkeeps (by rw [hx'])
      (by rw [hx']; exact hfit) (by rw [hx']; dsimp only; omega) (Set.Subset.refl B)
      fun w hw hnot => absurd hw hnot⟩

/-- What the block at `x` becomes when `size` bytes of it are allocated. -/
theorem allocAt_eq (hfit : x + H.sizeofMem + size ≤ (header s.ram x).next) :
    ∃ s' B', allocAt H s x size = .ok (some (x + H.sizeofMem), s') ∧ Takes H s B x size s' B' := by
  obtain ⟨s₁, B', htake, ht⟩ := takeBlock_eq hg hx hfree hmin hdvd hfit
  obtain ⟨f, hadjust, hgood⟩ := adjustLfree_eq ht.good x
  obtain ⟨hxB, -⟩ := (ht.owns x).mpr (.inl rfl)
  have hend := ht.good.shape.laid.le hxB
  have hfits := ht.fits
  have hax := hg.shape.aligned x hx
  have haligned : ¬ ((x + H.sizeofMem) % H.alignment ≠ 0 ∨ x % H.alignment ≠ 0) := by
    rw [Nat.mod_eq_zero_of_dvd (Nat.dvd_add hax H.dvd_sizeofMem), Nat.mod_eq_zero_of_dvd hax]
    simp
  refine ⟨{ s₁ with lfree := f }, B', ?_, hgood, ht.owns, ht.keeps, hfits, ht.snug⟩
  unfold allocAt
  rw [htake]
  dsimp only
  rw [hadjust]
  dsimp only
  rw [if_neg (by omega), if_neg haligned]

end Block

/-- `mem_malloc` takes the first free block that is big enough, and fails if there is none. -/
theorem memMalloc_eq (hg : Good H s B) (n : UInt16) :
    (∃ s', memMalloc H s n = .ok (none, s') ∧ Good H s' B ∧ s'.ram = s.ram ∧
      (n ≠ 0 → ∀ x ∈ B, (header s.ram x).used = false →
        (header s.ram x).next < x + H.sizeofMem + H.need n.toNat)) ∨
    ∃ x s' B', memMalloc H s n = .ok (some (x + H.sizeofMem), s') ∧ x ∈ B ∧
      (header s.ram x).used = false ∧ Takes H s B x (H.need n.toNat) s' B' := by
  have hs := hg.shape
  by_cases hn : n = 0
  · exact .inl ⟨s, by rw [memMalloc, if_pos hn], hg, rfl, fun h => absurd hn h⟩
  by_cases hbig : H.ramEnd < H.rounded n ∨ H.rounded n < n.toNat
  · refine .inl ⟨s, ?_, hg, rfl, fun _ x hx _ => ?_⟩
    · rw [memMalloc, if_neg hn]
      exact if_pos hbig
    · have := H.ramEnd_lt_need_of_refused n hbig
      have := hs.laid.le hx
      omega
  have hneed := H.rounded_eq_need n hbig
  rw [hneed] at hbig
  set size := H.need n.toNat with hsize
  obtain ⟨ptr, hseek, hstop, hmem, -, hpast⟩ := hs.laid.seek_eq (k := H.ramEnd + 1) H.gap_pos
    (scanStops H s.ram size) (by simp [scanStops]) hg.lowest.mem (by omega)
  have hmalloc : memMalloc H s n = if ptr < H.ramEnd - size then allocAt H s ptr size
      else .ok (none, s) := by
    rw [memMalloc, if_neg hn]
    simp only [hneed, if_neg hbig, hseek]
  by_cases hptr : ptr < H.ramEnd - size
  · right
    rw [if_pos hptr] at hmalloc
    have hx : ptr ∈ B := hmem.resolve_right (by omega)
    have hfit : (header s.ram ptr).used = false ∧ size ≤ room H s.ram ptr := by
      simpa [scanStops, hptr] using hstop
    have hgap := hs.laid.gap hx
    unfold Heap.gap at hgap
    obtain ⟨s', B', halloc, ht⟩ := allocAt_eq hg hx hfit.1 (H.minAligned_le_need n.toNat) (H.dvd_need n.toNat)
      (by have := hs.room_eq hx; omega)
    exact ⟨ptr, s', B', hmalloc.trans halloc, hx, hfit.1, ht⟩
  · left
    rw [if_neg hptr] at hmalloc
    refine ⟨s, hmalloc, hg, rfl, fun _ x hx hu => ?_⟩
    have hend := hs.laid.le hx
    by_cases hlt : x < ptr
    · have hnot := hpast x hx (hg.lowest.le x hx hu) hlt
      simp only [scanStops, hu, hs.room_eq hx] at hnot
      simp at hnot
      omega
    · have := H.six_le_sizeofMem
      omega

end Nanvix.Net.Mem
