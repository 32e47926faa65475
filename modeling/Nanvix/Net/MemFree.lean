import Nanvix.Net.MemCalls

/-! The release of a block. The block is marked as free and then made one with the neighbours that are
free as well. -/

namespace Nanvix.Net.Mem

open Nanvix.Lib Blocks

variable {H : Heap} {s s' : State} {m : ℕ → UInt8} {x : ℕ} {B B' : Set ℕ}

/-- Free blocks become one, and the blocks in use stay. -/
structure Plugs (H : Heap) (s : State) (B : Set ℕ) (s' : State) (B' : Set ℕ) : Prop where
  shape : Shape H s'.ram B'
  lowest : Lowest H s' B'
  owns : ∀ w, Owns s'.ram B' w ↔ Owns s.ram B w
  keeps : ∀ w, Owns s.ram B w → Keeps s.ram s'.ram w

theorem Plugs.refl (hs : Shape H s.ram B) (hl : Lowest H s B) : Plugs H s B s B :=
  ⟨hs, hl, fun _ => Iff.rfl, fun _ _ => ⟨rfl, rfl, fun _ _ _ => rfl⟩⟩

section Plug
variable (hs : Shape H s.ram B) (hl : Lowest H s B) (hx : x ∈ B)
include hs hl hx

/-- A free block and the free block behind it become one. -/
theorem plugs_merge (hloose : Loose (header s.ram) H.ramEnd x) {z y : ℕ} (hz : (header s.ram x).next = z)
    (hy : (header s.ram z).next = y) (hm : m = relink H (setNext s.ram x y) y x) :
    Plugs H s B { s with ram := m } {w ∈ B | w ≤ x ∨ y ≤ w} ∧
      header m x = { header s.ram x with next := y } ∧
      ∀ w ∈ {w ∈ B | w ≤ x ∨ y ≤ w}, Loose (header m) H.ramEnd w →
        w = x ∧ Loose (header s.ram) H.ramEnd z ∨
          w ≠ x ∧ Loose (header s.ram) H.ramEnd w ∧ (header m w).next = (header s.ram w).next := by
  subst hm
  obtain ⟨hne, hxu, hzu⟩ := hloose
  obtain ⟨hzB, -⟩ := hs.laid.next hx hne
  rw [hz] at hne hzu hzB
  obtain ⟨hshape, hkeeps, hx'⟩ := hs.merge hx hz hzB hy
  have hpos := H.gap_pos
  have hxz := hs.laid.gap hx
  have hzy := hs.laid.gap hzB
  have hlow := hl.le x hx hxu
  -- only the second one of the two is not a block any more
  have hclear : ∀ w ∈ B, w = x ∨ w = z ∨ w < x ∨ y ≤ w := fun w hw => by
    have := hs.laid.apart hx hw
    have := hs.laid.apart hzB hw
    omega
  have hused : ∀ w ∈ B, w ≤ x ∨ y ≤ w →
      (header (relink H (setNext s.ram x y) y x) w).used = (header s.ram w).used := fun w hw hin => by
    by_cases hwx : w = x
    · rw [hwx, hx']
    · exact (hkeeps w hw (by omega)).used
  refine ⟨⟨hshape, ⟨?_, ?_⟩, fun w => ⟨?_, ?_⟩, ?_⟩, hx', ?_⟩
  · exact hl.mem.imp_left fun hm => ⟨hm, .inl hlow⟩
  · rintro w ⟨hw, hin⟩ hu
    exact hl.le w hw (by rwa [← hused w hw hin])
  · rintro ⟨⟨hw, hin⟩, hu⟩
    exact ⟨hw, by rwa [← hused w hw hin]⟩
  · rintro ⟨hw, hu⟩
    have hin : w ≤ x ∨ y ≤ w := by
      rcases hclear w hw with rfl | rfl | h
      · exact .inl (Nat.le_refl w)
      · rw [hzu] at hu
        cases hu
      · omega
    exact ⟨⟨hw, hin⟩, by rwa [hused w hw hin]⟩
  · rintro w ⟨hw, hu⟩
    rcases hclear w hw with rfl | rfl | h
    · rw [hxu] at hu
      cases hu
    · rw [hzu] at hu
      cases hu
    · exact hkeeps w hw h
  · rintro w ⟨hw, hin⟩ ⟨hwne, hwu, hnu⟩
    rw [hused w hw hin] at hwu
    by_cases hwx : w = x
    · refine .inl ⟨hwx, ?_⟩
      rw [hwx, hx'] at hwne hnu
      have hyB := (hs.laid.next hzB (by rwa [hy])).1
      rw [hy] at hyB
      rw [hused y hyB (.inr (Nat.le_refl y))] at hnu
      exact ⟨by rwa [hy], hzu, by rwa [hy]⟩
    · have hnext := (hkeeps w hw (by omega)).next
      rw [hnext] at hwne hnu
      have hnB := (hs.laid.next hw hwne).1
      have := hs.laid.apart hw hx
      have := hs.laid.gap hw
      rw [hused _ hnB (by omega)] at hnu
      exact .inr ⟨hwx, ⟨hwne, hwu, hnu⟩, hnext⟩

/-- A free block is made one with the next one if that one is free. -/
theorem plugForward_eq (hxu : (header s.ram x).used = false)
    (hloose : ∀ w ∈ B, Loose (header s.ram) H.ramEnd w → w = x ∨ (header s.ram w).next = x) :
    ∃ B', Plugs H s B (plugForward H s x) B' ∧ x ∈ B' ∧ (header (plugForward H s x).ram x).used = false ∧
      ∀ w ∈ B', Loose (header (plugForward H s x).ram) H.ramEnd w →
        (header (plugForward H s x).ram w).next = x := by
  have hgap := hs.laid.gap hx
  have hsix := H.six_le_gap
  by_cases hc : Loose (header s.ram) H.ramEnd x
  · have hzB := (hs.laid.next hx hc.1).1
    have hzgap := hs.laid.gap hzB
    set z := (header s.ram x).next with hz
    have hlow := hl.le x hx hxu
    have hplug : plugForward H s x =
        { s with ram := relink H (setNext s.ram x (header s.ram z).next) (header s.ram z).next x } := by
      unfold plugForward
      rw [if_pos ⟨by omega, hc.2.2, hc.1⟩, ← hz, if_neg (by omega)]
      dsimp only
      rw [header_setNext_of_apart (by omega)]
    obtain ⟨hplugs, hx', hloose'⟩ := plugs_merge hs hl hx hc hz.symm rfl rfl
    rw [hplug]
    refine ⟨_, hplugs, ⟨hx, .inl (Nat.le_refl x)⟩, by rw [hx']; exact hxu, fun w hw hwl => ?_⟩
    rcases hloose' w hw hwl with ⟨-, hzl⟩ | ⟨hwx, hwl', hnext⟩
    · have := hloose z hzB hzl
      omega
    · rw [hnext]
      exact (hloose w hw.1 hwl').resolve_left hwx
  · have hplug : plugForward H s x = s := if_neg fun h => hc ⟨h.2.2, hxu, h.2.1⟩
    rw [hplug]
    refine ⟨B, .refl hs hl, hx, hxu, fun w hw hwl => ?_⟩
    refine (hloose w hw hwl).resolve_left ?_
    rintro rfl
    exact hc hwl

/-- A free block is made one with the previous one if that one is free. -/
theorem plugBackward_eq (hxu : (header s.ram x).used = false)
    (hloose : ∀ w ∈ B, Loose (header s.ram) H.ramEnd w → (header s.ram w).next = x) :
    ∃ B', Plugs H s B (plugBackward H s x) B' ∧
      ∀ w ∈ B', ¬ Loose (header (plugBackward H s x).ram) H.ramEnd w := by
  have hend := hs.laid.ne_end H.gap_pos hx
  have hsix := H.six_le_gap
  have hgapx := hs.laid.gap hx
  by_cases hc : (header s.ram x).prev ≠ x ∧ (header s.ram (header s.ram x).prev).used = false
  · have hx0 : x ≠ 0 := by
      rintro rfl
      exact hc.1 hs.laid.first
    obtain ⟨hpB, hpx⟩ := hs.laid.prev H.gap_pos hx hx0
    set p := (header s.ram x).prev with hp
    have hgap := hs.laid.gap hpB
    have hlow := hl.le p hpB hc.2
    have hpl : Loose (header s.ram) H.ramEnd p := ⟨by rwa [hpx], hc.2, by rwa [hpx]⟩
    have hplug : plugBackward H s x =
        { s with ram := relink H (setNext s.ram p (header s.ram x).next) (header s.ram x).next p } := by
      unfold plugBackward
      rw [if_pos hc, ← hp, if_neg (by omega)]
      dsimp only
      rw [header_setNext_of_apart (by omega)]
    obtain ⟨hplugs, -, hloose'⟩ := plugs_merge hs hl hpB hpl hpx rfl rfl
    rw [hplug]
    refine ⟨_, hplugs, fun w hw hwl => ?_⟩
    rcases hloose' w hw hwl with ⟨-, hxl⟩ | ⟨hwp, hwl', -⟩
    · have := hloose x hx hxl
      omega
    · have hnext := hloose w hw.1 hwl'
      have := (hs.laid.next hw.1 hwl'.1).2
      rw [hnext] at this
      exact hwp this.symm
  · have hplug : plugBackward H s x = s := if_neg hc
    rw [hplug]
    refine ⟨B, .refl hs hl, fun w hw hwl => hc ?_⟩
    have hnext := hloose w hw hwl
    have hback := (hs.laid.next hw hwl.1).2
    have hgap := hs.laid.gap hw
    rw [hnext] at hback hgap
    rw [hback]
    exact ⟨by omega, hwl.2.1⟩

end Plug

/-- A block of a heap passes the test of its links. -/
theorem memLinkValid_eq (hs : Shape H m B) (hx : x ∈ B) : memLinkValid H m x = true := by
  have hnext := hs.laid.le hx
  have hback : (header m x).next = H.ramEnd ∨ (header m (header m x).next).prev = x :=
    (em _).imp_right fun hne => (hs.laid.next hx hne).2
  have hforth : (header m x).prev ≤ H.ramEnd ∧
      ((header m x).prev = x ∨ (header m (header m x).prev).next = x) := by
    by_cases hx0 : x = 0
    · subst hx0
      rw [hs.laid.first]
      exact ⟨Nat.zero_le _, .inl rfl⟩
    · obtain ⟨hp, hpn⟩ := hs.laid.prev H.gap_pos hx hx0
      exact ⟨(Nat.le_add_right _ _).trans ((hs.laid.gap hp).trans (hs.laid.le hp)), .inr hpn⟩
  simp [memLinkValid, hnext, hback, hforth]

/-- `mem_free` releases a block in use, and leaves the other ones in use alone. -/
theorem memFree_eq (hg : Good H s B) (hx : Owns s.ram B x) :
    ∃ s' B', memFree H s (some ((x + H.sizeofMem : ℕ) : ℤ)) = .ok s' ∧ Good H s' B' ∧
      (∀ w, Owns s'.ram B' w ↔ Owns s.ram B w ∧ w ≠ x) ∧
      ∀ w, Owns s.ram B w → w ≠ x → Keeps s.ram s'.ram w := by
  obtain ⟨hx, hxu⟩ := hx
  have hs := hg.shape
  have hgap := hs.laid.gap hx
  have hle := hs.laid.le hx
  unfold Heap.gap at hgap
  obtain ⟨hshape, hkeeps⟩ := hs.mark hx false
  have hx' : header (setUsed s.ram x false) x = { header s.ram x with used := false } := header_setUsed_self
  set s₁ : State := ⟨setUsed s.ram x false, if x < s.lfree then x else s.lfree⟩ with hs₁
  have hlfree : s₁.lfree = if x < s.lfree then x else s.lfree := rfl
  have hlowest : Lowest H s₁ B := by
    refine ⟨?_, fun w hw hu => ?_⟩
    · rw [hlfree]
      split_ifs
      · exact .inl hx
      · exact hg.lowest.mem
    · rw [hlfree]
      by_cases hwx : w = x
      · split_ifs <;> omega
      · have := hg.lowest.le w hw (by rwa [← (hkeeps w hw hwx).used])
        split_ifs <;> omega
  have hloose : ∀ w ∈ B, Loose (header s₁.ram) H.ramEnd w → w = x ∨ (header s₁.ram w).next = x := by
    rintro w hw ⟨hne, hu, hnu⟩
    by_contra hno
    push Not at hno
    have hk := hkeeps w hw hno.1
    have hnx := hno.2
    have hnext : (header s₁.ram w).next = (header s.ram w).next := hk.next
    rw [hnext] at hne hnu hnx
    have hnB := (hs.laid.next hw hne).1
    exact hg.tight w hw ⟨hne, hk.used.symm.trans hu, (hkeeps _ hnB hnx).used.symm.trans hnu⟩
  obtain ⟨B₁, h₁, hx₁, hxu₁, hloose₁⟩ := plugForward_eq hshape hlowest hx (by rw [hx']) hloose
  obtain ⟨B₂, h₂, htight⟩ := plugBackward_eq h₁.shape h₁.lowest hx₁ hxu₁ hloose₁
  have howns : ∀ w, Owns s₁.ram B w ↔ Owns s.ram B w ∧ w ≠ x := by
    intro w
    by_cases hwx : w = x
    · subst hwx
      refine ⟨fun h => ?_, fun h => absurd rfl h.2⟩
      have hu : (header (setUsed s.ram w false) w).used = true := h.2
      rw [hx'] at hu
      cases hu
    · rw [and_iff_left hwx]
      exact and_congr_right fun hw => by rw [(hkeeps w hw hwx).used]
  refine ⟨plugBackward H (plugForward H s₁ x) x, B₂, ?_, ⟨h₂.shape, h₂.lowest, htight⟩,
    fun w => ((h₂.owns w).trans (h₁.owns w)).trans (howns w), fun w hw hwx => ?_⟩
  · have hax : ((x + H.sizeofMem : ℕ) : ℤ) % H.alignment = 0 := Int.emod_eq_zero_of_dvd
      (Int.natCast_dvd_natCast.mpr (Nat.dvd_add (hs.aligned x hx) H.dvd_sizeofMem))
    have hmem : (((x + H.sizeofMem : ℕ) : ℤ) - H.sizeofMem).toNat = x := by omega
    have hpos := H.minAligned_pos
    have hfree : (header s₁.ram x).used = false := by rw [hx']
    have hnext : (header s₁.ram x).next ≤ H.ramEnd := hshape.laid.le hx
    unfold memFree
    dsimp only
    rw [if_neg (not_not.mpr hax), if_neg (by omega), hmem, hxu, memLinkValid_eq hs hx]
    simp only [Bool.true_eq_false, if_false]
    rw [← hs₁, plugHoles, if_neg (by omega), hfree]
    simp only [Bool.false_eq_true, if_false]
    exact if_neg (Nat.not_lt.mpr hnext)
  · have hw₁ := (howns w).mpr ⟨hw, hwx⟩
    exact ((hkeeps w hw.1 hwx).trans (h₁.keeps w hw₁)).trans (h₂.keeps w ((h₁.owns w).mpr hw₁))

end Nanvix.Net.Mem
