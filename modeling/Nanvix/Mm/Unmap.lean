import Nanvix.Mm.Table

/-! Unmapping a page. Its page table goes away with its last entry, so that unmapping a page that
has just been mapped gives back the kernel page that was taken for it, and only then. -/

namespace Nanvix.Mm

open Nanvix.Lib Function

variable {P : Layout} {s s' s₁ : State} {u v f i j k : ℕ} {pgdir : Pgdir}

def Unmappable (P : Layout) (s : State) (pgdir : Pgdir) (v : ℕ) : Prop :=
  pgdir = .root ∧ P.IsUaddr v ∧ P.Aligned v ∧ translate P s v ≠ none

/-- `pte_present_set(pte, 0)` for the entry of `v` in the table in frame `k`. -/
def unset (P : Layout) (s : State) (k v : ℕ) : State :=
  { s with
    tables := update s.tables k
      (update (s.tables k) (P.pteIdx v)
        { s.tables k (P.pteIdx v) with present := false }) }

/-- The page table of `v`, which is in frame `k`, is released. -/
def dropTable (P : Layout) (s : State) (k v : ℕ) : State :=
  { s with
    pgdir := update s.pgdir (P.pdeIdx v) { s.pgdir (P.pdeIdx v) with present := false }
    kpages := update s.kpages (P.kpageId k) 0 }

theorem tabOf_unset (P : Layout) (s : State) (k v k' j : ℕ) :
    tabOf (unset P s k v) k' j = if k' = k ∧ j = P.pteIdx v then none else tabOf s k' j := by
  unfold tabOf
  by_cases hk : k' = k
  · subst hk
    by_cases hj : j = P.pteIdx v
    · subst hj
      simp [unset, Entry.target]
    · simp [unset, hj]
  · simp [unset, hk]

theorem dirOf_dropTable (P : Layout) (s : State) (k v : ℕ) :
    dirOf (dropTable P s k v) = update (dirOf s) (P.pdeIdx v) none := by
  funext i
  unfold dirOf
  by_cases hi : i = P.pdeIdx v
  · subst hi
    simp [dropTable, Entry.target]
  · simp [dropTable, hi]

/-- `pgtab_unmap` releases a page table if it is empty. -/
theorem pgtabUnmap_cases (hd : dirOf s (P.pdeIdx v) = some k) (hk : P.IsKpage k)
    (hcount : s.kpages (P.kpageId k) = 1) :
    ((pgtabUnmap P s v).2 = s ∧ ∃ j < P.scanLength, tabOf s k j ≠ none) ∨
      ((pgtabUnmap P s v).2 = dropTable P s k v ∧ ∀ j < P.scanLength, tabOf s k j = none) := by
  obtain ⟨hpresent, rfl⟩ := Entry.target_eq_some.mp hd
  unfold pgtabUnmap
  dsimp only
  rw [if_neg (not_not.mpr hpresent)]
  by_cases hany : ((List.range P.scanLength).any fun i =>
      (s.tables (s.pgdir (P.pdeIdx v)).frame i).present) = true
  · rw [if_pos hany]
    obtain ⟨j, hj, hp⟩ := List.any_eq_true.mp hany
    exact .inl ⟨rfl, j, List.mem_range.mp hj, fun hn => Entry.target_eq_none.mp hn hp⟩
  · rw [if_neg hany, kpagePut, if_neg (not_not.mpr hk)]
    dsimp only
    rw [hcount, if_neg Nat.one_ne_zero]
    refine .inr ⟨rfl, fun j hj => Entry.target_eq_none.mpr fun hp => hany ?_⟩
    exact List.any_eq_true.mpr ⟨j, List.mem_range.mpr hj, hp⟩

/-- What unmapping the page of `v` does to the tables, where its own is in frame `k`. -/
structure Unmapped (P : Layout) (s : State) (v k : ℕ) (s' : State) : Prop where
  found : dirOf s (P.pdeIdx v) = some k
  dir : ∀ i, i ≠ P.pdeIdx v → dirOf s' i = dirOf s i
  tab : ∀ k' j, tabOf s' k' j = if k' = k ∧ j = P.pteIdx v then none else tabOf s k' j
  out : (dirOf s' (P.pdeIdx v) = some k ∧ s'.kpages = s.kpages ∧
      ∃ j < P.scanLength, tabOf s' k j ≠ none) ∨
    (dirOf s' (P.pdeIdx v) = none ∧ s'.kpages = update s.kpages (P.kpageId k) 0 ∧
      ∀ j < P.scanLength, tabOf s' k j = none)
  frames : s'.frames = s.frames

theorem pgtabUnmap_unmapped (ht : Tables P s) (hv : P.IsUaddr v)
    (hd : dirOf s (P.pdeIdx v) = some k) :
    Unmapped P s v k (pgtabUnmap P (unset P s k v) v).2 := by
  obtain ⟨hk, hcount⟩ := ht.page ⟨v, hv, rfl⟩ hd
  have hd' : dirOf (unset P s k v) (P.pdeIdx v) = some k := hd
  rcases pgtabUnmap_cases hd' hk hcount with ⟨hout, hused⟩ | ⟨hout, hempty⟩
  · rw [hout]
    exact ⟨hd, fun _ _ => rfl, tabOf_unset P s k v, .inl ⟨hd, rfl, hused⟩, rfl⟩
  · rw [hout]
    refine ⟨hd, fun i hi => ?_, tabOf_unset P s k v, .inr ⟨?_, rfl, hempty⟩, rfl⟩
    · rw [dirOf_dropTable, update_of_ne hi]
      rfl
    · rw [dirOf_dropTable, update_self]

/-- `upage_unmap` returns the frame of the page and unmaps it, or does nothing. -/
theorem upageUnmap_cases (ht : Tables P s) (pgdir : Pgdir) (v : ℕ) :
    (∃ f k s', upageUnmap P s pgdir v = (f, s') ∧ Unmappable P s pgdir v ∧
        translate P s v = some f ∧ Unmapped P s v k s') ∨
      (upageUnmap P s pgdir v = (P.frameNull, s) ∧ ¬ Unmappable P s pgdir v) := by
  unfold upageUnmap
  cases pgdir with
  | null =>
    rw [if_pos rfl]
    exact .inr ⟨rfl, fun h => nomatch h.1⟩
  | root =>
    rw [if_neg (by decide)]
    by_cases hu : P.IsUaddr v
    · by_cases ha : P.Aligned v
      · rw [if_neg (not_not.mpr hu), if_neg (not_not.mpr ha)]
        cases hd : dirOf s (P.pdeIdx v) with
        | none =>
          rw [if_pos (Entry.target_eq_none.mp hd)]
          exact .inr ⟨rfl, fun h => h.2.2.2 (TwoLevel.lookup_of_none hd)⟩
        | some k =>
          have hlook : translate P s v = tabOf s k (P.pteIdx v) := TwoLevel.lookup_of_some hd
          obtain ⟨hpresent, hk⟩ := Entry.target_eq_some.mp hd
          rw [if_neg (not_not.mpr hpresent), hk]
          dsimp only
          cases htab : tabOf s k (P.pteIdx v) with
          | none =>
            rw [if_pos (Entry.target_eq_none.mp htab)]
            exact .inr ⟨rfl, fun h => h.2.2.2 (hlook.trans htab)⟩
          | some f =>
            obtain ⟨hp, rfl⟩ := Entry.target_eq_some.mp htab
            rw [if_neg (not_not.mpr hp)]
            have htr := hlook.trans htab
            exact .inl ⟨_, k, _, rfl, ⟨rfl, hu, ha, by simp [htr]⟩, htr,
              pgtabUnmap_unmapped ht hu hd⟩
      · rw [if_neg (not_not.mpr hu), if_pos ha]
        exact .inr ⟨rfl, fun h => ha h.2.2.1⟩
    · rw [if_pos hu]
      exact .inr ⟨rfl, fun h => hu h.2.1⟩

namespace Unmapped

theorem lookup_eq (h : Unmapped P s v k s') (ht : Tables P s) (hv : P.IsUaddr v)
    (hi : UserIdx P i) (hj : j < P.scanLength) :
    TwoLevel.lookup (dirOf s') (tabOf s') i j =
      if i = P.pdeIdx v ∧ j = P.pteIdx v then none
      else TwoLevel.lookup (dirOf s) (tabOf s) i j := by
  have hown : tabOf s' k j =
      if j = P.pteIdx v then none else TwoLevel.lookup (dirOf s) (tabOf s) (P.pdeIdx v) j := by
    rw [h.tab, TwoLevel.lookup_of_some h.found]
    simp only [true_and]
  refine TwoLevel.lookup_set (h.dir i) (fun hiv k' hk' => ?_) ?_
  · rw [h.tab, if_neg]
    rintro ⟨rfl, -⟩
    exact hiv (ht.inj hi ⟨v, hv, rfl⟩ hk' h.found)
  · rw [← hown]
    rcases h.out with ⟨hd, -⟩ | ⟨hd, -, hempty⟩
    · rw [TwoLevel.lookup_of_some hd]
    · rw [TwoLevel.lookup_of_none hd, hempty j hj]

theorem translate_eq (h : Unmapped P s v k s') (ht : Tables P s) (hv : P.IsUaddr v)
    (hu : P.IsUaddr u) :
    translate P s' u = if u / P.pageSize = v / P.pageSize then none else translate P s u := by
  rw [translate, h.lookup_eq ht hv ⟨u, hu, rfl⟩ (P.pteIdx_lt u)]
  exact if_congr Layout.idx_eq_iff rfl rfl

theorem dirOf_of_some (h : Unmapped P s v k s') {k' : ℕ} (hd : dirOf s' i = some k') :
    dirOf s i = some k' := by
  by_cases hi : i = P.pdeIdx v
  · subst hi
    rcases h.out with ⟨hk, -⟩ | ⟨hk, -⟩
    · rw [h.found, ← hk, hd]
    · rw [hk] at hd
      cases hd
  · rwa [← h.dir i hi]

theorem tables (h : Unmapped P s v k s') (ht : Tables P s) (hv : P.IsUaddr v) : Tables P s' where
  page {i k'} hi hd := by
    obtain ⟨hk', hcount⟩ := ht.page hi (h.dirOf_of_some hd)
    refine ⟨hk', ?_⟩
    rcases h.out with ⟨-, hkp, -⟩ | ⟨hnone, hkp, -⟩
    · rw [hkp]
      exact hcount
    · rw [hkp, update_of_ne, hcount]
      -- The page that is released had the table of another entry.
      intro hid
      have hk := (ht.page ⟨v, hv, rfl⟩ h.found).1
      have hkk : k' = k := by
        rw [← Layout.kpageFrame_kpageId hk', hid, Layout.kpageFrame_kpageId hk]
      have hiv := ht.inj hi ⟨v, hv, rfl⟩ (h.dirOf_of_some hd) (hkk ▸ h.found)
      rw [hiv, hnone] at hd
      cases hd
  inj hi hj hdi hdj := ht.inj hi hj (h.dirOf_of_some hdi) (h.dirOf_of_some hdj)
  used {i k'} hi hd := by
    by_cases hk : k' = k
    · subst hk
      rcases h.out with ⟨-, -, hused⟩ | ⟨hnone, -⟩
      · exact hused
      · have hiv := ht.inj hi ⟨v, hv, rfl⟩ (h.dirOf_of_some hd) h.found
        rw [hiv, hnone] at hd
        cases hd
    · obtain ⟨j, hj, hjn⟩ := ht.used hi (h.dirOf_of_some hd)
      refine ⟨j, hj, ?_⟩
      rw [h.tab, if_neg fun h => hk h.1]
      exact hjn
  entry {i j k' g} hi hd hj htab := by
    rw [h.tab] at htab
    split_ifs at htab with hcase
    exact ht.entry hi (h.dirOf_of_some hd) hj htab

/-- Unmapping a page that has just been mapped gives its table back if it was made for it. -/
theorem kpages_eq {k' : ℕ} (h : Unmapped P s₁ v k' s') (hm : Mapped P s v f k s₁)
    (ht : Tables P s) (hv : P.IsUaddr v) (hn : translate P s v = none) : s'.kpages = s.kpages := by
  have hk : k' = k := by
    have := h.found
    rw [hm.dir, update_self] at this
    exact (Option.some.inj this).symm
  subst hk
  -- The entries of the table other than that of `v` are those it had.
  have htab : ∀ j < P.scanLength, j ≠ P.pteIdx v →
      tabOf s' k' j = TwoLevel.lookup (dirOf s) (tabOf s) (P.pdeIdx v) j := by
    intro j hj hne
    rw [h.tab, if_neg fun h => hne h.2, hm.own j hj hne]
  rcases hm.was with ⟨hd, hcount⟩ | ⟨hd, hcount⟩
  · have hkp : s₁.kpages = s.kpages := by
      funext i
      by_cases hi : i = P.kpageId k'
      · rw [hi, hm.page.2, hcount]
      · exact hm.kpages i hi
    rcases h.out with ⟨-, hout, -⟩ | ⟨-, -, hempty⟩
    · rw [hout, hkp]
    · obtain ⟨j, hj, hjn⟩ := ht.used ⟨v, hv, rfl⟩ hd
      have hne : j ≠ P.pteIdx v := by
        rintro rfl
        rw [translate, TwoLevel.lookup_of_some hd] at hn
        exact hjn hn
      have := hempty j hj
      rw [htab j hj hne, TwoLevel.lookup_of_some hd] at this
      exact absurd this hjn
  · rcases h.out with ⟨-, -, j, hj, hjn⟩ | ⟨-, hout, -⟩
    · have hne : j ≠ P.pteIdx v := by
        rintro rfl
        rw [h.tab, if_pos ⟨rfl, rfl⟩] at hjn
        exact hjn rfl
      rw [htab j hj hne, TwoLevel.lookup_of_none hd] at hjn
      exact absurd rfl hjn
    · funext i
      rw [hout]
      by_cases hi : i = P.kpageId k'
      · rw [hi, update_self, hcount]
      · rw [update_of_ne hi]
        exact hm.kpages i hi

end Unmapped

end Nanvix.Mm
