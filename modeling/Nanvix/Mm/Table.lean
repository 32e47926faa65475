import Nanvix.Mm.Page

/-! The page tables as a map from pages to frames. Every page table of user space is in a kernel
page of its own and has an entry in use; a table is made when its first page is mapped, from a
kernel page with arbitrary contents, and goes away with the last one. -/

namespace Nanvix.Mm

open Nanvix.Lib Function

variable {P : Layout} {s s' : State} {u v f i j k : ℕ} {pgdir : Pgdir}

/-! ### Addresses -/

namespace Layout

theorem pageSize_pos (P : Layout) : 0 < P.pageSize := Nat.two_pow_pos _

/-- Two addresses are in one page if they have the same indices. -/
theorem idx_eq_iff : P.pdeIdx u = P.pdeIdx v ∧ P.pteIdx u = P.pteIdx v ↔
    u / P.pageSize = v / P.pageSize := by
  unfold pdeIdx pteIdx
  constructor
  · rintro ⟨hd, hm⟩
    rw [← Nat.div_add_mod (u / P.pageSize) P.pgtabLength, hd, hm, Nat.div_add_mod]
  · intro h
    rw [h]
    exact ⟨rfl, rfl⟩

theorem pteIdx_lt (P : Layout) (v : ℕ) : P.pteIdx v < P.scanLength :=
  Nat.lt_of_lt_of_le (Nat.mod_lt _ P.pgtab_pos) P.pgtab_le

/-- A frame number loses its high bits on the way through an address. -/
theorem ofAddr_toAddr (P : Layout) (f : ℕ) : P.ofAddr (P.toAddr f) = f % P.frameLimit := by
  have hpow : 2 ^ P.frameBits = P.frameLimit * P.pageSize := by
    rw [frameLimit, pageSize, ← Nat.pow_add, Nat.sub_add_cancel (Nat.le_of_lt P.shift_lt)]
  rw [ofAddr, toAddr, hpow, Nat.mul_mod_mul_right, Nat.mul_div_cancel _ P.pageSize_pos]

theorem frameLimit_le (P : Layout) : P.frameLimit ≤ P.frameNull := by
  have hlt : P.frameBits - P.pageShift < P.frameBits := by
    have := P.shift_pos
    have := P.shift_lt
    omega
  have := Nat.pow_lt_pow_right (show 1 < 2 by decide) hlt
  unfold frameLimit frameNull
  omega

theorem kpageFrame_lt (hi : i < P.numKpages) : P.kpageFrame i < P.frameLimit := by
  have := P.kpool_le
  unfold kpageFrame frameLimit
  omega

theorem isKpage_kpageFrame (hi : i < P.numKpages) : P.IsKpage (P.kpageFrame i) := by
  unfold IsKpage kpageFrame
  omega

theorem kpageId_kpageFrame (P : Layout) (i : ℕ) : P.kpageId (P.kpageFrame i) = i := by
  unfold kpageId kpageFrame
  omega

theorem kpageFrame_kpageId (hk : P.IsKpage k) : P.kpageFrame (P.kpageId k) = k := by
  have := hk.1
  unfold kpageFrame kpageId
  omega

theorem valid_lt (hf : P.FrameIsValidNum f) : f < P.frameLimit := by
  have := P.uframes_le
  have := hf.2
  unfold frameLimit
  omega

end Layout

/-! ### What the tables mean -/

def Entry.target (e : Entry) : Option ℕ := if e.present then some e.frame else none

theorem Entry.target_eq_none {e : Entry} : e.target = none ↔ ¬ e.present := by
  unfold Entry.target
  split_ifs with h <;> simp [h]

theorem Entry.target_eq_some {e : Entry} : e.target = some f ↔ e.present ∧ e.frame = f := by
  unfold Entry.target
  split_ifs with h <;> simp [h]

def dirOf (s : State) (i : ℕ) : Option ℕ := (s.pgdir i).target

def tabOf (s : State) (k j : ℕ) : Option ℕ := (s.tables k j).target

def translate (P : Layout) (s : State) (v : ℕ) : Option ℕ :=
  TwoLevel.lookup (dirOf s) (tabOf s) (P.pdeIdx v) (P.pteIdx v)

/-- Entries of the directory that belong to user space, and entries of their tables. -/
def UserIdx (P : Layout) (i : ℕ) : Prop := ∃ v, P.IsUaddr v ∧ P.pdeIdx v = i

def UserEntry (P : Layout) (i j : ℕ) : Prop := ∃ v, P.IsUaddr v ∧ P.pdeIdx v = i ∧ P.pteIdx v = j

/-- Every page table of user space has a kernel page of its own and is in use. -/
structure Tables (P : Layout) (s : State) : Prop where
  page : ∀ {i k}, UserIdx P i → dirOf s i = some k → P.IsKpage k ∧ s.kpages (P.kpageId k) = 1
  inj : ∀ {i j k}, UserIdx P i → UserIdx P j → dirOf s i = some k → dirOf s j = some k → i = j
  used : ∀ {i k}, UserIdx P i → dirOf s i = some k → ∃ j < P.scanLength, tabOf s k j ≠ none
  entry : ∀ {i j k f}, UserIdx P i → dirOf s i = some k → j < P.scanLength → tabOf s k j = some f →
    f < P.frameLimit ∧ UserEntry P i j

def Mappable (P : Layout) (s : State) (pgdir : Pgdir) (v : ℕ) : Prop :=
  pgdir = .root ∧ P.IsUaddr v ∧ P.Aligned v ∧ translate P s v = none ∧
    (dirOf s (P.pdeIdx v) ≠ none ∨ ∃ i < P.numKpages, s.kpages i = 0)

/-- The page table that `pgtab_map` makes for `v` in kernel page `i`. -/
def newTable (P : Layout) (s : State) (i v : ℕ) : State :=
  clearTable P (mmuPgtabMap P { s with kpages := update s.kpages i (s.kpages i + 1) }
    (P.toAddr (P.kpageFrame i)) v) (P.kpageFrame i)

/-- The page of `v` is mapped, with a new page table if there was none. -/
inductive Maps (P : Layout) (s : State) (v f : ℕ) : State → Prop
  | old {k : ℕ} (hd : dirOf s (P.pdeIdx v) = some k) (hn : tabOf s k (P.pteIdx v) = none) :
    Maps P s v f (mmuPageMap P s k (P.toAddr f) v)
  | new {i : ℕ} (hd : dirOf s (P.pdeIdx v) = none) (hi : i < P.numKpages) (hfree : s.kpages i = 0) :
    Maps P s v f (mmuPageMap P (newTable P s i v) (P.kpageFrame i) (P.toAddr f) v)

theorem kpageGet_cases (P : Layout) (s : State) :
    (kpageGet P s = none ∧ ∀ i < P.numKpages, s.kpages i ≠ 0) ∨
      ∃ i < P.numKpages, s.kpages i = 0 ∧
        kpageGet P s = some (i, { s with kpages := update s.kpages i (s.kpages i + 1) }) := by
  unfold kpageGet
  cases hfind : (List.range P.numKpages).find? fun i => decide (s.kpages i = 0) with
  | none =>
    refine .inl ⟨rfl, fun i hi h0 => ?_⟩
    have := List.find?_eq_none.mp hfind i (List.mem_range.mpr hi)
    simp [h0] at this
  | some i =>
    have hi := List.mem_range.mp (List.mem_of_find?_eq_some hfind)
    have h0 : s.kpages i = 0 := by simpa using List.find?_some hfind
    exact .inr ⟨i, hi, h0, rfl⟩

theorem dirOf_newTable (hi : i < P.numKpages) : dirOf (newTable P s i v) =
    update (dirOf s) (P.pdeIdx v) (some (P.kpageFrame i)) := by
  funext j
  unfold dirOf
  by_cases hj : j = P.pdeIdx v
  · subst hj
    rw [update_self]
    have hf : P.ofAddr (P.toAddr (P.kpageFrame i)) = P.kpageFrame i := by
      rw [P.ofAddr_toAddr, Nat.mod_eq_of_lt (P.kpageFrame_lt hi)]
    simp [newTable, clearTable, mmuPgtabMap, Entry.target, hf]
  · simp [newTable, clearTable, mmuPgtabMap, hj]

theorem tabOf_newTable (hj : j < P.scanLength) :
    tabOf (newTable P s i v) k j = if k = P.kpageFrame i then none else tabOf s k j := by
  unfold tabOf
  by_cases hk : k = P.kpageFrame i
  · subst hk
    simp [newTable, clearTable, mmuPgtabMap, Entry.clear, Entry.target, hj]
  · simp [newTable, clearTable, mmuPgtabMap, hk]

theorem tabOf_mmuPageMap (P : Layout) (s : State) (k f v k' j : ℕ) :
    tabOf (mmuPageMap P s k (P.toAddr f) v) k' j =
      if k' = k ∧ j = P.pteIdx v then some (f % P.frameLimit) else tabOf s k' j := by
  unfold tabOf
  by_cases hk : k' = k
  · subst hk
    by_cases hj : j = P.pteIdx v
    · subst hj
      simp [mmuPageMap, Entry.target, P.ofAddr_toAddr]
    · simp [mmuPageMap, hj]
  · simp [mmuPageMap, hk]

theorem pgtabMap_cases (hd : dirOf s (P.pdeIdx v) = none) :
    (pgtabMap P s v = none ∧ ∀ i < P.numKpages, s.kpages i ≠ 0) ∨
      ∃ i < P.numKpages, s.kpages i = 0 ∧ pgtabMap P s v = some (newTable P s i v) := by
  unfold pgtabMap
  rw [if_neg (Entry.target_eq_none.mp hd)]
  rcases kpageGet_cases P s with ⟨hnone, hall⟩ | ⟨i, hi, hfree, hsome⟩
  · rw [hnone]
    exact .inl ⟨rfl, hall⟩
  · rw [hsome]
    exact .inr ⟨i, hi, hfree, rfl⟩

/-- `upage_map` after its checks and with a page table. -/
theorem upageMap_table (hd : dirOf s (P.pdeIdx v) = some k) (f : ℕ) :
    (if (s.tables (s.pgdir (P.pdeIdx v)).frame (P.pteIdx v)).present then (some Errno.EADDRINUSE, s)
      else (none, mmuPageMap P s (s.pgdir (P.pdeIdx v)).frame (P.toAddr f) v)) =
    if tabOf s k (P.pteIdx v) = none then (none, mmuPageMap P s k (P.toAddr f) v)
      else (some .EADDRINUSE, s) := by
  rw [(Entry.target_eq_some.mp hd).2]
  by_cases hp : (s.tables k (P.pteIdx v)).present = true
  · have hn : tabOf s k (P.pteIdx v) ≠ none := fun hn => Entry.target_eq_none.mp hn hp
    rw [if_pos hp, if_neg hn]
  · have hn : tabOf s k (P.pteIdx v) = none := Entry.target_eq_none.mpr hp
    rw [if_neg hp, if_pos hn]

/-- `upage_map` of an aligned user address. -/
theorem upageMap_user (hu : P.IsUaddr v) (ha : P.Aligned v) (f : ℕ) :
    (∃ s', upageMap P s .root v f = (none, s') ∧ Mappable P s .root v ∧ Maps P s v f s') ∨
      ∃ e, upageMap P s .root v f = (some e, s) ∧ ¬ Mappable P s .root v := by
  rw [upageMap, if_neg (by decide), if_neg (not_not.mpr hu), if_neg (not_not.mpr ha)]
  cases hd : dirOf s (P.pdeIdx v) with
  | some k =>
    rw [if_pos (Entry.target_eq_some.mp hd).1]
    dsimp only
    rw [upageMap_table hd]
    split_ifs with hn
    · refine .inl ⟨_, rfl, ⟨rfl, hu, ha, ?_, .inl (by simp [hd])⟩, .old hd hn⟩
      rw [translate, TwoLevel.lookup_of_some hd, hn]
    · refine .inr ⟨_, rfl, fun h => hn ?_⟩
      have htr := h.2.2.2.1
      rwa [translate, TwoLevel.lookup_of_some hd] at htr
  | none =>
    rw [if_neg (Entry.target_eq_none.mp hd)]
    rcases pgtabMap_cases hd with ⟨hnone, hall⟩ | ⟨i, hi, hfree, hsome⟩
    · rw [hnone]
      refine .inr ⟨_, rfl, fun h => ?_⟩
      rcases h.2.2.2.2 with hne | ⟨i, hi, hfree⟩
      · exact hne hd
      · exact hall i hi hfree
    · rw [hsome]
      dsimp only
      -- The new page table is empty.
      have hd' : dirOf (newTable P s i v) (P.pdeIdx v) = some (P.kpageFrame i) := by
        rw [dirOf_newTable hi, update_self]
      have hn : tabOf (newTable P s i v) (P.kpageFrame i) (P.pteIdx v) = none := by
        rw [tabOf_newTable (P.pteIdx_lt v), if_pos rfl]
      rw [upageMap_table hd', if_pos hn]
      refine .inl ⟨_, rfl, ⟨rfl, hu, ha, ?_, .inr ⟨i, hi, hfree⟩⟩, .new hd hi hfree⟩
      rw [translate, TwoLevel.lookup_of_none hd]

/-- `upage_map` maps the page if it can, and leaves everything as it is if not. -/
theorem upageMap_cases (P : Layout) (s : State) (pgdir : Pgdir) (v f : ℕ) :
    (∃ s', upageMap P s pgdir v f = (none, s') ∧ Mappable P s pgdir v ∧ Maps P s v f s') ∨
      ∃ e, upageMap P s pgdir v f = (some e, s) ∧ ¬ Mappable P s pgdir v := by
  cases pgdir with
  | null =>
    rw [upageMap, if_pos rfl]
    exact .inr ⟨_, rfl, fun h => nomatch h.1⟩
  | root =>
    by_cases hu : P.IsUaddr v
    · by_cases ha : P.Aligned v
      · exact upageMap_user hu ha f
      · rw [upageMap, if_neg (by decide), if_neg (not_not.mpr hu), if_pos ha]
        exact .inr ⟨_, rfl, fun h => ha h.2.2.1⟩
    · rw [upageMap, if_neg (by decide), if_pos hu]
      exact .inr ⟨_, rfl, fun h => hu h.2.1⟩

/-- What mapping the page of `v` does to the tables: entry `pde` of the directory leads to the
table in frame `k`, which has the entries it had, if it was there, and the new one. -/
structure Mapped (P : Layout) (s : State) (v f k : ℕ) (s' : State) : Prop where
  dir : dirOf s' = update (dirOf s) (P.pdeIdx v) (some k)
  self : tabOf s' k (P.pteIdx v) = some (f % P.frameLimit)
  own : ∀ j < P.scanLength, j ≠ P.pteIdx v →
    tabOf s' k j = TwoLevel.lookup (dirOf s) (tabOf s) (P.pdeIdx v) j
  rest : ∀ k' ≠ k, ∀ j < P.scanLength, tabOf s' k' j = tabOf s k' j
  other : ∀ i, UserIdx P i → i ≠ P.pdeIdx v → dirOf s i ≠ some k
  was : (dirOf s (P.pdeIdx v) = some k ∧ s.kpages (P.kpageId k) = 1) ∨
    (dirOf s (P.pdeIdx v) = none ∧ s.kpages (P.kpageId k) = 0)
  page : P.IsKpage k ∧ s'.kpages (P.kpageId k) = 1
  kpages : ∀ i, i ≠ P.kpageId k → s'.kpages i = s.kpages i
  frames : s'.frames = s.frames

theorem Maps.mapped (h : Maps P s v f s') (ht : Tables P s) (hv : P.IsUaddr v) :
    ∃ k, Mapped P s v f k s' := by
  have hidx : UserIdx P (P.pdeIdx v) := ⟨v, hv, rfl⟩
  cases h with
  | @old k hd hn =>
    have hdir : dirOf (mmuPageMap P s k (P.toAddr f) v) = dirOf s := rfl
    have htab := tabOf_mmuPageMap P s k f v
    have hpage := ht.page hidx hd
    refine ⟨k, ?_, ?_, ?_, ?_, ?_, .inl ⟨hd, hpage.2⟩, hpage, fun _ _ => rfl, rfl⟩
    · rw [hdir, ← hd, update_eq_self]
    · rw [htab, if_pos ⟨rfl, rfl⟩]
    · intro j _ hj
      rw [htab, if_neg fun h => hj h.2, TwoLevel.lookup_of_some hd]
    · intro k' hk' j _
      rw [htab, if_neg fun h => hk' h.1]
    · intro i hi hne hdi
      exact hne (ht.inj hi hidx hdi hd)
  | @new i hd hi hfree =>
    have hdir : dirOf (mmuPageMap P (newTable P s i v) (P.kpageFrame i) (P.toAddr f) v) =
        dirOf (newTable P s i v) := rfl
    have htab := tabOf_mmuPageMap P (newTable P s i v) (P.kpageFrame i) f v
    have hkp : (mmuPageMap P (newTable P s i v) (P.kpageFrame i) (P.toAddr f) v).kpages =
        update s.kpages i (s.kpages i + 1) := rfl
    refine ⟨P.kpageFrame i, ?_, ?_, ?_, ?_, ?_, .inr ⟨hd, ?_⟩, ⟨P.isKpage_kpageFrame hi, ?_⟩, ?_, rfl⟩
    · rw [hdir, dirOf_newTable hi]
    · rw [htab, if_pos ⟨rfl, rfl⟩]
    · intro j hj hne
      rw [htab, if_neg fun h => hne h.2, tabOf_newTable hj, if_pos rfl, TwoLevel.lookup_of_none hd]
    · intro k' hk' j hj
      rw [htab, if_neg fun h => hk' h.1, tabOf_newTable hj, if_neg hk']
    · -- The kernel page is free, so no table is in it.
      intro i' hi' _ hd'
      have := (ht.page hi' hd').2
      rw [P.kpageId_kpageFrame, hfree] at this
      cases this
    · rw [P.kpageId_kpageFrame, hfree]
    · rw [hkp, P.kpageId_kpageFrame, update_self, hfree]
    · intro i' hne
      rw [P.kpageId_kpageFrame] at hne
      rw [hkp, update_of_ne hne]

namespace Mapped

theorem lookup_eq (h : Mapped P s v f k s') (hi : UserIdx P i) (hj : j < P.scanLength) :
    TwoLevel.lookup (dirOf s') (tabOf s') i j =
      if i = P.pdeIdx v ∧ j = P.pteIdx v then some (f % P.frameLimit)
      else TwoLevel.lookup (dirOf s) (tabOf s) i j := by
  refine TwoLevel.lookup_set (fun hiv => ?_) (fun hiv k' hk' => h.rest k' ?_ j hj) ?_
  · rw [h.dir, update_of_ne hiv]
  · rintro rfl
    exact h.other i hi hiv hk'
  · rw [TwoLevel.lookup_of_some (by rw [h.dir, update_self])]
    by_cases hjv : j = P.pteIdx v
    · rw [if_pos hjv, hjv, h.self]
    · rw [if_neg hjv, h.own j hj hjv]

theorem translate_eq (h : Mapped P s v f k s') (hu : P.IsUaddr u) :
    translate P s' u =
      if u / P.pageSize = v / P.pageSize then some (f % P.frameLimit) else translate P s u := by
  rw [translate, h.lookup_eq ⟨u, hu, rfl⟩ (P.pteIdx_lt u)]
  exact if_congr Layout.idx_eq_iff rfl rfl

theorem dirOf_cases (h : Mapped P s v f k s') {k' : ℕ} (hd : dirOf s' i = some k') :
    (i = P.pdeIdx v ∧ k' = k) ∨ (i ≠ P.pdeIdx v ∧ dirOf s i = some k') := by
  rw [h.dir] at hd
  by_cases hi : i = P.pdeIdx v
  · subst hi
    rw [update_self] at hd
    exact .inl ⟨rfl, (Option.some.inj hd).symm⟩
  · rw [update_of_ne hi] at hd
    exact .inr ⟨hi, hd⟩

theorem tables (h : Mapped P s v f k s') (ht : Tables P s) (hv : P.IsUaddr v) : Tables P s' where
  page {i k'} hi hd := by
    rcases h.dirOf_cases hd with ⟨-, rfl⟩ | ⟨hne, hd⟩
    · exact h.page
    · obtain ⟨hk', hcount⟩ := ht.page hi hd
      refine ⟨hk', ?_⟩
      rw [h.kpages _ ?_]
      · exact hcount
      · intro hid
        have hkk : k' = k := by
          rw [← Layout.kpageFrame_kpageId hk', hid, Layout.kpageFrame_kpageId h.page.1]
        exact h.other i hi hne (hkk ▸ hd)
  inj {i j k'} hi hj hdi hdj := by
    rcases h.dirOf_cases hdi with ⟨rfl, rfl⟩ | ⟨hni, hdi⟩
    · rcases h.dirOf_cases hdj with ⟨rfl, -⟩ | ⟨hnj, hdj⟩
      · rfl
      · exact absurd hdj (h.other j hj hnj)
    · rcases h.dirOf_cases hdj with ⟨rfl, rfl⟩ | ⟨hnj, hdj⟩
      · exact absurd hdi (h.other i hi hni)
      · exact ht.inj hi hj hdi hdj
  used {i k'} hi hd := by
    rcases h.dirOf_cases hd with ⟨-, rfl⟩ | ⟨hne, hd⟩
    · exact ⟨P.pteIdx v, P.pteIdx_lt v, by simp [h.self]⟩
    · obtain ⟨j, hj, hjn⟩ := ht.used hi hd
      refine ⟨j, hj, ?_⟩
      rw [h.rest k' (fun hkk => h.other i hi hne (hkk ▸ hd)) j hj]
      exact hjn
  entry {i j k' g} hi hd hj htab := by
    have hlook : TwoLevel.lookup (dirOf s') (tabOf s') i j = some g := by
      rw [TwoLevel.lookup_of_some hd, htab]
    rw [h.lookup_eq hi hj] at hlook
    split_ifs at hlook with hcase
    · obtain rfl := Option.some.inj hlook
      exact ⟨Nat.mod_lt _ (Nat.two_pow_pos _), v, hv, hcase.1.symm, hcase.2.symm⟩
    · cases hd₀ : dirOf s i with
      | none =>
        rw [TwoLevel.lookup_of_none hd₀] at hlook
        cases hlook
      | some k₀ =>
        rw [TwoLevel.lookup_of_some hd₀] at hlook
        exact ht.entry hi hd₀ hj hlook

end Mapped

end Nanvix.Mm
