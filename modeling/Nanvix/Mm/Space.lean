import Nanvix.Mm.Unmap

/-! The user address space as a map from pages to frames, which the calls insert into and remove
from. A call says what it did: one that returns an error changed nothing. -/

namespace Nanvix.Mm

open Nanvix.Lib Function

variable {P : Layout} {s s' s₀ : State} {u v f i j k bit : ℕ} {pgdir : Pgdir}

/-! ### The map -/

/-- The frames that the pages of user space are mapped to, by page number. -/
def userMap (P : Layout) (s : State) (p : ℕ) : Option ℕ :=
  if P.IsUaddr (p * P.pageSize) then translate P s (p * P.pageSize) else none

theorem Layout.Aligned.div_mul (ha : P.Aligned v) : v / P.pageSize * P.pageSize = v :=
  Nat.div_mul_cancel (Nat.dvd_of_mod_eq_zero ha)

theorem userMap_of_aligned (ha : P.Aligned v) (hv : P.IsUaddr v) (s : State) :
    userMap P s (v / P.pageSize) = translate P s v := by
  rw [userMap, ha.div_mul, if_pos hv]

/-- A call that changes the translation of one page is an update of the map. -/
theorem userMap_update (ha : P.Aligned v) (hv : P.IsUaddr v) {x : Option ℕ}
    (h : ∀ u, P.IsUaddr u → translate P s' u =
      if u / P.pageSize = v / P.pageSize then x else translate P s u) :
    userMap P s' = update (userMap P s) (v / P.pageSize) x := by
  funext p
  have hp : p * P.pageSize / P.pageSize = p := Nat.mul_div_cancel p P.pageSize_pos
  by_cases hpv : p = v / P.pageSize
  · rw [hpv, update_self, userMap_of_aligned ha hv, h v hv, if_pos rfl]
  · rw [update_of_ne hpv, userMap, userMap]
    by_cases hu : P.IsUaddr (p * P.pageSize)
    · rw [if_pos hu, if_pos hu, h _ hu, hp, if_neg hpv]
    · rw [if_neg hu, if_neg hu]

theorem Mapped.userMap_eq (h : Mapped P s v f k s') (ha : P.Aligned v) (hv : P.IsUaddr v) :
    userMap P s' = update (userMap P s) (v / P.pageSize) (some (f % P.frameLimit)) :=
  userMap_update ha hv fun _ hu => h.translate_eq hu

theorem Unmapped.userMap_eq (h : Unmapped P s v k s') (ht : Tables P s) (ha : P.Aligned v)
    (hv : P.IsUaddr v) : userMap P s' = update (userMap P s) (v / P.pageSize) none :=
  userMap_update ha hv fun _ hu => h.translate_eq ht hv hu

theorem Tables.lt_frameLimit (ht : Tables P s) (hv : P.IsUaddr v) (h : translate P s v = some f) :
    f < P.frameLimit := by
  obtain ⟨k, hk, htab⟩ := Option.bind_eq_some_iff.mp h
  exact (ht.entry ⟨v, hv, rfl⟩ hk (P.pteIdx_lt v) htab).1

theorem Tables.frames (ht : Tables P s) (fs : ℕ → Bool) : Tables P { s with frames := fs } :=
  ⟨ht.page, ht.inj, ht.used, ht.entry⟩

/-! ### Frames -/

theorem frameAlloc_cases (P : Layout) (s : State) :
    (∃ bit < P.numUframes, s.frames bit = false ∧ frameAlloc P s =
        (P.ubaseFrame + bit, { s with frames := update s.frames bit true })) ∨
      (frameAlloc P s = (P.frameNull, s) ∧ ∀ bit < P.numUframes, s.frames bit = true) := by
  unfold frameAlloc
  cases hfind : (List.range P.numUframes).find? fun i => ! s.frames i with
  | none =>
    refine .inr ⟨rfl, fun bit hbit => ?_⟩
    have := List.find?_eq_none.mp hfind bit (List.mem_range.mpr hbit)
    simpa using this
  | some bit =>
    have hbit := List.mem_range.mp (List.mem_of_find?_eq_some hfind)
    have hfree : s.frames bit = false := by simpa using List.find?_some hfind
    refine .inl ⟨bit, hbit, hfree, ?_⟩
    dsimp only
    rw [Layout.frameIdToNum, if_pos hbit]

theorem Layout.valid_ubaseFrame_add (hbit : bit < P.numUframes) :
    P.FrameIsValidNum (P.ubaseFrame + bit) :=
  ⟨Nat.le_add_right _ _, Nat.add_lt_add_left hbit _⟩

theorem Layout.valid_ne_frameNull (hf : P.FrameIsValidNum f) : f ≠ P.frameNull :=
  Nat.ne_of_lt (Nat.lt_of_lt_of_le (valid_lt hf) P.frameLimit_le)

theorem frameFree_cases (P : Layout) (s : State) (f : ℕ) :
    (P.FrameIsValidNum f ∧ s.frames (P.frameNumToId f) = true ∧ frameFree P s f =
        (none, { s with frames := update s.frames (P.frameNumToId f) false })) ∨
      (∃ e, frameFree P s f = (some e, s) ∧
        ¬ (P.FrameIsValidNum f ∧ s.frames (P.frameNumToId f) = true)) := by
  unfold frameFree
  by_cases hf : P.FrameIsValidNum f
  · rw [if_neg (not_not.mpr hf)]
    cases hs : s.frames (P.frameNumToId f) with
    | true => exact .inl ⟨hf, rfl, by simp [hs]⟩
    | false => exact .inr ⟨.EFAULT, by simp [hs], by simp⟩
  · rw [if_pos hf]
    exact .inr ⟨_, rfl, fun h => hf h.1⟩

theorem frameIsAllocated_congr (h : s'.frames = s.frames) (f : ℕ) :
    frameIsAllocated P s' f = frameIsAllocated P s f := by
  rw [frameIsAllocated, frameIsAllocated, h]

/-- Mapping and unmapping pages leaves the bitmap of frames alone. -/
theorem Maps.frames (h : Maps P s v f s') : s'.frames = s.frames := by
  cases h <;> rfl

theorem Maps.translate_self (h : Maps P s v f s') : translate P s' v = some (f % P.frameLimit) := by
  cases h with
  | @old k hd hn =>
    have hdir : dirOf (mmuPageMap P s k (P.toAddr f) v) (P.pdeIdx v) = some k := hd
    rw [translate, TwoLevel.lookup_of_some hdir, tabOf_mmuPageMap, if_pos ⟨rfl, rfl⟩]
  | @new i hd hi hfree =>
    have hdir : dirOf (mmuPageMap P (newTable P s i v) (P.kpageFrame i) (P.toAddr f) v) (P.pdeIdx v) =
        some (P.kpageFrame i) := by
      show dirOf (newTable P s i v) (P.pdeIdx v) = _
      rw [dirOf_newTable hi, update_self]
    rw [translate, TwoLevel.lookup_of_some hdir, tabOf_mmuPageMap, if_pos ⟨rfl, rfl⟩]

theorem kpagePut_frames (P : Layout) (s : State) (k : ℕ) : (kpagePut P s k).2.frames = s.frames := by
  unfold kpagePut
  dsimp only
  split_ifs <;> rfl

theorem pgtabUnmap_frames (P : Layout) (s : State) (v : ℕ) : (pgtabUnmap P s v).2.frames = s.frames := by
  unfold pgtabUnmap
  dsimp only
  split_ifs
  · rfl
  · split <;> rename_i heq
    · exact (congrArg (·.2.frames) heq).symm.trans (kpagePut_frames P _ _)
    · exact (congrArg (·.2.frames) heq).symm.trans (kpagePut_frames P _ _)
  · rfl

theorem upageUnmap_frames (P : Layout) (s : State) (pgdir : Pgdir) (v : ℕ) :
    (upageUnmap P s pgdir v).2.frames = s.frames := by
  unfold upageUnmap
  dsimp only
  split_ifs
  · rfl
  · exact pgtabUnmap_frames P _ v
  all_goals rfl

/-- The frame that `upage_alloc` took is given back. -/
theorem frameFree_alloc (hbit : bit < P.numUframes) (hfree : s.frames bit = false) :
    (frameFree P { s with frames := update s.frames bit true } (P.ubaseFrame + bit)).2 =
      s := by
  have hid : P.frameNumToId (P.ubaseFrame + bit) = bit := by
    unfold Layout.frameNumToId
    omega
  rcases frameFree_cases P { s with frames := update s.frames bit true }
    (P.ubaseFrame + bit) with ⟨-, -, hout⟩ | ⟨e, -, hn⟩
  · rw [hout]
    dsimp only
    rw [hid, update_idem, ← hfree, update_eq_self]
  · refine absurd ⟨Layout.valid_ubaseFrame_add hbit, ?_⟩ hn
    rw [hid]
    exact update_self ..

/-- `upage_alloc` maps a free frame if there is one and the page can be mapped. -/
theorem upageAlloc_cases (P : Layout) (s : State) (pgdir : Pgdir) (v : ℕ) :
    (∃ bit < P.numUframes, s.frames bit = false ∧ Mappable P s pgdir v ∧
        ∃ s', upageAlloc P s pgdir v = (none, s') ∧
          Maps P { s with frames := update s.frames bit true } v (P.ubaseFrame + bit) s') ∨
      ∃ e, upageAlloc P s pgdir v = (some e, s) ∧
        ¬ (Mappable P s pgdir v ∧ ∃ bit < P.numUframes, s.frames bit = false) := by
  unfold upageAlloc
  by_cases hnull : pgdir = .null
  · subst hnull
    rw [if_pos rfl]
    exact .inr ⟨_, rfl, fun h => nomatch h.1.1⟩
  rw [if_neg hnull]
  rcases frameAlloc_cases P s with ⟨bit, hbit, hfree, halloc⟩ | ⟨halloc, hall⟩
  · rw [halloc]
    dsimp only
    rw [if_neg (Layout.valid_ne_frameNull (Layout.valid_ubaseFrame_add hbit))]
    rcases upageMap_cases P { s with frames := update s.frames bit true } pgdir v
      (P.ubaseFrame + bit) with ⟨s', hmap, hm, hmaps⟩ | ⟨e, hmap, hm⟩
    · rw [hmap]
      exact .inl ⟨bit, hbit, hfree, hm, s', rfl, hmaps⟩
    · rw [hmap]
      dsimp only
      rw [frameFree_alloc hbit hfree]
      exact .inr ⟨e, rfl, fun h => hm h.1⟩
  · rw [halloc]
    dsimp only
    rw [if_pos rfl]
    refine .inr ⟨_, rfl, fun ⟨_, bit, hbit, hfree⟩ => ?_⟩
    rw [hall bit hbit] at hfree
    cases hfree

/-- `upage_free` unmaps the page and gives its frame back, or does nothing. -/
theorem upageFree_cases (ht : Tables P s) (v : ℕ) :
    (∃ f k s', Unmappable P s .root v ∧ translate P s v = some f ∧ Unmapped P s v k s' ∧
        (upageFree P s .root v).2 = (frameFree P s' f).2) ∨
      (upageFree P s .root v = (some .EFAULT, s) ∧ ¬ Unmappable P s .root v) := by
  unfold upageFree
  rw [if_neg (by decide)]
  rcases upageUnmap_cases ht .root v with ⟨f, k, s', hunmap, hun, htr, hu⟩ | ⟨hunmap, hun⟩
  · have hne : f ≠ P.frameNull :=
      Nat.ne_of_lt (Nat.lt_of_lt_of_le (ht.lt_frameLimit hun.2.1 htr) P.frameLimit_le)
    rw [hunmap]
    dsimp only
    rw [if_neg hne]
    refine .inl ⟨f, k, s', hun, htr, hu, ?_⟩
    rcases frameFree_cases P s' f with ⟨-, -, hfree⟩ | ⟨e, hfree, -⟩ <;> rw [hfree]
  · rw [hunmap]
    dsimp only
    rw [if_pos rfl]
    exact .inr ⟨rfl, hun⟩

/-- `upage_link` maps the page to the frame that another address is translated to. -/
theorem upageLink_cases (P : Layout) (s : State) (u v : ℕ) :
    (∃ f s', translate P s u = some f ∧ Mappable P s .root v ∧
        upageLink P s .root u v = (none, s') ∧ Maps P s v f s') ∨
      ∃ e, upageLink P s .root u v = (some e, s) ∧
        ¬ (translate P s u ≠ none ∧ Mappable P s .root v) := by
  unfold upageLink
  rw [if_neg (by decide)]
  by_cases hv : P.IsUaddr v
  · by_cases ha : P.Aligned v
    · rw [if_neg (not_not.mpr hv), if_neg (not_not.mpr ha)]
      cases hd : dirOf s (P.pdeIdx u) with
      | none =>
        rw [if_pos (Entry.target_eq_none.mp hd)]
        exact .inr ⟨_, rfl, fun h => h.1 (TwoLevel.lookup_of_none hd)⟩
      | some k =>
        have hlook : translate P s u = tabOf s k (P.pteIdx u) := TwoLevel.lookup_of_some hd
        obtain ⟨hpresent, hk⟩ := Entry.target_eq_some.mp hd
        rw [if_neg (not_not.mpr hpresent), hk]
        cases htab : tabOf s k (P.pteIdx u) with
        | none =>
          rw [if_pos (Entry.target_eq_none.mp htab)]
          exact .inr ⟨_, rfl, fun h => h.1 (hlook.trans htab)⟩
        | some f =>
          obtain ⟨hp, hf⟩ := Entry.target_eq_some.mp htab
          rw [if_neg (not_not.mpr hp), hf]
          rcases upageMap_cases P s .root v f with ⟨s', hmap, hm, h⟩ | ⟨e, hmap, hm⟩
          · exact .inl ⟨f, s', hlook.trans htab, hm, hmap, h⟩
          · exact .inr ⟨e, hmap, fun h => hm h.2⟩
    · rw [if_neg (not_not.mpr hv), if_pos ha]
      exact .inr ⟨_, rfl, fun h => ha h.2.2.2.1⟩
  · rw [if_pos hv]
    exact .inr ⟨_, rfl, fun h => hv h.2.2.1⟩

/-! ### Calls -/

inductive Moves (P : Layout) (s : State) : Call → State → Prop
  | stays {c : Call} : Moves P s c s
  | map {v f : ℕ} {s' : State} (hm : Mappable P s .root v) (h : Maps P s v f s') :
    Moves P s (.map .root v f) s'
  | unmap {c : Call} {v k : ℕ} {s' : State} (hm : Unmappable P s .root v)
    (h : Unmapped P s v k s') : Moves P s c s'
  | alloc {c : Call} {v bit : ℕ} {s' : State} (hbit : bit < P.numUframes)
    (hfree : s.frames bit = false) (hm : Mappable P s .root v)
    (h : Maps P { s with frames := update s.frames bit true } v (P.ubaseFrame + bit) s') :
    Moves P s c s'
  | kernelMap {v f : ℕ} {s' : State} (hf : frameIsAllocated P s f = true)
    (hm : Mappable P s .root v) (h : Maps P s v f s') : Moves P s (.kernelMap v f) s'
  | kernelLink {u v f : ℕ} {s' : State} (hf : translate P s u = some f)
    (hm : Mappable P s .root v) (h : Maps P s v f s') : Moves P s (.kernelLink u v) s'
  | kernelFree {v f k : ℕ} {s' : State} (hm : Unmappable P s .root v)
    (hf : translate P s v = some f) (h : Unmapped P s v k s') :
    Moves P s (.kernelFree v) (frameFree P s' f).2
  | frameAlloc {bit : ℕ} (hbit : bit < P.numUframes) (hfree : s.frames bit = false) :
    Moves P s .kernelFrameAlloc { s with frames := update s.frames bit true }
  | frameFree {f : ℕ} (hf : P.FrameIsValidNum f) :
    Moves P s (.kernelFrameFree f)
      { s with frames := update s.frames (P.frameNumToId f) false }

theorem checkUaddr_of_user (ha : P.Aligned v) (hv : P.IsUaddr v) (s : State)
    (call : Option Errno × State) : checkUaddr P s v call = call := by
  rw [checkUaddr, if_neg (not_not.mpr ha), if_neg (not_not.mpr hv)]

/-- A checked call does what the call does, if anything. -/
theorem moves_checkUaddr {c : Call} {call : Option Errno × State} (v : ℕ)
    (h : Moves P s c call.2) : Moves P s c (checkUaddr P s v call).2 := by
  unfold checkUaddr
  split_ifs
  · exact h
  · exact .stays
  · exact .stays

theorem moves_upageMap (P : Layout) (s : State) (pgdir : Pgdir) (v f : ℕ) :
    Moves P s (.map pgdir v f) (upageMap P s pgdir v f).2 := by
  rcases upageMap_cases P s pgdir v f with ⟨s', hmap, hm, hmaps⟩ | ⟨e, hmap, -⟩
  · obtain rfl := hm.1
    rw [hmap]
    exact .map hm hmaps
  · rw [hmap]
    exact .stays

theorem moves_upageUnmap (ht : Tables P s) (c : Call) (pgdir : Pgdir) (v : ℕ) :
    Moves P s c (upageUnmap P s pgdir v).2 := by
  rcases upageUnmap_cases ht pgdir v with ⟨f, k, s', hunmap, hm, -, h⟩ | ⟨hunmap, -⟩
  · obtain rfl := hm.1
    rw [hunmap]
    exact .unmap hm h
  · rw [hunmap]
    exact .stays

theorem moves_upageAlloc (P : Layout) (s : State) (c : Call) (pgdir : Pgdir) (v : ℕ) :
    Moves P s c (upageAlloc P s pgdir v).2 := by
  rcases upageAlloc_cases P s pgdir v with ⟨bit, hbit, hfree, hm, s', halloc, h⟩ | ⟨e, halloc, -⟩
  · obtain rfl := hm.1
    rw [halloc]
    exact .alloc hbit hfree hm h
  · rw [halloc]
    exact .stays

theorem moves_kernelMap (P : Layout) (s : State) (v f : ℕ) :
    Moves P s (.kernelMap v f) (kernelUpageMap P s v f).2 := by
  refine moves_checkUaddr v ?_
  split_ifs with hf
  · exact .stays
  · have halloc : frameIsAllocated P s f = true := by simpa using hf
    rcases upageMap_cases P s .root v f with ⟨s', hmap, hm, h⟩ | ⟨e, hmap, -⟩
    · rw [hmap]
      exact .kernelMap halloc hm h
    · rw [hmap]
      exact .stays

theorem moves_upageLink (P : Layout) (s : State) (u v : ℕ) :
    Moves P s (.kernelLink u v) (upageLink P s .root u v).2 := by
  rcases upageLink_cases P s u v with ⟨f, s', hf, hm, hlink, h⟩ | ⟨e, hlink, -⟩
  · rw [hlink]
    exact .kernelLink hf hm h
  · rw [hlink]
    exact .stays

theorem moves_upageFree (ht : Tables P s) (v : ℕ) :
    Moves P s (.kernelFree v) (upageFree P s .root v).2 := by
  rcases upageFree_cases ht v with ⟨f, k, s', hm, hf, h, hout⟩ | ⟨hout, -⟩
  · rw [hout]
    exact .kernelFree hm hf h
  · rw [hout]
    exact .stays

theorem moves_kernelFrameFree (P : Layout) (s : State) (f : ℕ) :
    Moves P s (.kernelFrameFree f) (kernelFrameFree P s f).2 := by
  unfold kernelFrameFree
  split_ifs
  · exact .stays
  · rcases frameFree_cases P s f with ⟨hf, -, hout⟩ | ⟨e, hout, -⟩
    · rw [hout]
      exact .frameFree hf
    · rw [hout]
      exact .stays

theorem moves_step (ht : Tables P s) (c : Call) : Moves P s c (step P s c).2 := by
  cases c with
  | map pgdir v f => exact moves_upageMap P s pgdir v f
  | unmap pgdir v => exact moves_upageUnmap ht _ pgdir v
  | alloc pgdir v => exact moves_upageAlloc P s _ pgdir v
  | kernelFrameAlloc =>
    show Moves P s .kernelFrameAlloc (frameAlloc P s).2
    rcases frameAlloc_cases P s with ⟨bit, hbit, hfree, hout⟩ | ⟨hout, -⟩
    · rw [hout]
      exact .frameAlloc hbit hfree
    · rw [hout]
      exact .stays
  | kernelFrameFree f => exact moves_kernelFrameFree P s f
  | kernelAlloc v => exact moves_checkUaddr v (moves_upageAlloc P s _ .root v)
  | kernelFree v => exact moves_checkUaddr v (moves_upageFree ht v)
  | kernelMap v f => exact moves_kernelMap P s v f
  | kernelUnmap v => exact moves_checkUaddr v (moves_upageUnmap ht _ .root v)
  | kernelLink u v => exact moves_checkUaddr v (moves_upageLink P s u v)

theorem Maps.tables (h : Maps P s v f s') (ht : Tables P s) (hv : P.IsUaddr v) : Tables P s' := by
  obtain ⟨k, hk⟩ := h.mapped ht hv
  exact hk.tables ht hv

theorem tables_step {c : Call} {r : Ret} (ht : Tables P s) (h : step P s c = (r, s')) :
    Tables P s' := by
  have hmoves := moves_step ht c
  rw [h] at hmoves
  cases hmoves with
  | stays => exact ht
  | map hm h => exact h.tables ht hm.2.1
  | unmap hm h => exact h.tables ht hm.2.1
  | alloc _ _ hm h => exact h.tables (ht.frames _) hm.2.1
  | kernelMap _ hm h => exact h.tables ht hm.2.1
  | kernelLink _ hm h => exact h.tables ht hm.2.1
  | @kernelFree v f k s₁ hm _ hu =>
    have ht₁ := hu.tables ht hm.2.1
    rcases frameFree_cases P s₁ f with ⟨-, -, hout⟩ | ⟨e, hout, -⟩
    · rw [hout]
      exact ht₁.frames _
    · rw [hout]
      exact ht₁
  | frameAlloc => exact ht.frames _
  | frameFree => exact ht.frames _

def NoUserPde (P : Layout) (s : State) : Prop := ∀ i, UserIdx P i → dirOf s i = none

theorem NoUserPde.tables (h : NoUserPde P s) : Tables P s where
  page hi hd := by
    rw [h _ hi] at hd
    cases hd
  inj hi _ hd _ := by
    rw [h _ hi] at hd
    cases hd
  used hi hd := by
    rw [h _ hi] at hd
    cases hd
  entry hi hd _ _ := by
    rw [h _ hi] at hd
    cases hd

theorem tables_of_run {tr : List (Event State Call Ret)} (h₀ : NoUserPde P s₀)
    (h : Run (steps P) s₀ tr s) : Tables P s :=
  h.invariant (P := fun _ => True) h₀.tables (fun _ _ => trivial) fun _ hs _ ht => tables_step ht hs

end Nanvix.Mm
