import Mathlib.Data.Set.Card
import Nanvix.Mm.Frames

/-! Allocating and freeing user pages conserves memory. Three allocators work together: the bitmap
of user frames, the counters of kernel pages, and the page tables that come and go with the pages
in them. In a run of `upage_alloc` and `upage_free` from an empty address space a frame is
allocated exactly if a page is mapped to it, and a kernel page is taken exactly if it has the
table of a span with a page in it. -/

namespace Nanvix.Mm

open Nanvix.Lib Function
open Errno

variable {P : Layout} {s s' s₀ : State} {u v f g i j k bit : ℕ} {pgdir : Pgdir}

inductive PageCall where
  | alloc (pgdir : Pgdir) (vaddr : ℕ)
  | free (pgdir : Pgdir) (vaddr : ℕ)
  deriving DecidableEq, Repr

def pageStep (P : Layout) (s : State) : PageCall → Option Errno × State
  | .alloc pgdir vaddr => upageAlloc P s pgdir vaddr
  | .free pgdir vaddr => upageFree P s pgdir vaddr

def pageSteps (P : Layout) : Steps State PageCall (Option Errno) := fun s c r s' => pageStep P s c = (r, s')

/-- The user address space is empty. The kernel may have taken kernel pages for itself. -/
structure EmptySpace (P : Layout) (s : State) : Prop where
  user : NoUserPde P s
  frames : ∀ bit < P.numUframes, s.frames bit = false

/-- The spans of page tables that contain a mapped page. -/
def spans (P : Layout) (s : State) : Set ℕ :=
  {i | ∃ v, P.IsUaddr v ∧ P.pdeIdx v = i ∧ translate P s v ≠ none}

def taken (s₀ s : State) : Set ℕ := {i | s.kpages i ≠ s₀.kpages i}

structure Conserved (P : Layout) (s₀ s : State) : Prop where
  tables : Tables P s
  frames : ∀ {f}, frameIsAllocated P s f = true ↔ ∃ v, P.IsUaddr v ∧ translate P s v = some f
  inj : ∀ {u v f}, P.IsUaddr u → P.IsUaddr v → translate P s u = some f → translate P s v = some f →
    u / P.pageSize = v / P.pageSize
  held : ∀ {i k}, UserIdx P i → dirOf s i = some k → s₀.kpages (P.kpageId k) = 0
  rest : ∀ {i}, s.kpages i ≠ s₀.kpages i → ∃ j k, UserIdx P j ∧ dirOf s j = some k ∧ P.kpageId k = i

theorem EmptySpace.conserved (h : EmptySpace P s) : Conserved P s s where
  tables := h.user.tables
  frames {f} := by
    constructor
    · intro hf
      have hvalid := valid_of_allocated hf
      rw [frameIsAllocated_of_valid hvalid, h.frames] at hf
      · cases hf
      · have := hvalid.1
        have := hvalid.2
        unfold Layout.frameNumToId
        omega
    · rintro ⟨v, hv, htr⟩
      rw [translate, TwoLevel.lookup_of_none (h.user _ ⟨v, hv, rfl⟩)] at htr
      cases htr
  inj {u v f} hu _ htr := by
    rw [translate, TwoLevel.lookup_of_none (h.user _ ⟨u, hu, rfl⟩)] at htr
    cases htr
  held hi hd := by
    rw [h.user _ hi] at hd
    cases hd
  rest h := absurd rfl h

/-! ### The steps -/

theorem frameIsAllocated_update (hbit : bit < P.numUframes) (b : Bool)
    (hs' : s'.frames = update s.frames bit b) (hf : f ≠ P.ubaseFrame + bit) :
    frameIsAllocated P s' f = frameIsAllocated P s f := by
  by_cases hvalid : P.FrameIsValidNum f
  · rw [frameIsAllocated_of_valid hvalid, frameIsAllocated_of_valid hvalid, hs', update_of_ne]
    intro hid
    refine hf (Layout.frameNumToId_inj hvalid (Layout.valid_ubaseFrame_add hbit) ?_)
    rw [hid, frameNumToId_ubaseFrame]
  · rw [frameIsAllocated, frameIsAllocated, if_pos hvalid, if_pos hvalid]

theorem frameIsAllocated_update_self (hbit : bit < P.numUframes) (b : Bool)
    (hs' : s'.frames = update s.frames bit b) :
    frameIsAllocated P s' (P.ubaseFrame + bit) = b := by
  rw [frameIsAllocated_of_valid (Layout.valid_ubaseFrame_add hbit), hs', frameNumToId_ubaseFrame,
    update_self]

theorem Conserved.not_mapped (h : Conserved P s₀ s) (hbit : bit < P.numUframes)
    (hfree : s.frames bit = false) (hu : P.IsUaddr u) : translate P s u ≠ some (P.ubaseFrame + bit) := by
  intro htr
  have halloc := h.frames.mpr ⟨u, hu, htr⟩
  rw [frameIsAllocated_of_valid (Layout.valid_ubaseFrame_add hbit), frameNumToId_ubaseFrame, hfree] at halloc
  cases halloc

theorem Conserved.mapped (h : Conserved P s₀ s) (hbit : bit < P.numUframes) (hfree : s.frames bit = false)
    (hv : P.IsUaddr v) (hnone : translate P s v = none)
    (hm : Mapped P { s with frames := update s.frames bit true } v (P.ubaseFrame + bit) k s') :
    Conserved P s₀ s' := by
  have hlim : (P.ubaseFrame + bit) % P.frameLimit = P.ubaseFrame + bit :=
    Nat.mod_eq_of_lt (Layout.valid_lt (Layout.valid_ubaseFrame_add hbit))
  have htr : ∀ {u}, P.IsUaddr u → translate P s' u =
      if u / P.pageSize = v / P.pageSize then some (P.ubaseFrame + bit) else translate P s u := by
    intro u hu
    rw [hm.translate_eq hu, hlim]
    rfl
  constructor
  case tables => exact hm.tables (h.tables.frames _) hv
  case frames =>
    intro f
    by_cases hf : f = P.ubaseFrame + bit
    · subst hf
      rw [frameIsAllocated_update_self hbit true hm.frames]
      refine iff_of_true rfl ⟨v, hv, ?_⟩
      rw [htr hv, if_pos rfl]
    · rw [frameIsAllocated_update hbit true hm.frames hf, h.frames]
      refine exists_congr fun u => and_congr_right fun hu => ?_
      rw [htr hu]
      split_ifs with hpage
      · rw [translate_congr hpage, hnone]
        exact iff_of_false (by simp) fun heq => hf (Option.some.inj heq).symm
      · rfl
  case inj =>
    intro u w f hu hw hfu hfw
    rw [htr hu] at hfu
    rw [htr hw] at hfw
    split_ifs at hfu with hpu
    · split_ifs at hfw with hpw
      · rw [hpu, hpw]
      · rw [← hfu] at hfw
        exact absurd hfw (h.not_mapped hbit hfree hw)
    · split_ifs at hfw with hpw
      · rw [← hfw] at hfu
        exact absurd hfu (h.not_mapped hbit hfree hu)
      · exact h.inj hu hw hfu hfw
  case held =>
    intro i k' hi hd
    rcases hm.dirOf_cases hd with ⟨rfl, rfl⟩ | ⟨-, hd⟩
    · rcases hm.was with ⟨hd, -⟩ | ⟨-, hcount⟩
      · exact h.held hi hd
      · -- the kernel page was free, and so it was at the start
        by_contra hne
        obtain ⟨j, k, hj, hdj, hid⟩ := h.rest (i := P.kpageId k') fun heq => hne (heq ▸ hcount)
        exact hne (hid ▸ h.held hj hdj)
    · exact h.held hi hd
  case rest =>
    intro i hne
    by_cases hi : i = P.kpageId k
    · refine ⟨P.pdeIdx v, k, ⟨v, hv, rfl⟩, ?_, hi.symm⟩
      rw [hm.dir, update_self]
    · rw [hm.kpages i hi] at hne
      obtain ⟨j, k', hj, hd, hid⟩ := h.rest hne
      refine ⟨j, k', hj, ?_, hid⟩
      have hjv : j ≠ P.pdeIdx v := by
        rintro rfl
        rcases hm.was with ⟨hd', -⟩ | ⟨hd', -⟩
        · have hk : k' = k := Option.some.inj (hd.symm.trans hd')
          exact hi (hk ▸ hid.symm)
        · cases hd.symm.trans hd'
      rw [hm.dir, update_of_ne hjv]
      exact hd

theorem Conserved.unmapped (h : Conserved P s₀ s) (hbit : bit < P.numUframes) (hv : P.IsUaddr v)
    (htr : translate P s v = some (P.ubaseFrame + bit)) (hun : Unmapped P s v k s') :
    Conserved P s₀ { s' with frames := update s'.frames bit false } := by
  have hout : ∀ {u}, P.IsUaddr u →
      translate P { s' with frames := update s'.frames bit false } u =
        if u / P.pageSize = v / P.pageSize then none else translate P s u :=
    fun hu => hun.translate_eq h.tables hv hu
  have hframes : ({ s' with frames := update s'.frames bit false } : State).frames =
      update s.frames bit false := by
    dsimp only
    rw [hun.frames]
  constructor
  case tables => exact (hun.tables h.tables hv).frames _
  case frames =>
    intro f
    by_cases hf : f = P.ubaseFrame + bit
    · subst hf
      rw [frameIsAllocated_update_self hbit false hframes]
      refine iff_of_false (by simp) ?_
      rintro ⟨u, hu, hfu⟩
      rw [hout hu] at hfu
      split_ifs at hfu with hpage
      exact hpage (h.inj hu hv hfu htr)
    · rw [frameIsAllocated_update hbit false hframes hf, h.frames]
      refine exists_congr fun u => and_congr_right fun hu => ?_
      rw [hout hu]
      split_ifs with hpage
      · rw [translate_congr hpage, htr]
        exact iff_of_false (fun heq => hf (Option.some.inj heq).symm) (by simp)
      · rfl
  case inj =>
    intro u w f hu hw hfu hfw
    rw [hout hu] at hfu
    rw [hout hw] at hfw
    split_ifs at hfu
    split_ifs at hfw
    exact h.inj hu hw hfu hfw
  case held =>
    intro i k' hi hd
    exact h.held hi (hun.dirOf_of_some hd)
  case rest =>
    intro i hne
    rcases hun.out with ⟨hd', hkp, -⟩ | ⟨hd', hkp, -⟩
    · obtain ⟨j, k', hj, hd, hid⟩ := h.rest (i := i) (by rwa [← hkp])
      refine ⟨j, k', hj, ?_, hid⟩
      by_cases hjv : j = P.pdeIdx v
      · subst hjv
        exact hd'.trans (hun.found.symm.trans hd)
      · exact (hun.dir j hjv).trans hd
    · by_cases hi : i = P.kpageId k
      · -- the kernel page of the table was free at the start
        subst hi
        refine absurd ?_ hne
        dsimp only
        rw [hkp, update_self, h.held ⟨v, hv, rfl⟩ hun.found]
      · obtain ⟨j, k', hj, hd, hid⟩ := h.rest (i := i) fun heq => hne (by
          dsimp only
          rw [hkp, update_of_ne hi, heq])
        refine ⟨j, k', hj, ?_, hid⟩
        have hjv : j ≠ P.pdeIdx v := by
          rintro rfl
          have hk : k' = k := Option.some.inj (hd.symm.trans hun.found)
          exact hi (hk ▸ hid.symm)
        exact (hun.dir j hjv).trans hd

/-- `upage_free` returns 0 for a mapped page, and frees its frame. -/
theorem Conserved.upageFree_eq (h : Conserved P s₀ s) (pgdir : Pgdir) (v : ℕ) :
    (∃ bit < P.numUframes, ∃ k s', P.IsUaddr v ∧ translate P s v = some (P.ubaseFrame + bit) ∧
        Unmapped P s v k s' ∧
        upageFree P s pgdir v = (none, { s' with frames := update s'.frames bit false })) ∨
      upageFree P s pgdir v = (some .EFAULT, s) := by
  unfold upageFree
  by_cases hnull : pgdir = .null
  · rw [if_pos hnull]
    exact .inr rfl
  rw [if_neg hnull]
  rcases upageUnmap_cases h.tables pgdir v with ⟨f, k, s', hunmap, hable, htr, hun⟩ | ⟨hunmap, -⟩
  · have halloc := h.frames.mpr ⟨v, hable.2.1, htr⟩
    have hvalid := valid_of_allocated halloc
    rw [frameIsAllocated_of_valid hvalid] at halloc
    obtain ⟨bit, rfl⟩ := Nat.exists_eq_add_of_le hvalid.1
    have hbit : bit < P.numUframes := Nat.lt_of_add_lt_add_left hvalid.2
    rw [hunmap]
    dsimp only
    rw [if_neg (Layout.valid_ne_frameNull hvalid)]
    refine .inl ⟨bit, hbit, k, s', hable.2.1, htr, hun, ?_⟩
    rcases frameFree_cases P s' (P.ubaseFrame + bit) with ⟨-, -, hfree⟩ | ⟨e, -, hno⟩
    · rw [hfree, frameNumToId_ubaseFrame]
    · rw [hun.frames] at hno
      exact absurd ⟨hvalid, halloc⟩ hno
  · rw [hunmap]
    dsimp only
    rw [if_pos rfl]
    exact .inr rfl

theorem Conserved.step (h : Conserved P s₀ s) (c : PageCall) : Conserved P s₀ (pageStep P s c).2 := by
  cases c with
  | alloc pgdir v =>
    show Conserved P s₀ (upageAlloc P s pgdir v).2
    rcases upageAlloc_cases P s pgdir v with ⟨bit, hbit, hfree, hable, s', hout, hmaps⟩ | ⟨e, hout, -⟩
    · rw [hout]
      obtain ⟨k, hm⟩ := hmaps.mapped (h.tables.frames _) hable.2.1
      exact h.mapped hbit hfree hable.2.1 hable.2.2.2.1 hm
    · rw [hout]
      exact h
  | free pgdir v =>
    show Conserved P s₀ (upageFree P s pgdir v).2
    rcases h.upageFree_eq pgdir v with ⟨bit, hbit, k, s', hv, htr, hun, hout⟩ | hout
    · rw [hout]
      exact h.unmapped hbit hv htr hun
    · rw [hout]
      exact h

/-! ### Kernel pages -/

theorem Conserved.mem_spans (h : Conserved P s₀ s) (hi : UserIdx P i) (hd : dirOf s i = some k) :
    i ∈ spans P s := by
  obtain ⟨j, hj, hne⟩ := h.tables.used hi hd
  obtain ⟨f, hf⟩ := Option.ne_none_iff_exists'.mp hne
  obtain ⟨-, v, hv, rfl, rfl⟩ := h.tables.entry hi hd hj hf
  refine ⟨v, hv, rfl, ?_⟩
  rw [translate, TwoLevel.lookup_of_some hd]
  exact hne

theorem dirOf_of_spans (h : i ∈ spans P s) : UserIdx P i ∧ ∃ k, dirOf s i = some k := by
  obtain ⟨v, hv, rfl, hne⟩ := h
  refine ⟨⟨v, hv, rfl⟩, ?_⟩
  rw [← Option.ne_none_iff_exists']
  intro hnone
  exact hne (TwoLevel.lookup_of_none hnone)

def tablePage (P : Layout) (s : State) (i : ℕ) : ℕ := P.kpageId ((dirOf s i).getD 0)

theorem Conserved.taken_eq (h : Conserved P s₀ s) : taken s₀ s = Set.image (tablePage P s) (spans P s) := by
  ext i
  constructor
  · intro hi
    obtain ⟨j, k, hj, hd, rfl⟩ := h.rest hi
    exact ⟨j, h.mem_spans hj hd, by rw [tablePage, hd, Option.getD_some]⟩
  · rintro ⟨j, hj, rfl⟩
    obtain ⟨hidx, k, hd⟩ := dirOf_of_spans hj
    rw [tablePage, hd, Option.getD_some]
    show s.kpages (P.kpageId k) ≠ s₀.kpages (P.kpageId k)
    rw [(h.tables.page hidx hd).2, h.held hidx hd]
    exact Nat.one_ne_zero

theorem Conserved.tablePage_inj (h : Conserved P s₀ s) : Set.InjOn (tablePage P s) (spans P s) := by
  intro i hi j hj heq
  obtain ⟨hidx, k, hd⟩ := dirOf_of_spans hi
  obtain ⟨hjdx, k', hd'⟩ := dirOf_of_spans hj
  rw [tablePage, tablePage, hd, hd', Option.getD_some, Option.getD_some] at heq
  have hk : k = k' := by
    rw [← Layout.kpageFrame_kpageId (h.tables.page hidx hd).1, heq,
      Layout.kpageFrame_kpageId (h.tables.page hjdx hd').1]
  exact h.tables.inj hidx hjdx hd (hk ▸ hd')

/-! ### Runs -/

/-- In every run of `upage_alloc` and `upage_free` from an empty address space, distinct pages are
mapped to distinct frames, the frames in use are those that pages are mapped to, and as many
kernel pages have been taken as there are spans with a page, each of them once. `upage_free`
does not fail to release a frame. With no page mapped, all frames are free and the kernel pages
are as they were at the start. -/
theorem pages_conserve_memory {tr : List (Event State PageCall (Option Errno))} (h₀ : EmptySpace P s₀)
    (h : Run (pageSteps P) s₀ tr s) :
    (∀ u v f, P.IsUaddr u → P.IsUaddr v → translate P s u = some f → translate P s v = some f →
      u / P.pageSize = v / P.pageSize) ∧
    (∀ f, frameIsAllocated P s f = true ↔ ∃ v, P.IsUaddr v ∧ translate P s v = some f) ∧
    (taken s₀ s).encard = (spans P s).encard ∧
    (∀ i ∈ taken s₀ s, s₀.kpages i = 0 ∧ s.kpages i = 1) ∧
    (∀ pgdir v, (upageFree P s pgdir v).1 ≠ (some EIO : Option Errno)) ∧
    ((∀ v, P.IsUaddr v → translate P s v = none) →
      (∀ bit < P.numUframes, s.frames bit = false) ∧ s.kpages = s₀.kpages) := by
  have hc : Conserved P s₀ s := h.invariant (P := fun _ => True) h₀.conserved (fun _ _ => trivial)
    fun e hs _ hI => by
      have := hI.step (P := P) e.act
      rwa [show pageStep P e.pre e.act = (e.out, e.post) from hs] at this
  refine ⟨fun u v f => hc.inj, fun f => hc.frames, ?_, fun i hi => ?_, fun pgdir v => ?_, fun hnone => ?_⟩
  · rw [hc.taken_eq]
    exact hc.tablePage_inj.encard_image
  · obtain ⟨j, k, hj, hd, rfl⟩ := hc.rest hi
    exact ⟨hc.held hj hd, (hc.tables.page hj hd).2⟩
  · rcases hc.upageFree_eq pgdir v with ⟨bit, -, k, s', -, -, -, hout⟩ | hout <;> rw [hout] <;> simp
  · constructor
    · intro bit hbit
      by_contra hb
      have halloc : frameIsAllocated P s (P.ubaseFrame + bit) = true := by
        rw [frameIsAllocated_of_valid (Layout.valid_ubaseFrame_add hbit), frameNumToId_ubaseFrame]
        simpa using hb
      obtain ⟨v, hv, htr⟩ := hc.frames.mp halloc
      rw [hnone v hv] at htr
      cases htr
    · funext i
      by_contra hne
      obtain ⟨j, k, hj, hd, -⟩ := hc.rest hne
      obtain ⟨v, hv, -, hmap⟩ := hc.mem_spans hj hd
      exact hmap (hnone v hv)

/-- Two pages of one span share a kernel page, and the last of them to go gives it back. -/
theorem pages_conserve_memory_span :
    ∃ s, Run (pageSteps layout32) blank (trail (pageStep layout32) blank [.alloc .root 0x40000000,
        .alloc .root 0x40001000, .free .root 0x40000000]) s ∧
      translate layout32 s 0x40001000 = some 0x1001 ∧ (taken blank s).encard = (spans layout32 s).encard := by
  have hrun := trail_run (pageStep layout32) blank
    [.alloc .root 0x40000000, .alloc .root 0x40001000, .free .root 0x40000000]
  exact ⟨_, hrun, by decide +kernel, (pages_conserve_memory ⟨noUserPde_blank layout32, fun _ _ => rfl⟩ hrun).2.2.1⟩

end Nanvix.Mm
