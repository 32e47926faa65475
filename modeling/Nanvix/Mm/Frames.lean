import Nanvix.Mm.Kernel
import Nanvix.Mm.Refine

/-! Which frames user pages are mapped to, over runs of system calls. There is no reference
count, so a frame that is freed while a page is mapped to it stays mapped; and the address that a
page is linked to is not checked, so a link can lead into the kernel. What a call has to meet for
its run to stay clear of both is a condition on the state before it. -/

namespace Nanvix.Mm

open Nanvix.Lib Function

variable {P : Layout} {s s' s₀ : State} {u v f g k : ℕ} {c : Call} {r : Ret}
  {tr : List (Event State Call Ret)}

/-! ### Frames in use -/

/-- Every user frame that a user page is mapped to is allocated. -/
def Backed (P : Layout) (s : State) : Prop :=
  ∀ v f, P.IsUaddr v → translate P s v = some f → P.FrameIsValidNum f →
    frameIsAllocated P s f = true

/-- A call does not free a frame that a page stays mapped to. -/
def Careful (P : Layout) (s : State) : Call → Prop
  | .kernelFrameFree f => P.FrameIsValidNum f → ∀ v, P.IsUaddr v → translate P s v ≠ some f
  | .kernelFree v => P.Aligned v → P.IsUaddr v → ∀ f, P.FrameIsValidNum f →
      translate P s v = some f → ∀ u, P.IsUaddr u → translate P s u = some f →
        u / P.pageSize = v / P.pageSize
  | _ => True

theorem frameIsAllocated_of_valid (hf : P.FrameIsValidNum f) (s : State) :
    frameIsAllocated P s f = s.frames (P.frameNumToId f) := by
  rw [frameIsAllocated, if_neg (not_not.mpr hf)]

theorem valid_of_allocated (h : frameIsAllocated P s f = true) : P.FrameIsValidNum f := by
  by_contra hf
  rw [frameIsAllocated, if_pos hf] at h
  cases h

theorem Layout.frameNumToId_inj (hf : P.FrameIsValidNum f) (hg : P.FrameIsValidNum g)
    (h : P.frameNumToId f = P.frameNumToId g) : f = g := by
  have := hf.1
  have := hg.1
  unfold frameNumToId at h
  omega

theorem frameNumToId_ubaseFrame (P : Layout) (bit : ℕ) :
    P.frameNumToId (P.ubaseFrame + bit) = bit := by
  unfold Layout.frameNumToId
  omega

def freed (P : Layout) (s : State) (f : ℕ) : State :=
  { s with frames := update s.frames (P.frameNumToId f) false }

theorem freed_frames (P : Layout) (s : State) (f : ℕ) :
    (freed P s f).frames = update s.frames (P.frameNumToId f) false := rfl

theorem not_backed_freed (hf : P.FrameIsValidNum f) (hu : P.IsUaddr u)
    (h : translate P s u = some f) : ¬ Backed P (freed P s f) := by
  intro hb
  have halloc := hb u f hu h hf
  rw [frameIsAllocated_of_valid hf, freed_frames, update_self] at halloc
  cases halloc

namespace Backed

theorem mapped (hb : Backed P s) (h : Mapped P s v f k s')
    (hf : P.FrameIsValidNum (f % P.frameLimit) → frameIsAllocated P s (f % P.frameLimit) = true) :
    Backed P s' := by
  intro u g hu hg hvalid
  have hframes : frameIsAllocated P s' g = frameIsAllocated P s g := by
    rw [frameIsAllocated, frameIsAllocated, h.frames]
  rw [hframes]
  rw [h.translate_eq hu] at hg
  split_ifs at hg
  · obtain rfl := Option.some.inj hg
    exact hf hvalid
  · exact hb u g hu hg hvalid

theorem unmapped (hb : Backed P s) (h : Unmapped P s v k s') (ht : Tables P s)
    (hv : P.IsUaddr v) : Backed P s' := by
  intro u g hu hg hvalid
  have hframes : frameIsAllocated P s' g = frameIsAllocated P s g := by
    rw [frameIsAllocated, frameIsAllocated, h.frames]
  rw [hframes]
  rw [h.translate_eq ht hv hu] at hg
  split_ifs at hg
  exact hb u g hu hg hvalid

theorem allocated (hb : Backed P s) (bit : ℕ) :
    Backed P { s with frames := update s.frames bit true } := by
  intro u g hu hg hvalid
  have halloc := hb u g hu hg hvalid
  rw [frameIsAllocated_of_valid hvalid] at halloc ⊢
  dsimp only
  by_cases hbit : P.frameNumToId g = bit
  · rw [hbit, update_self]
  · rw [update_of_ne hbit, halloc]

theorem freed (hb : Backed P s) (hf : P.FrameIsValidNum f)
    (hno : ∀ u, P.IsUaddr u → translate P s u ≠ some f) : Backed P (freed P s f) := by
  intro u g hu hg hvalid
  have halloc := hb u g hu hg hvalid
  rw [frameIsAllocated_of_valid hvalid] at halloc ⊢
  rw [freed_frames, update_of_ne, halloc]
  intro hid
  obtain rfl := Layout.frameNumToId_inj hvalid hf hid
  exact hno u hu hg

/-- A frame that is free is not mapped. -/
theorem frameAlloc_ne (hb : Backed P s) (hs : Sane P s) (hv : P.IsUaddr v) :
    translate P s v ≠ some (frameAlloc P s).1 := by
  intro htr
  rcases frameAlloc_cases P s with ⟨bit, hbit, hfree, hout⟩ | ⟨hout, -⟩
  · rw [hout] at htr
    have halloc := hb v _ hv htr (Layout.valid_ubaseFrame_add hbit)
    rw [frameIsAllocated_of_valid (Layout.valid_ubaseFrame_add hbit), frameNumToId_ubaseFrame,
      hfree] at halloc
    cases halloc
  · rw [hout] at htr
    exact absurd (hs.1.lt_frameLimit hv htr) (Nat.not_lt.mpr P.frameLimit_le)

end Backed

theorem backed_step (hs : Sane P s) (hsys : c.IsSystem) (h : step P s c = (r, s'))
    (hb : Backed P s) (hc : Careful P s c) : Backed P s' := by
  have hmoves := moves_step hs.1 c
  rw [h] at hmoves
  cases hmoves with
  | stays => exact hb
  | map => exact hsys.elim
  | unmap hm hu => exact hb.unmapped hu hs.1 hm.2.1
  | alloc hbit _ hm hmaps =>
    obtain ⟨k, hk⟩ := hmaps.mapped (hs.1.frames _) hm.2.1
    refine (hb.allocated _).mapped hk fun hvalid => ?_
    rw [Nat.mod_eq_of_lt (Layout.valid_lt (Layout.valid_ubaseFrame_add hbit))] at hvalid ⊢
    rw [frameIsAllocated_of_valid hvalid, frameNumToId_ubaseFrame]
    exact update_self ..
  | kernelMap hf hm hmaps =>
    obtain ⟨k, hk⟩ := hmaps.mapped hs.1 hm.2.1
    refine hb.mapped hk fun _ => ?_
    rwa [Nat.mod_eq_of_lt (Layout.valid_lt (valid_of_allocated hf))]
  | @kernelLink u v f _ hf hm hmaps =>
    obtain ⟨k, hk⟩ := hmaps.mapped hs.1 hm.2.1
    refine hb.mapped hk fun hvalid => ?_
    -- The frame is one of the kernel, or a user page is mapped to it already.
    by_cases hu : UserPage P u
    · obtain ⟨w, hw, hpage⟩ := hu
      rw [← translate_congr hpage] at hf
      rw [Nat.mod_eq_of_lt (hs.1.lt_frameLimit hw hf)] at hvalid ⊢
      exact hb w f hw hf hvalid
    · obtain ⟨hlt, hn⟩ := hs.kernel_frame hu hf
      rw [Nat.mod_eq_of_lt hlt] at hvalid
      exact absurd hvalid hn
  | @kernelFree v f k s₁ hm hf hu =>
    have hb₁ := hb.unmapped hu hs.1 hm.2.1
    rcases frameFree_cases P s₁ f with ⟨hvalid, -, hout⟩ | ⟨e, hout, -⟩
    · rw [hout]
      refine hb₁.freed hvalid fun u huser htr => ?_
      rw [hu.translate_eq hs.1 hm.2.1 huser] at htr
      split_ifs at htr with hpage
      exact hpage (hc hm.2.2.1 hm.2.1 f hvalid hf u huser htr)
    · rw [hout]
      exact hb₁
  | frameAlloc => exact hb.allocated _
  | frameFree hvalid => exact hb.freed hvalid (hc hvalid)

/-- `kernel_frame_free` frees a frame that a page is mapped to. -/
theorem careful_of_frameFree (h : step P s (.kernelFrameFree f) = (r, s')) (hb : Backed P s)
    (hb' : Backed P s') : Careful P s (.kernelFrameFree f) := by
  intro hvalid v hv htr
  have halloc := hb v f hv htr hvalid
  rw [frameIsAllocated_of_valid hvalid] at halloc
  have hout : (step P s (.kernelFrameFree f)).2 = freed P s f := by
    show (kernelFrameFree P s f).2 = freed P s f
    rw [kernelFrameFree, if_neg (Layout.valid_ne_frameNull hvalid)]
    rcases frameFree_cases P s f with ⟨-, -, hout⟩ | ⟨e, -, hn⟩
    · rw [hout, freed]
    · exact absurd ⟨hvalid, halloc⟩ hn
  rw [h] at hout
  dsimp only at hout
  rw [hout] at hb'
  exact not_backed_freed hvalid hv htr hb'

/-- `kernel_upage_free` frees a frame that another page is mapped to. -/
theorem careful_of_free (hs : Sane P s) (h : step P s (.kernelFree v) = (r, s'))
    (hb : Backed P s) (hb' : Backed P s') : Careful P s (.kernelFree v) := by
  intro ha hv f hvalid hf u hu htr
  have halloc := hb v f hv hf hvalid
  rw [frameIsAllocated_of_valid hvalid] at halloc
  have hstep : (step P s (.kernelFree v)).2 = (upageFree P s .root v).2 := by
    show (kernelUpageFree P s v).2 = _
    rw [kernelUpageFree, checkUaddr_of_user ha hv]
  rw [h] at hstep
  dsimp only at hstep
  by_contra hpage
  rcases upageFree_cases hs.1 v with ⟨g, k, s₁, -, hg, hun, hout⟩ | ⟨-, hun⟩
  · rw [hf] at hg
    obtain rfl := Option.some.inj hg
    have htr₁ : translate P s₁ u = some f := by
      rw [hun.translate_eq hs.1 hv hu, if_neg hpage, htr]
    rcases frameFree_cases P s₁ f with ⟨-, -, hfree⟩ | ⟨e, -, hn⟩
    · rw [hstep, hout, hfree] at hb'
      exact not_backed_freed hvalid hu htr₁ hb'
    · rw [hun.frames] at hn
      exact hn ⟨hvalid, halloc⟩
  · exact hun ⟨rfl, hv, ha, by simp [hf]⟩

theorem backed_step_iff (hs : Sane P s) (hsys : c.IsSystem) (h : step P s c = (r, s'))
    (hb : Backed P s) : Backed P s' ↔ Careful P s c := by
  refine ⟨fun hb' => ?_, backed_step hs hsys h hb⟩
  cases c with
  | kernelFrameFree f => exact careful_of_frameFree h hb hb'
  | kernelFree v => exact careful_of_free hs h hb hb'
  | _ => trivial

theorem Boot.backed (h : Boot P s) : Backed P s := by
  intro v f hv htr
  rw [translate, TwoLevel.lookup_of_none (h.user _ ⟨v, hv, rfl⟩)] at htr
  cases htr

/-- In a run of system calls, every user frame that a page is mapped to is allocated all along
exactly if no call frees a frame that a page stays mapped to; then `frame_alloc` does not return a
frame that is mapped. -/
theorem frames_allocated_iff (h₀ : Boot P s₀) (h : Run (steps P) s₀ tr s)
    (hsys : ∀ e ∈ tr, e.act.IsSystem) :
    Backed P s₀ ∧ ((∀ e ∈ tr, Backed P e.post) ↔ ∀ e ∈ tr, Careful P e.pre e.act) ∧
      ((∀ e ∈ tr, Careful P e.pre e.act) →
        Backed P s ∧ ∀ v, P.IsUaddr v → translate P s v ≠ some (frameAlloc P s).1) := by
  have hiff := always_iff h₀ h₀.backed backed_step_iff h hsys
  refine ⟨h₀.backed, hiff, fun hcareful => ?_⟩
  have hb : Backed P s := by
    rcases h.eq_or_exists_post with rfl | ⟨e, he, rfl⟩
    · exact h₀.backed
    · exact hiff.mpr hcareful e he
  exact ⟨hb, fun v hv => hb.frameAlloc_ne (sane_of_run h₀ h) hv⟩

theorem boot_blank (P : Layout) : Boot P blank where
  user := noUserPde_blank P
  kernel _ hd := by cases hd
  page _ hd := by cases hd

def after (P : Layout) (s : State) (cs : List Call) : State :=
  cs.foldl (fun s c => (step P s c).2) s

theorem frames_allocated_iff_reuse :
    Backed layout32 (after layout32 blank
      [.kernelFrameAlloc, .kernelFrameFree 0x1000, .kernelAlloc 0x40000000]) := by
  let s₁ := after layout32 blank [.kernelFrameAlloc]
  let s₂ := after layout32 blank [.kernelFrameAlloc, .kernelFrameFree 0x1000]
  have h₁ : steps layout32 blank .kernelFrameAlloc (.frame 0x1000) s₁ := rfl
  have h₂ : steps layout32 s₁ (.kernelFrameFree 0x1000) (.code none) s₂ := rfl
  have h₃ : steps layout32 s₂ (.kernelAlloc 0x40000000) (.code none) (after layout32 blank
      [.kernelFrameAlloc, .kernelFrameFree 0x1000, .kernelAlloc 0x40000000]) := rfl
  have h := frames_allocated_iff (boot_blank layout32) (.snoc (.snoc (.snoc .nil h₁) h₂) h₃)
    (by simp [Call.IsSystem])
  refine (h.2.2 ?_).1
  have hfree : Careful layout32 s₁ (.kernelFrameFree 0x1000) := by
    intro _ v _ htr
    cases htr
  refine List.forall_mem_append.mpr ⟨List.forall_mem_append.mpr ⟨?_,
    List.forall_mem_singleton.mpr hfree⟩, List.forall_mem_singleton.mpr trivial⟩
  exact List.forall_mem_singleton.mpr trivial

/-- A page is allocated and its frame freed; the page stays mapped to it, and the next allocation
returns it again. -/
theorem not_frames_allocated :
    ∃ s s' : State, Boot layout32 blank ∧
      Run (steps layout32) blank
        [⟨blank, .kernelAlloc 0x40000000, .code none, s⟩,
          ⟨s, .kernelFrameFree 0x1000, .code none, s'⟩] s' ∧
      translate layout32 s' 0x40000000 = some 0x1000 ∧
      (frameAlloc layout32 s').1 = 0x1000 ∧ ¬ Backed layout32 s' := by
  let s := after layout32 blank [.kernelAlloc 0x40000000]
  let s' := after layout32 blank [.kernelAlloc 0x40000000, .kernelFrameFree 0x1000]
  have h₁ : steps layout32 blank (.kernelAlloc 0x40000000) (.code none) s := rfl
  have h₂ : steps layout32 s (.kernelFrameFree 0x1000) (.code none) s' := rfl
  refine ⟨s, s', boot_blank layout32, .snoc (.snoc .nil h₁) h₂, rfl, rfl, fun hb => ?_⟩
  have halloc := hb 0x40000000 0x1000 (by decide) rfl (by decide)
  cases halloc

/-! ### Frames of the kernel -/

/-- Every user page is mapped to a user frame. -/
def Isolated (P : Layout) (s : State) : Prop :=
  ∀ v f, P.IsUaddr v → translate P s v = some f → P.FrameIsValidNum f

def LinksUser (P : Layout) (s : State) : Call → Prop
  | .kernelLink u v => translate P s u ≠ none → Mappable P s .root v → UserPage P u
  | _ => True

theorem Isolated.frames (hi : Isolated P s) (fs : ℕ → Bool) :
    Isolated P { s with frames := fs } := hi

theorem Isolated.mapped (hi : Isolated P s) (h : Mapped P s v f k s')
    (hf : P.FrameIsValidNum (f % P.frameLimit)) : Isolated P s' := by
  intro u g hu hg
  rw [h.translate_eq hu] at hg
  split_ifs at hg
  · obtain rfl := Option.some.inj hg
    exact hf
  · exact hi u g hu hg

theorem Isolated.unmapped (hi : Isolated P s) (h : Unmapped P s v k s') (ht : Tables P s)
    (hv : P.IsUaddr v) : Isolated P s' := by
  intro u g hu hg
  rw [h.translate_eq ht hv hu] at hg
  split_ifs at hg
  exact hi u g hu hg

theorem isolated_step (hs : Sane P s) (hsys : c.IsSystem) (h : step P s c = (r, s'))
    (hi : Isolated P s) (hc : LinksUser P s c) : Isolated P s' := by
  have hmoves := moves_step hs.1 c
  rw [h] at hmoves
  cases hmoves with
  | stays => exact hi
  | map => exact hsys.elim
  | unmap hm hu => exact hi.unmapped hu hs.1 hm.2.1
  | alloc hbit _ hm hmaps =>
    have hvalid := Layout.valid_ubaseFrame_add hbit
    obtain ⟨k, hk⟩ := hmaps.mapped (hs.1.frames _) hm.2.1
    refine (hi.frames _).mapped hk ?_
    rwa [Nat.mod_eq_of_lt (Layout.valid_lt hvalid)]
  | kernelMap hf hm hmaps =>
    have hvalid := valid_of_allocated hf
    obtain ⟨k, hk⟩ := hmaps.mapped hs.1 hm.2.1
    refine hi.mapped hk ?_
    rwa [Nat.mod_eq_of_lt (Layout.valid_lt hvalid)]
  | @kernelLink u v f _ hf hm hmaps =>
    obtain ⟨w, hw, hpage⟩ := hc (by simp [hf]) hm
    rw [← translate_congr hpage] at hf
    have hvalid := hi w f hw hf
    obtain ⟨k, hk⟩ := hmaps.mapped hs.1 hm.2.1
    refine hi.mapped hk ?_
    rwa [Nat.mod_eq_of_lt (Layout.valid_lt hvalid)]
  | @kernelFree v f k s₁ hm hf hu =>
    have hi₁ := hi.unmapped hu hs.1 hm.2.1
    rcases frameFree_cases P s₁ f with ⟨-, -, hout⟩ | ⟨e, hout, -⟩
    · rw [hout]
      exact hi₁
    · rw [hout]
      exact hi₁
  | frameAlloc => exact hi
  | frameFree => exact hi

/-- `kernel_upage_link` maps a user page to a frame of the kernel. -/
theorem linksUser_of_link (hs : Sane P s) (h : step P s (.kernelLink u v) = (r, s'))
    (hi' : Isolated P s') : LinksUser P s (.kernelLink u v) := by
  intro hu hm
  have hstep : (step P s (.kernelLink u v)).2 = (upageLink P s .root u v).2 := by
    show (kernelUpageLink P s u v).2 = _
    rw [kernelUpageLink, checkUaddr_of_user hm.2.2.1 hm.2.1]
  rw [h] at hstep
  dsimp only at hstep
  by_contra hpage
  rcases upageLink_cases P s u v with ⟨f, s₁, hf, -, hlink, hmaps⟩ | ⟨e, -, hn⟩
  · obtain ⟨hlt, hkernel⟩ := hs.kernel_frame hpage hf
    obtain ⟨k, hk⟩ := hmaps.mapped hs.1 hm.2.1
    have htr : translate P s₁ v = some f := by
      rw [hk.translate_eq hm.2.1, if_pos rfl, Nat.mod_eq_of_lt hlt]
    rw [hstep, hlink] at hi'
    exact hkernel (hi' v f hm.2.1 htr)
  · exact hn ⟨hu, hm⟩

theorem isolated_step_iff (hs : Sane P s) (hsys : c.IsSystem) (h : step P s c = (r, s'))
    (hi : Isolated P s) : Isolated P s' ↔ LinksUser P s c := by
  refine ⟨fun hi' => ?_, isolated_step hs hsys h hi⟩
  cases c with
  | kernelLink u v => exact linksUser_of_link hs h hi'
  | _ => trivial

theorem Boot.isolated (h : Boot P s) : Isolated P s := by
  intro v f hv htr
  rw [translate, TwoLevel.lookup_of_none (h.user _ ⟨v, hv, rfl⟩)] at htr
  cases htr

/-- In a run of system calls, user pages are mapped to user frames all along exactly if every
link that takes effect is to an address of user space. -/
theorem user_frames_iff (h₀ : Boot P s₀) (h : Run (steps P) s₀ tr s)
    (hsys : ∀ e ∈ tr, e.act.IsSystem) :
    Isolated P s₀ ∧ ((∀ e ∈ tr, Isolated P e.post) ↔ ∀ e ∈ tr, LinksUser P e.pre e.act) :=
  ⟨h₀.isolated, always_iff h₀ h₀.isolated isolated_step_iff h hsys⟩

/-- The kernel has a page table in frame 2 that maps its fourth page to frame 3. -/
def kernelOnly : State :=
  { blank with
    pgdir := fun i => if i = 0 then ⟨true, 2⟩ else .clear
    tables := fun k j => if k = 2 ∧ j = 3 then ⟨true, 3⟩ else .clear }

theorem not_userIdx_zero : ¬ UserIdx layout32 0 := by
  rintro ⟨v, hv, hidx⟩
  have hbase : 0x40000000 ≤ v := hv.1
  have hdiv : v / 4096 / 1024 = 0 := hidx
  omega

theorem boot_kernelOnly : Boot layout32 kernelOnly where
  user i hi := by
    have h0 : i ≠ 0 := by
      rintro rfl
      exact not_userIdx_zero hi
    simp [dirOf, kernelOnly, h0, Entry.target, Entry.clear]
  kernel {i j k f} _ hd _ htab := by
    have hf : f = 3 := by
      have h := (Entry.target_eq_some.mp htab).2
      have hp := (Entry.target_eq_some.mp htab).1
      by_cases hkj : k = 2 ∧ j = 3
      · simpa [kernelOnly, hkj] using h.symm
      · simp [kernelOnly, hkj, Entry.clear] at hp
    subst hf
    decide
  page {i k} _ hd hk := by
    have hk2 : k = 2 := by
      have h := (Entry.target_eq_some.mp hd).2
      have hp := (Entry.target_eq_some.mp hd).1
      by_cases hi : i = 0
      · simpa [kernelOnly, hi] using h.symm
      · simp [kernelOnly, hi, Entry.clear] at hp
    subst hk2
    exact absurd hk (by decide)

theorem user_frames_iff_link :
    Isolated layout32 (after layout32 kernelOnly
      [.kernelAlloc 0x40000000, .kernelLink 0x40000000 0x40001000]) := by
  let s₁ := after layout32 kernelOnly [.kernelAlloc 0x40000000]
  have h₁ : steps layout32 kernelOnly (.kernelAlloc 0x40000000) (.code none) s₁ := rfl
  have h₂ : steps layout32 s₁ (.kernelLink 0x40000000 0x40001000) (.code none)
      (after layout32 kernelOnly [.kernelAlloc 0x40000000, .kernelLink 0x40000000 0x40001000]) :=
    rfl
  have h := user_frames_iff boot_kernelOnly (.snoc (.snoc .nil h₁) h₂) (by simp [Call.IsSystem])
  have hlink : LinksUser layout32 s₁ (.kernelLink 0x40000000 0x40001000) :=
    fun _ _ => ⟨0x40000000, by decide, rfl⟩
  refine h.2.mpr ?_ ⟨_, _, _, _⟩ (List.mem_append_right _ (List.mem_singleton_self _))
  exact List.forall_mem_append.mpr
    ⟨List.forall_mem_singleton.mpr trivial, List.forall_mem_singleton.mpr hlink⟩

/-- A user page is linked to an address of the kernel, and so to a frame of the kernel. -/
theorem not_user_frames :
    ∃ s : State, Boot layout32 kernelOnly ∧
      Run (steps layout32) kernelOnly
        [⟨kernelOnly, .kernelLink 0x3000 0x40000000, .code none, s⟩] s ∧
      translate layout32 s 0x40000000 = some 3 ∧ ¬ layout32.FrameIsValidNum 3 ∧
      ¬ Isolated layout32 s := by
  have h : steps layout32 kernelOnly (.kernelLink 0x3000 0x40000000) (.code none)
      (after layout32 kernelOnly [.kernelLink 0x3000 0x40000000]) := rfl
  refine ⟨_, boot_kernelOnly, .snoc .nil h, rfl, by decide, fun hi => ?_⟩
  exact absurd (hi 0x40000000 3 (by decide) rfl) (by decide)

end Nanvix.Mm
