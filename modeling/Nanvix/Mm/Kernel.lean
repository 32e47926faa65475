import Nanvix.Mm.Space

/-! The kernel part of the address space. System calls leave it as it is, since the page tables of
user space are made in kernel pages that are free; so an address outside user space is translated
to a frame of the kernel, in every state of a run. -/

namespace Nanvix.Mm

open Nanvix.Lib

variable {P : Layout} {s s' s₀ : State} {u v f i k : ℕ} {c : Call} {r : Ret}
  {tr : List (Event State Call Ret)}

/-- The address space that the system boots with: there are no user pages, and the kernel part
is mapped to frames of the kernel, by page tables that are not in free kernel pages. -/
structure Boot (P : Layout) (s : State) : Prop where
  user : NoUserPde P s
  kernel : ∀ {i j k f}, ¬ UserIdx P i → dirOf s i = some k → j < P.scanLength →
    tabOf s k j = some f → f < P.frameLimit ∧ ¬ P.FrameIsValidNum f
  page : ∀ {i k}, ¬ UserIdx P i → dirOf s i = some k → P.IsKpage k → s.kpages (P.kpageId k) ≠ 0

structure Kernel (P : Layout) (s : State) : Prop where
  entry : ∀ {i j k f}, ¬ UserIdx P i → dirOf s i = some k → j < P.scanLength →
    tabOf s k j = some f → f < P.frameLimit ∧ ¬ P.FrameIsValidNum f
  page : ∀ {i k}, ¬ UserIdx P i → dirOf s i = some k → P.IsKpage k → s.kpages (P.kpageId k) ≠ 0
  apart : ∀ {i i' k}, UserIdx P i → ¬ UserIdx P i' → dirOf s i = some k → dirOf s i' ≠ some k

theorem Boot.kernelPart (h : Boot P s) : Kernel P s where
  entry := h.kernel
  page := h.page
  apart hi _ hd := by
    rw [h.user _ hi] at hd
    cases hd

theorem Kernel.frames (h : Kernel P s) (fs : ℕ → Bool) : Kernel P { s with frames := fs } :=
  ⟨h.entry, h.page, h.apart⟩

theorem Layout.kpageId_ne {k k' : ℕ} (hk : P.IsKpage k) (hk' : P.IsKpage k') (hne : k' ≠ k) :
    P.kpageId k' ≠ P.kpageId k := by
  intro hid
  apply hne
  rw [← kpageFrame_kpageId hk', hid, kpageFrame_kpageId hk]

theorem Mapped.kernel (h : Mapped P s v f k s') (hk : Kernel P s) (hv : P.IsUaddr v) :
    Kernel P s' := by
  have hidx : UserIdx P (P.pdeIdx v) := ⟨v, hv, rfl⟩
  have hdir : ∀ {i}, ¬ UserIdx P i → dirOf s' i = dirOf s i := by
    intro i hi
    rw [h.dir, Function.update_of_ne]
    rintro rfl
    exact hi hidx
  -- The table that is written is not one of the kernel's.
  have hne : ∀ {i k'}, ¬ UserIdx P i → dirOf s i = some k' → k' ≠ k := by
    rintro i k' hi hd rfl
    rcases h.was with ⟨hold, -⟩ | ⟨-, hfree⟩
    · exact hk.apart hidx hi hold hd
    · exact hk.page hi hd h.page.1 hfree
  refine ⟨fun {i j k' g} hi hd hj htab => ?_, fun {i k'} hi hd hpage => ?_,
    fun {i i' k'} hi hi' hd hd' => ?_⟩
  · rw [hdir hi] at hd
    rw [h.rest k' (hne hi hd) j hj] at htab
    exact hk.entry hi hd hj htab
  · rw [hdir hi] at hd
    rw [h.kpages _ (Layout.kpageId_ne h.page.1 hpage (hne hi hd))]
    exact hk.page hi hd hpage
  · rw [hdir hi'] at hd'
    rcases h.dirOf_cases hd with ⟨-, rfl⟩ | ⟨-, hd⟩
    · exact hne hi' hd' rfl
    · exact hk.apart hi hi' hd hd'

theorem Unmapped.kernel (h : Unmapped P s v k s') (ht : Tables P s) (hk : Kernel P s)
    (hv : P.IsUaddr v) : Kernel P s' := by
  have hidx : UserIdx P (P.pdeIdx v) := ⟨v, hv, rfl⟩
  have hne : ∀ {i k'}, ¬ UserIdx P i → dirOf s i = some k' → k' ≠ k := by
    rintro i k' hi hd rfl
    exact hk.apart hidx hi h.found hd
  refine ⟨fun {i j k' g} hi hd hj htab => ?_, fun {i k'} hi hd hpage => ?_,
    fun {i i' k'} hi hi' hd hd' => ?_⟩
  · rw [h.tab] at htab
    split_ifs at htab
    exact hk.entry hi (h.dirOf_of_some hd) hj htab
  · have hd₀ := h.dirOf_of_some hd
    rcases h.out with ⟨-, hkp, -⟩ | ⟨-, hkp, -⟩
    · rw [hkp]
      exact hk.page hi hd₀ hpage
    · rw [hkp, Function.update_of_ne
        (Layout.kpageId_ne (ht.page hidx h.found).1 hpage (hne hi hd₀))]
      exact hk.page hi hd₀ hpage
  · exact hk.apart hi hi' (h.dirOf_of_some hd) (h.dirOf_of_some hd')

/-- What holds of the tables in every state. -/
def Sane (P : Layout) (s : State) : Prop := Tables P s ∧ Kernel P s

theorem Maps.kernel (h : Maps P s v f s') (hs : Sane P s) (hv : P.IsUaddr v) : Kernel P s' := by
  obtain ⟨k, hk⟩ := h.mapped hs.1 hv
  exact hk.kernel hs.2 hv

theorem sane_step (hs : Sane P s) (h : step P s c = (r, s')) : Sane P s' := by
  refine ⟨tables_step hs.1 h, ?_⟩
  have hmoves := moves_step hs.1 c
  rw [h] at hmoves
  cases hmoves with
  | stays => exact hs.2
  | map hm h => exact h.kernel hs hm.2.1
  | unmap hm h => exact h.kernel hs.1 hs.2 hm.2.1
  | alloc _ _ hm h => exact h.kernel ⟨hs.1.frames _, hs.2.frames _⟩ hm.2.1
  | kernelMap _ hm h => exact h.kernel hs hm.2.1
  | kernelLink _ hm h => exact h.kernel hs hm.2.1
  | @kernelFree v f k s₁ hm _ hu =>
    have hk₁ := hu.kernel hs.1 hs.2 hm.2.1
    rcases frameFree_cases P s₁ f with ⟨-, -, hout⟩ | ⟨e, hout, -⟩
    · rw [hout]
      exact hk₁.frames _
    · rw [hout]
      exact hk₁
  | frameAlloc => exact hs.2.frames _
  | frameFree => exact hs.2.frames _

theorem Boot.sane (h : Boot P s) : Sane P s := ⟨h.user.tables, h.kernelPart⟩

theorem sane_of_run (h₀ : Boot P s₀) (h : Run (steps P) s₀ tr s) : Sane P s :=
  h.invariant (P := fun _ => True) h₀.sane (fun _ _ => trivial) fun _ hst _ hs => sane_step hs hst

def UserPage (P : Layout) (u : ℕ) : Prop := ∃ w, P.IsUaddr w ∧ w / P.pageSize = u / P.pageSize

theorem translate_congr (h : u / P.pageSize = v / P.pageSize) (s : State) :
    translate P s u = translate P s v := by
  obtain ⟨hd, ht⟩ := Layout.idx_eq_iff.mpr h
  rw [translate, translate, hd, ht]

/-- An address outside user space is translated to a frame of the kernel. -/
theorem Sane.kernel_frame (hs : Sane P s) (hu : ¬ UserPage P u) (h : translate P s u = some f) :
    f < P.frameLimit ∧ ¬ P.FrameIsValidNum f := by
  obtain ⟨k, hd, htab⟩ := Option.bind_eq_some_iff.mp h
  by_cases hi : UserIdx P (P.pdeIdx u)
  · obtain ⟨-, w, hw, hpde, hpte⟩ := hs.1.entry hi hd (P.pteIdx_lt u) htab
    exact absurd ⟨w, hw, Layout.idx_eq_iff.mp ⟨hpde, hpte⟩⟩ hu
  · exact hs.2.entry hi hd (P.pteIdx_lt u) htab

def Call.IsSystem : Call → Prop
  | .map .. | .unmap .. | .alloc .. => False
  | _ => True

/-- A property of states that one kind of calls can break holds all along a run if no call of
the run is of that kind. -/
theorem always_iff {I : State → Prop} {C : State → Call → Prop} (h₀ : Boot P s₀) (hI : I s₀)
    (hstep : ∀ {s c r s'}, Sane P s → c.IsSystem → step P s c = (r, s') → I s → (I s' ↔ C s c))
    (h : Run (steps P) s₀ tr s) (hsys : ∀ e ∈ tr, e.act.IsSystem) :
    (∀ e ∈ tr, I e.post) ↔ ∀ e ∈ tr, C e.pre e.act := by
  induction h with
  | nil => simp
  | @snoc tr t a o w hr hs ih =>
    have ih := ih fun e he => hsys e (List.mem_append_left _ he)
    have ha : a.IsSystem := hsys ⟨t, a, o, w⟩ (by simp)
    simp only [List.forall_mem_append, List.forall_mem_singleton]
    rw [← ih]
    refine and_congr_right fun hall => ?_
    -- The last state before the call has the property.
    have ht : I t := by
      rcases hr.eq_or_exists_post with rfl | ⟨e, he, rfl⟩
      · exact hI
      · exact hall e he
    exact hstep (sane_of_run h₀ hr) ha hs ht

end Nanvix.Mm
