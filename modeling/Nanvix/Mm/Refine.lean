import Nanvix.Mm.Space

/-! The calls of the user page pool are insertions into a map from pages to frames and removals
from it, in every state that calls lead to. A frame number goes into an entry through an address,
so only frames that have an address are mapped as they are given. -/

namespace Nanvix.Mm

open Nanvix.Lib Function

variable {P : Layout} {s s' s₀ s₁ : State} {v f g k : ℕ} {pgdir : Pgdir}

/-- A page is mapped to the frame that was given if the frame has an address. -/
theorem Mapped.exact_iff (h : Mapped P s v f k s') (ha : P.Aligned v) (hv : P.IsUaddr v) :
    userMap P s' = update (userMap P s) (v / P.pageSize) (some f) ↔ f < P.frameLimit := by
  rw [h.userMap_eq ha hv]
  constructor
  · intro heq
    have hmod := congrFun heq (v / P.pageSize)
    rw [update_self, update_self] at hmod
    rw [← Option.some.inj hmod]
    exact Nat.mod_lt _ (Nat.two_pow_pos _)
  · intro hlt
    rw [Nat.mod_eq_of_lt hlt]

/-- Unmapping a page that has just been mapped leaves everything as it was before. -/
theorem Mapped.undo (h : Mapped P s v f k s₁) (ht : Tables P s) (hm : Mappable P s .root v) :
    ∃ s', upageUnmap P s₁ .root v = (f % P.frameLimit, s') ∧ userMap P s' = userMap P s ∧
      s'.frames = s.frames ∧ s'.kpages = s.kpages := by
  obtain ⟨-, hv, ha, hn, -⟩ := hm
  have ht₁ := h.tables ht hv
  have htr : translate P s₁ v = some (f % P.frameLimit) := by
    rw [h.translate_eq hv, if_pos rfl]
  rcases upageUnmap_cases ht₁ .root v with ⟨g, k', s', hunmap, -, hg, hu⟩ | ⟨-, hun⟩
  · rw [htr] at hg
    obtain rfl := Option.some.inj hg
    refine ⟨s', hunmap, ?_, hu.frames.trans h.frames, hu.kpages_eq h ht hv hn⟩
    rw [hu.userMap_eq ht₁ ha hv, h.userMap_eq ha hv, update_idem,
      ← hn, ← userMap_of_aligned ha hv, update_eq_self]
  · exact absurd ⟨rfl, hv, ha, by simp [htr]⟩ hun

/-- In every state that calls lead to, the page table is a map from user pages to frames.
`upage_map` inserts the page exactly if it can be mapped, with the frame that was given exactly if
that frame has an address; `upage_unmap` right after it leaves everything as it was. `upage_unmap`
removes a page that is mapped and returns its frame. `upage_alloc` takes a frame that is free and
inserts it. Whatever returns an error leaves the whole state as it is. -/
theorem tables_refine_map {tr : List (Event State Call Ret)} (h₀ : NoUserPde P s₀)
    (h : Run (steps P) s₀ tr s) (pgdir : Pgdir) (v : ℕ) :
    (∀ f, (Mappable P s pgdir v ∧ ∃ s', upageMap P s pgdir v f = (none, s') ∧
          (userMap P s' = update (userMap P s) (v / P.pageSize) (some f) ↔
            f < P.frameLimit) ∧
          (∀ p ≠ v / P.pageSize, userMap P s' p = userMap P s p) ∧ s'.frames = s.frames ∧
          ∃ g s'', upageUnmap P s' pgdir v = (g, s'') ∧ (g = f ↔ f < P.frameLimit) ∧
            userMap P s'' = userMap P s ∧ s''.frames = s.frames ∧ s''.kpages = s.kpages) ∨
        (¬ Mappable P s pgdir v ∧ ∃ e, upageMap P s pgdir v f = (some e, s))) ∧
      ((Unmappable P s pgdir v ∧ ∃ f s', upageUnmap P s pgdir v = (f, s') ∧ f ≠ P.frameNull ∧
          userMap P s (v / P.pageSize) = some f ∧
          userMap P s' = update (userMap P s) (v / P.pageSize) none ∧
          s'.frames = s.frames) ∨
        (¬ Unmappable P s pgdir v ∧ upageUnmap P s pgdir v = (P.frameNull, s))) ∧
      ((∃ bit < P.numUframes, s.frames bit = false ∧ Mappable P s pgdir v ∧
          ∃ s', upageAlloc P s pgdir v = (none, s') ∧
            userMap P s' =
              update (userMap P s) (v / P.pageSize) (some (P.ubaseFrame + bit)) ∧
            s'.frames = update s.frames bit true) ∨
        (¬ (Mappable P s pgdir v ∧ ∃ bit < P.numUframes, s.frames bit = false) ∧
          ∃ e, upageAlloc P s pgdir v = (some e, s))) := by
  have ht := tables_of_run h₀ h
  refine ⟨fun f => ?_, ?_, ?_⟩
  · rcases upageMap_cases P s pgdir v f with ⟨s', hmap, hm, hmaps⟩ | ⟨e, hmap, hm⟩
    · obtain rfl := hm.1
      obtain ⟨-, hv, ha, -⟩ := id hm
      obtain ⟨k, hk⟩ := hmaps.mapped ht hv
      obtain ⟨s'', hunmap, hback⟩ := hk.undo ht hm
      refine .inl ⟨hm, s', hmap, hk.exact_iff ha hv, fun p hp => ?_, hk.frames, _, s'', hunmap, ?_,
        hback⟩
      · rw [hk.userMap_eq ha hv, update_of_ne hp]
      · exact Nat.mod_eq_iff_lt (Nat.ne_of_gt (Nat.two_pow_pos _))
    · exact .inr ⟨hm, e, hmap⟩
  · rcases upageUnmap_cases ht pgdir v with ⟨f, k, s', hunmap, hm, hf, hu⟩ | ⟨hunmap, hm⟩
    · obtain ⟨-, hv, ha, -⟩ := id hm
      refine .inl ⟨hm, f, s', hunmap, ?_, ?_, hu.userMap_eq ht ha hv, hu.frames⟩
      · exact Nat.ne_of_lt (Nat.lt_of_lt_of_le (ht.lt_frameLimit hv hf) P.frameLimit_le)
      · rw [userMap_of_aligned ha hv, hf]
    · exact .inr ⟨hm, hunmap⟩
  · rcases upageAlloc_cases P s pgdir v with
      ⟨bit, hbit, hfree, hm, s', halloc, hmaps⟩ | ⟨e, halloc, hm⟩
    · obtain ⟨-, hv, ha, -⟩ := id hm
      obtain ⟨k, hk⟩ := hmaps.mapped (ht.frames _) hv
      refine .inl ⟨bit, hbit, hfree, hm, s', halloc, ?_, hk.frames⟩
      rw [hk.userMap_eq ha hv,
        Nat.mod_eq_of_lt (Layout.valid_lt (Layout.valid_ubaseFrame_add hbit))]
      rfl
    · exact .inr ⟨hm, e, halloc⟩

/-- A 32-bit target with pages of 4 KB. -/
def layout32 : Layout where
  frameBits := 32
  pageShift := 12
  pgtabLength := 1024
  scanLength := 1024
  ubaseVirt := 0x40000000
  numUframes := 256
  ubaseFrame := 0x1000
  numKpages := 16
  kpoolFrame := 0x400
  shift_pos := by decide
  shift_lt := by decide
  pgtab_pos := by decide
  pgtab_le := by decide
  uframes_le := by decide
  kpool_le := by decide

/-- A state in which nothing is mapped and everything is free. -/
def blank : State where
  pgdir _ := .clear
  tables _ _ := .clear
  kpages _ := 0
  frames _ := false

theorem noUserPde_blank (P : Layout) : NoUserPde P blank := fun _ _ => rfl

theorem mappable_blank : Mappable layout32 blank .root 0x40000000 :=
  ⟨rfl, by decide, by decide, rfl, .inr ⟨0, by decide, rfl⟩⟩

theorem tables_refine_map_alloc :
    ∃ s', upageMap layout32 (upageAlloc layout32 blank .root 0x40000000).2 .root 0x40001000 7 =
      (none, s') ∧ userMap layout32 s' = update
        (userMap layout32 (upageAlloc layout32 blank .root 0x40000000).2) 0x40001 (some 7) := by
  have hstep : steps layout32 blank (.alloc .root 0x40000000) (.code none)
      (upageAlloc layout32 blank .root 0x40000000).2 := rfl
  have h := (tables_refine_map (noUserPde_blank layout32) (.snoc .nil hstep) .root 0x40001000).1 7
  rcases h with ⟨-, s', hmap, hexact, -⟩ | ⟨hm, -⟩
  · exact ⟨s', hmap, hexact.mpr (by decide)⟩
  · refine absurd ⟨rfl, by decide, by decide, rfl, .inl ?_⟩ hm
    exact Option.some_ne_none _

/-- `FRAME_NULL` has no address: the page is mapped to another frame. -/
theorem not_tables_refine_map :
    NoUserPde layout32 blank ∧ Mappable layout32 blank .root 0x40000000 ∧
      ∃ s', upageMap layout32 blank .root 0x40000000 layout32.frameNull = (none, s') ∧
        userMap layout32 s' ≠ update (userMap layout32 blank) (0x40000000 / 4096)
          (some layout32.frameNull) := by
  refine ⟨noUserPde_blank _, mappable_blank, _, rfl, fun heq => ?_⟩
  have hmod := congrFun heq 0x40000
  rw [update_self] at hmod
  revert hmod
  decide

end Nanvix.Mm
