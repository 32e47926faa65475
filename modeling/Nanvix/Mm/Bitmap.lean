import Mathlib.Data.List.Find
import Mathlib.Data.Set.Insert
import Nanvix.Lib.Bitmap
import Nanvix.Mm.Frames

/-! The bitmap of the frame allocator. The array has `NUM_UFRAMES/BITMAP_WORD_LENGTH` words, rounded
down, while the numbers of frames are checked against `NUM_UFRAMES`: the frames of a last word that
is not full have no bit. -/

namespace Nanvix.Mm.FrameMap

open Nanvix.Lib

inductive Act where
  | isAllocated (frame : ℕ)
  | alloc
  | free (frame : ℕ)
  deriving DecidableEq, Repr

/-- What a call returns; `fault` is an access outside of the array. -/
inductive Out where
  | bool (b : Bool)
  | frame (f : ℕ)
  | ret (e : Option Errno)
  | fault
  deriving DecidableEq, Repr

section Model
variable (P : Layout) {w : ℕ}

def framesLength (w : ℕ) : ℕ := P.numUframes / w

def checkBit (m : Bitmap w) (bit : ℕ) : Option Bool :=
  if bit / w < framesLength P w then some (m.check bit) else none

def frameIsAllocated (m : Bitmap w) (frame : ℕ) : Out :=
  if ¬ P.FrameIsValidNum frame then .bool false
  else
    match checkBit P m (P.frameNumToId frame) with
    | none => .fault
    | some b => .bool b

def frameAlloc (m : Bitmap w) : Out × Bitmap w :=
  match m.firstFree (framesLength P w) with
  | none => (.frame P.frameNull, m)
  | some bit => (.frame (P.frameIdToNum bit), m.set bit)

def frameFree (m : Bitmap w) (frame : ℕ) : Out × Bitmap w :=
  if ¬ P.FrameIsValidNum frame then (.ret (some .EINVAL), m)
  else
    match checkBit P m (P.frameNumToId frame) with
    | none => (.fault, m)
    | some false => (.ret (some .EFAULT), m)
    | some true => (.ret none, m.clear (P.frameNumToId frame))

def step (m : Bitmap w) : Act → Out × Bitmap w
  | .isAllocated frame => (frameIsAllocated P m frame, m)
  | .alloc => frameAlloc P m
  | .free frame => frameFree P m frame

def steps (w : ℕ) : Steps (Bitmap w) Act Out := fun m a o m' => step P m a = (o, m')

def Runs (w : ℕ) (tr : List (Event (Bitmap w) Act Out)) (m : Bitmap w) : Prop :=
  Run (steps P w) (Bitmap.empty w) tr m

end Model

/-- What the allocator is for: a set of allocated frames. -/
inductive Spec (P : Layout) : Set ℕ → Act → Out → Set ℕ → Prop
  | allocated {A f} (hv : P.FrameIsValidNum f) (hf : f ∉ A) : Spec P A .alloc (.frame f) (insert f A)
  | full {A} (hall : ∀ f, P.FrameIsValidNum f → f ∈ A) : Spec P A .alloc (.frame P.frameNull) A
  | invalid {A f} (hv : ¬ P.FrameIsValidNum f) : Spec P A (.free f) (.ret (some .EINVAL)) A
  | unused {A f} (hv : P.FrameIsValidNum f) (hf : f ∉ A) : Spec P A (.free f) (.ret (some .EFAULT)) A
  | freed {A f} (hv : P.FrameIsValidNum f) (hf : f ∈ A) : Spec P A (.free f) (.ret none) (A \ {f})
  | query {A f b} (hb : b = true ↔ P.FrameIsValidNum f ∧ f ∈ A) : Spec P A (.isAllocated f) (.bool b) A

/-- The bitmap is that of a set of user frames. -/
def Represents (P : Layout) {w : ℕ} (m : Bitmap w) (A : Set ℕ) : Prop :=
  ∀ f, f ∈ A ↔ P.FrameIsValidNum f ∧ m.check (P.frameNumToId f) = true

def labels {S : Type} (tr : List (Event S Act Out)) : List (Act × Out) := tr.map fun e => (e.act, e.out)

variable {P : Layout} {w : ℕ} {m m' : Bitmap w} {A : Set ℕ} {a : Act} {o : Out} {f : ℕ}

theorem frameNumToId_lt (hv : P.FrameIsValidNum f) : P.frameNumToId f < P.numUframes := by
  obtain ⟨h0, hlt⟩ := hv
  unfold Layout.frameNumToId
  omega

theorem Represents.mem (h : Represents P m A) (hv : P.FrameIsValidNum f) :
    f ∈ A ↔ m.check (P.frameNumToId f) = true := by
  rw [h f, and_iff_right hv]

theorem represents_empty (P : Layout) (w : ℕ) : Represents P (Bitmap.empty w) ∅ := by
  intro f
  simp

theorem Represents.set (h : Represents P m A) (hw : 0 < w) (hv : P.FrameIsValidNum f) :
    Represents P (m.set (P.frameNumToId f)) (insert f A) := by
  intro g
  rw [Bitmap.check_set hw, Set.mem_insert_iff]
  by_cases hg : P.FrameIsValidNum g
  · have hid : P.frameNumToId g = P.frameNumToId f ↔ g = f :=
      ⟨Layout.frameNumToId_inj hg hv, fun heq => by rw [heq]⟩
    rw [h.mem hg, and_iff_right hg]
    by_cases hgf : g = f <;> simp [hid, hgf]
  · have hgf : g ≠ f := fun heq => hg (heq ▸ hv)
    simp [hg, hgf, h g]

/-- Clearing a bit of the bitmap takes its frame out. -/
theorem Represents.clear (h : Represents P m A) (hw : 0 < w) (hv : P.FrameIsValidNum f) :
    Represents P (m.clear (P.frameNumToId f)) (A \ {f}) := by
  intro g
  rw [Bitmap.check_clear hw, Set.mem_sdiff, Set.mem_singleton_iff]
  by_cases hg : P.FrameIsValidNum g
  · have hid : P.frameNumToId g = P.frameNumToId f ↔ g = f :=
      ⟨Layout.frameNumToId_inj hg hv, fun heq => by rw [heq]⟩
    rw [h.mem hg, and_iff_right hg]
    by_cases hgf : g = f <;> simp [hid, hgf]
  · simp [hg, h g]

/-! ### Full words -/

theorem framesLength_mul (hdvd : w ∣ P.numUframes) : framesLength P w * w = P.numUframes :=
  Nat.div_mul_cancel hdvd

/-- If the last word is full, every frame has its bit in the array. -/
theorem checkBit_of_valid (hdvd : w ∣ P.numUframes) (hw : 0 < w) (m : Bitmap w) (hv : P.FrameIsValidNum f) :
    checkBit P m (P.frameNumToId f) = some (m.check (P.frameNumToId f)) := by
  refine if_pos ((Nat.div_lt_iff_lt_mul hw).mpr ?_)
  rw [framesLength_mul hdvd]
  exact frameNumToId_lt hv

/-- Every step of the allocator is one of the set. -/
theorem spec_of_step (hdvd : w ∣ P.numUframes) (hw : 0 < w) (hs : steps P w m a o m')
    (h : Represents P m A) : ∃ A', Spec P A a o A' ∧ Represents P m' A' := by
  cases a with
  | isAllocated f =>
    cases hs
    refine ⟨A, ?_, h⟩
    unfold frameIsAllocated
    by_cases hv : P.FrameIsValidNum f
    · rw [if_neg (not_not.mpr hv), checkBit_of_valid hdvd hw m hv]
      exact .query (by rw [and_iff_right hv, h.mem hv])
    · rw [if_pos hv]
      exact .query (by simp [hv])
  | alloc =>
    simp only [steps, step, frameAlloc] at hs
    cases hfree : m.firstFree (framesLength P w) with
    | none =>
      rw [hfree] at hs
      cases hs
      refine ⟨A, .full fun f hv => ?_, h⟩
      rw [h.mem hv]
      apply Bitmap.firstFree_eq_none hfree
      rw [framesLength_mul hdvd]
      exact frameNumToId_lt hv
    | some bit =>
      rw [hfree] at hs
      cases hs
      obtain ⟨hlt, hbit⟩ := Bitmap.firstFree_eq_some hfree
      rw [framesLength_mul hdvd] at hlt
      have hv : P.FrameIsValidNum (P.ubaseFrame + bit) := ⟨by omega, by omega⟩
      have hid := frameNumToId_ubaseFrame P bit
      rw [Layout.frameIdToNum, if_pos hlt]
      refine ⟨insert (P.ubaseFrame + bit) A, .allocated hv ?_, ?_⟩
      · rw [h.mem hv, hid, hbit]
        simp
      · have := h.set hw hv
        rwa [hid] at this
  | free f =>
    simp only [steps, step, frameFree] at hs
    by_cases hv : P.FrameIsValidNum f
    · rw [if_neg (not_not.mpr hv), checkBit_of_valid hdvd hw m hv] at hs
      cases hbit : m.check (P.frameNumToId f) with
      | false =>
        rw [hbit] at hs
        cases hs
        exact ⟨A, .unused hv (by rw [h.mem hv, hbit]; simp), h⟩
      | true =>
        rw [hbit] at hs
        cases hs
        exact ⟨A \ {f}, .freed hv ((h.mem hv).mpr hbit), h.clear hw hv⟩
    · rw [if_pos hv] at hs
      cases hs
      exact ⟨A, .invalid hv, h⟩

/-- The bits of the user frames are those of the array, as the model of the pages has it. -/
def Agrees (P : Layout) (m : Bitmap w) (s : State) : Prop := ∀ i < P.numUframes, s.frames i = m.check i

section Agrees
variable {s : State} (hdvd : w ∣ P.numUframes) (hw : 0 < w) (h : Agrees P m s)
include hdvd hw h

/-- If the last word is full, the allocator does what the model of the pages takes it to do. -/
theorem Agrees.isAllocated (f : ℕ) : frameIsAllocated P m f = .bool (Mm.frameIsAllocated P s f) := by
  unfold frameIsAllocated Mm.frameIsAllocated
  by_cases hv : P.FrameIsValidNum f
  · rw [if_neg (not_not.mpr hv), if_neg (not_not.mpr hv), checkBit_of_valid hdvd hw m hv,
      h _ (frameNumToId_lt hv)]
  · rw [if_pos hv, if_pos hv]

theorem Agrees.alloc : (frameAlloc P m).1 = .frame (Mm.frameAlloc P s).1 ∧
    Agrees P (frameAlloc P m).2 (Mm.frameAlloc P s).2 := by
  have hsame : m.firstFree (framesLength P w) = (List.range P.numUframes).find? fun i => !s.frames i := by
    rw [Bitmap.firstFree, framesLength_mul hdvd]
    refine List.find?_congr fun i hi => ?_
    rw [h i (List.mem_range.mp hi)]
  unfold frameAlloc Mm.frameAlloc
  rw [hsame]
  cases (List.range P.numUframes).find? fun i => !s.frames i with
  | none => exact ⟨rfl, h⟩
  | some bit =>
    refine ⟨rfl, fun i hi => ?_⟩
    rw [Bitmap.check_set hw]
    by_cases hib : i = bit <;> simp [hib, h i hi]

theorem Agrees.free (f : ℕ) : (frameFree P m f).1 = .ret (Mm.frameFree P s f).1 ∧
    Agrees P (frameFree P m f).2 (Mm.frameFree P s f).2 := by
  unfold frameFree Mm.frameFree
  by_cases hv : P.FrameIsValidNum f
  · rw [if_neg (not_not.mpr hv), if_neg (not_not.mpr hv), checkBit_of_valid hdvd hw m hv]
    dsimp only
    rw [h _ (frameNumToId_lt hv)]
    cases m.check (P.frameNumToId f) with
    | false => exact ⟨rfl, h⟩
    | true =>
      refine ⟨rfl, fun i hi => ?_⟩
      rw [Bitmap.check_clear hw]
      by_cases hib : i = P.frameNumToId f <;> simp [hib, h i hi]
  · rw [if_pos hv, if_pos hv]
    exact ⟨rfl, h⟩

end Agrees

/-! ### A last word that is not full -/

/-- The set of frames never answers with a fault. -/
theorem Spec.ne_fault {A' : Set ℕ} (h : Spec P A a o A') : o ≠ .fault := by
  cases h <;> simp

theorem labels_ne_fault {tr : List (Event (Set ℕ) Act Out)} {A' : Set ℕ} (h : Run (Spec P) A tr A') :
    ∀ x ∈ labels tr, x.2 ≠ .fault := by
  intro x hx
  obtain ⟨e, he, rfl⟩ := List.mem_map.mp hx
  exact Spec.ne_fault (h.step_of_mem he)

/-- The bit of the last frame is outside of the array. -/
theorem last_fault (hno : ¬ w ∣ P.numUframes) (m : Bitmap w) :
    frameIsAllocated P m (P.ubaseFrame + (P.numUframes - 1)) = .fault := by
  have hpos : 0 < P.numUframes := Nat.pos_of_ne_zero fun h0 => hno (h0 ▸ Nat.dvd_zero w)
  have hv : P.FrameIsValidNum (P.ubaseFrame + (P.numUframes - 1)) := ⟨by omega, by omega⟩
  have hout : ¬ (P.numUframes - 1) / w < framesLength P w := by
    obtain ⟨k, hk⟩ := Nat.exists_eq_add_one_of_ne_zero hpos.ne'
    rw [hk] at hno
    rw [framesLength, hk, Nat.add_sub_cancel, Nat.succ_div_of_not_dvd hno]
    exact Nat.lt_irrefl _
  rw [frameIsAllocated, if_neg (not_not.mpr hv), frameNumToId_ubaseFrame, checkBit, if_neg hout]

/-- Every run of the allocator is one of a set of frames exactly if the frames fill the words of the
bitmap. -/
theorem frames_are_set_iff (hw : 0 < w) :
    (∀ tr m, Runs P w tr m →
      ∃ tr' A, Run (Spec P) ∅ tr' A ∧ Represents P m A ∧ labels tr' = labels tr) ↔ w ∣ P.numUframes := by
  constructor
  · intro h
    by_contra hno
    let e : Event (Bitmap w) Act Out :=
      ⟨.empty w, .isAllocated (P.ubaseFrame + (P.numUframes - 1)), .fault, .empty w⟩
    have hstep : steps P w e.pre e.act e.out e.post := by
      rw [steps, step, last_fault hno]
    obtain ⟨tr', A, hrun, -, hlabels⟩ := h [e] e.post (.snoc .nil hstep)
    exact labels_ne_fault hrun (e.act, e.out) (by rw [hlabels]; simp [labels]) rfl
  · intro hdvd tr m h
    exact Run.simulates h (represents_empty P w) fun hs hr => spec_of_step hdvd hw hs hr

/-- The sample layout has 256 frames, in eight words of 32 bits. -/
theorem frames_are_set_full : ∃ tr m, Runs layout32 32 tr m ∧
    tr.map (·.act) = [.alloc, .alloc, .free 0x1000, .isAllocated 0x1001, .alloc] ∧
    ∃ tr' A, Run (Spec layout32) ∅ tr' A ∧ Represents layout32 m A ∧ labels tr' = labels tr := by
  obtain ⟨tr, m, hrun, hacts, -⟩ := exists_run_of_exec (f := fun m a => some (step layout32 m a))
    (s := Bitmap.empty 32) [.alloc, .alloc, .free 0x1000, .isAllocated 0x1001, .alloc] (fun _ => True)
    (by decide +kernel)
  have hruns : Runs layout32 32 tr m := hrun.mono fun _ _ _ _ hs => Option.some.inj hs
  exact ⟨tr, m, hruns, hacts, (frames_are_set_iff (by decide)).mpr (by decide) tr m hruns⟩

/-- A layout with 40 frames, of which 8 are in a last word. -/
def layout40 : Layout := { layout32 with numUframes := 40, uframes_le := by decide }

/-- After 32 allocations there is no frame left for the next one, although 8 have not been allocated,
and to ask for one of these is an access outside of the array. -/
theorem not_frames_are_set : ∃ tr m, Runs layout40 32 tr m ∧
    tr.map (·.act) = List.replicate 33 .alloc ++ [.isAllocated 0x1027] ∧
    (∀ e ∈ tr.take 32, e.out ≠ .frame layout40.frameNull) ∧
    (tr.drop 32).map (·.out) = [.frame layout40.frameNull, .fault] ∧
    ¬ ∃ tr' A, Run (Spec layout40) ∅ tr' A ∧ Represents layout40 m A ∧ labels tr' = labels tr := by
  obtain ⟨tr, m, hrun, hacts, htake, hdrop⟩ := exists_run_of_exec (f := fun m a => some (step layout40 m a))
    (s := Bitmap.empty 32) (List.replicate 33 .alloc ++ [.isAllocated 0x1027])
    (fun r => (∀ e ∈ r.1.take 32, e.out ≠ .frame layout40.frameNull) ∧
      (r.1.drop 32).map (·.out) = [.frame layout40.frameNull, .fault]) (by decide +kernel)
  refine ⟨tr, m, hrun.mono fun _ _ _ _ hs => Option.some.inj hs, hacts, htake, hdrop, ?_⟩
  rintro ⟨tr', A, hspec, -, hlabels⟩
  have hfault : Out.fault ∈ (tr.drop 32).map (·.out) := by rw [hdrop]; simp
  obtain ⟨e, he, hout⟩ := List.mem_map.mp hfault
  have hmem : (e.act, e.out) ∈ labels tr' := by
    rw [hlabels]
    exact List.mem_map_of_mem (List.mem_of_mem_drop he)
  exact labels_ne_fault hspec _ hmem hout

end Nanvix.Mm.FrameMap
