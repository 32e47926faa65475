import Mathlib.Algebra.Group.Nat.Defs
import Nanvix.Lib.Trace
import Nanvix.Lib.TwoLevel

/-! Memory management: the pool of kernel pages, the allocator of user frames, and the pages
of user space, which are mapped through a page directory and page tables in kernel pages. -/

namespace Nanvix.Mm

open Nanvix.Lib Function

/-- What the hardware abstraction layer fixes: the width of `frame_t`, `PAGE_SHIFT`, the lengths
of a page table and of the loops over its page (`PAGE_SIZE/PDE_SIZE`), and the areas of memory,
in pages where they are made of pages. -/
structure Layout where
  frameBits : ℕ
  pageShift : ℕ
  pgtabLength : ℕ
  scanLength : ℕ
  ubaseVirt : ℕ
  numUframes : ℕ
  ubaseFrame : ℕ
  numKpages : ℕ
  kpoolFrame : ℕ
  shift_pos : 0 < pageShift
  shift_lt : pageShift < frameBits
  pgtab_pos : 0 < pgtabLength
  pgtab_le : pgtabLength ≤ scanLength
  uframes_le : ubaseFrame + numUframes ≤ 2 ^ (frameBits - pageShift)
  kpool_le : kpoolFrame + numKpages ≤ 2 ^ (frameBits - pageShift)

namespace Layout

variable (P : Layout)

def pageSize : ℕ := 2 ^ P.pageShift

def frameNull : ℕ := 2 ^ P.frameBits - 1

/-- How many page frames have an address. -/
def frameLimit : ℕ := 2 ^ (P.frameBits - P.pageShift)

/-- `frame << PAGE_SHIFT`. -/
def toAddr (frame : ℕ) : ℕ := frame * P.pageSize % 2 ^ P.frameBits

def ofAddr (paddr : ℕ) : ℕ := paddr / P.pageSize

def IsUaddr (vaddr : ℕ) : Prop :=
  P.ubaseVirt ≤ vaddr ∧ vaddr < P.ubaseVirt + P.numUframes * P.pageSize

instance (vaddr : ℕ) : Decidable (P.IsUaddr vaddr) := by unfold IsUaddr; infer_instance

/-- `!(vaddr & ~PAGE_MASK)`. -/
def Aligned (vaddr : ℕ) : Prop := vaddr % P.pageSize = 0

instance (vaddr : ℕ) : Decidable (P.Aligned vaddr) := by unfold Aligned; infer_instance

/-- The index of `pde_get`. -/
def pdeIdx (vaddr : ℕ) : ℕ := vaddr / P.pageSize / P.pgtabLength

/-- The index of `pte_get`. -/
def pteIdx (vaddr : ℕ) : ℕ := vaddr / P.pageSize % P.pgtabLength

def FrameIsValidNum (frame : ℕ) : Prop := P.ubaseFrame ≤ frame ∧ frame < P.ubaseFrame + P.numUframes

instance (frame : ℕ) : Decidable (P.FrameIsValidNum frame) := by unfold FrameIsValidNum; infer_instance

def frameIdToNum (id : ℕ) : ℕ := if id < P.numUframes then P.ubaseFrame + id else P.frameNull

/-- `frame_num_to_id`, for valid numbers. -/
def frameNumToId (frame : ℕ) : ℕ := frame - P.ubaseFrame

/-- `kpool_addr_to_frame`, for the page with the given identifier. -/
def kpageFrame (id : ℕ) : ℕ := P.kpoolFrame + id

/-- `kpool_is_kpage`, for the page in the given frame. -/
def IsKpage (frame : ℕ) : Prop := P.kpoolFrame ≤ frame ∧ frame < P.kpoolFrame + P.numKpages

instance (frame : ℕ) : Decidable (P.IsKpage frame) := by unfold IsKpage; infer_instance

/-- `kpool_addr_to_id`, for the page in the given frame. -/
def kpageId (frame : ℕ) : ℕ := frame - P.kpoolFrame

end Layout

inductive Errno where
  | EINVAL | EFAULT | EADDRINUSE | EAGAIN | EBUSY | EIO
  deriving DecidableEq, Repr

open Errno

/-- `struct pde` and `struct pte`. -/
structure Entry where
  present : Bool
  frame : ℕ
  deriving DecidableEq, Repr

def Entry.clear : Entry := ⟨false, 0⟩

/-- The page directory, the pages that page tables are in, by their frames, the reference
counts of kernel pages, and the bitmap of user frames. -/
structure State where
  pgdir : ℕ → Entry
  tables : ℕ → ℕ → Entry
  kpages : ℕ → ℕ
  frames : ℕ → Bool

variable (P : Layout)

/-! ### Kernel pages -/

def kpageGet (s : State) : Option (ℕ × State) :=
  match (List.range P.numKpages).find? fun i => s.kpages i = 0 with
  | none => none
  | some i => some (i, { s with kpages := update s.kpages i (s.kpages i + 1) })

/-- `kpage_put` for the page in a frame; `none` is 0. -/
def kpagePut (s : State) (frame : ℕ) : Option Errno × State :=
  if ¬ P.IsKpage frame then (some .EINVAL, s)
  else
    let i := P.kpageId frame
    if s.kpages i = 0 then (some .EFAULT, s)
    else (none, { s with kpages := update s.kpages i (s.kpages i - 1) })

/-! ### User frames -/

def frameIsAllocated (s : State) (frame : ℕ) : Bool :=
  if ¬ P.FrameIsValidNum frame then false else s.frames (P.frameNumToId frame)

/-- The first frame whose bit is clear. The source searches `FRAMES_LENGTH` words; they hold the bits of
all frames if the word length divides `NUM_UFRAMES`, and then `FrameMap.Agrees.alloc` applies. -/
def frameAlloc (s : State) : ℕ × State :=
  match (List.range P.numUframes).find? fun i => ! s.frames i with
  | none => (P.frameNull, s)
  | some bit => (P.frameIdToNum bit, { s with frames := update s.frames bit true })

def frameFree (s : State) (frame : ℕ) : Option Errno × State :=
  if ¬ P.FrameIsValidNum frame then (some .EINVAL, s)
  else
    let bit := P.frameNumToId frame
    if ! s.frames bit then (some .EFAULT, s)
    else (none, { s with frames := update s.frames bit false })

/-! ### User pages -/

def mmuPgtabMap (s : State) (paddr vaddr : ℕ) : State :=
  { s with pgdir := update s.pgdir (P.pdeIdx vaddr) ⟨true, P.ofAddr paddr⟩ }

/-- `mmu_page_map`, for the page table in frame `pgtab`. -/
def mmuPageMap (s : State) (pgtab paddr vaddr : ℕ) : State :=
  { s with
    tables := update s.tables pgtab
      (update (s.tables pgtab) (P.pteIdx vaddr) ⟨true, P.ofAddr paddr⟩) }

/-- The loop at the end of `pgtab_map`. -/
def clearTable (s : State) (pgtab : ℕ) : State :=
  { s with
    tables := update s.tables pgtab fun i =>
      if i < P.scanLength then .clear else s.tables pgtab i }

/-- `pgtab_map`; `none` is `NULL`. -/
def pgtabMap (s : State) (vaddr : ℕ) : Option State :=
  if (s.pgdir (P.pdeIdx vaddr)).present then none
  else
    match kpageGet P s with
    | none => none
    | some (i, s) =>
      let frame := P.kpageFrame i
      some (clearTable P (mmuPgtabMap P s (P.toAddr frame) vaddr) frame)

def pgtabUnmap (s : State) (vaddr : ℕ) : Option Errno × State :=
  let pde := s.pgdir (P.pdeIdx vaddr)
  if ¬ pde.present then (none, s)
  else if (List.range P.scanLength).any fun i => (s.tables pde.frame i).present then (some .EBUSY, s)
  else
    let s := { s with pgdir := update s.pgdir (P.pdeIdx vaddr) { pde with present := false } }
    match kpagePut P s pde.frame with
    | (some _, s) => (some EIO, s)
    | (none, s) => (none, s)

/-- The page directory that a call gets: `NULL`, or that of the address space. -/
inductive Pgdir where
  | null | root
  deriving DecidableEq, Repr

def upageMap (s : State) (pgdir : Pgdir) (vaddr frame : ℕ) : Option Errno × State :=
  if pgdir = .null then (some .EINVAL, s)
  else if ¬ P.IsUaddr vaddr then (some .EFAULT, s)
  else if ¬ P.Aligned vaddr then (some .EINVAL, s)
  else
    match (if (s.pgdir (P.pdeIdx vaddr)).present then some s else pgtabMap P s vaddr) with
    | none => (some .EAGAIN, s)
    | some s =>
      let pgtab := (s.pgdir (P.pdeIdx vaddr)).frame
      if (s.tables pgtab (P.pteIdx vaddr)).present then (some .EADDRINUSE, s)
      else (none, mmuPageMap P s pgtab (P.toAddr frame) vaddr)

def upageUnmap (s : State) (pgdir : Pgdir) (vaddr : ℕ) : ℕ × State :=
  if pgdir = .null then (P.frameNull, s)
  else if ¬ P.IsUaddr vaddr then (P.frameNull, s)
  else if ¬ P.Aligned vaddr then (P.frameNull, s)
  else if ¬ (s.pgdir (P.pdeIdx vaddr)).present then (P.frameNull, s)
  else
    let pgtab := (s.pgdir (P.pdeIdx vaddr)).frame
    let pte := s.tables pgtab (P.pteIdx vaddr)
    if ¬ pte.present then (P.frameNull, s)
    else
      let s := { s with
        tables := update s.tables pgtab
          (update (s.tables pgtab) (P.pteIdx vaddr) { pte with present := false }) }
      (pte.frame, (pgtabUnmap P s vaddr).2)

def upageAlloc (s : State) (pgdir : Pgdir) (vaddr : ℕ) : Option Errno × State :=
  if pgdir = .null then (some .EINVAL, s)
  else
    let (frame, s) := frameAlloc P s
    if frame = P.frameNull then (some .EAGAIN, s)
    else
      match upageMap P s pgdir vaddr frame with
      | (some err, s) => (some err, (frameFree P s frame).2)
      | (none, s) => (none, s)

def upageFree (s : State) (pgdir : Pgdir) (vaddr : ℕ) : Option Errno × State :=
  if pgdir = .null then (some .EFAULT, s)
  else
    let (frame, s) := upageUnmap P s pgdir vaddr
    if frame = P.frameNull then (some .EFAULT, s)
    else
      match frameFree P s frame with
      | (some _, s) => (some EIO, s)
      | (none, s) => (none, s)

def upageLink (s : State) (pgdir : Pgdir) (vaddr₁ vaddr₂ : ℕ) : Option Errno × State :=
  if pgdir = .null then (some .EINVAL, s)
  else if ¬ P.IsUaddr vaddr₂ then (some .EFAULT, s)
  else if ¬ P.Aligned vaddr₂ then (some .EINVAL, s)
  else
    let pde := s.pgdir (P.pdeIdx vaddr₁)
    if ¬ pde.present then (some .EFAULT, s)
    else
      let pte := s.tables pde.frame (P.pteIdx vaddr₁)
      if ¬ pte.present then (some .EFAULT, s)
      else upageMap P s pgdir vaddr₂ pte.frame

/-! ### System calls -/

def kernelFrameAlloc (s : State) : ℕ × State := frameAlloc P s

def kernelFrameFree (s : State) (frame : ℕ) : Option Errno × State :=
  if frame = P.frameNull then (some .EINVAL, s) else frameFree P s frame

/-- The checks of an address that the system calls begin with. -/
def checkUaddr (s : State) (vaddr : ℕ) (call : Option Errno × State) : Option Errno × State :=
  if ¬ P.Aligned vaddr then (some .EINVAL, s)
  else if ¬ P.IsUaddr vaddr then (some .EFAULT, s)
  else call

def kernelUpageAlloc (s : State) (vaddr : ℕ) : Option Errno × State :=
  checkUaddr P s vaddr (upageAlloc P s .root vaddr)

def kernelUpageFree (s : State) (vaddr : ℕ) : Option Errno × State :=
  checkUaddr P s vaddr (upageFree P s .root vaddr)

def kernelUpageMap (s : State) (vaddr frame : ℕ) : Option Errno × State :=
  checkUaddr P s vaddr
    (if ! frameIsAllocated P s frame then (some .EFAULT, s) else upageMap P s .root vaddr frame)

def kernelUpageUnmap (s : State) (vaddr : ℕ) : Option Errno × State :=
  let r := upageUnmap P s .root vaddr
  checkUaddr P s vaddr (if r.1 = P.frameNull then some .EAGAIN else none, r.2)

/-- `kernel_upage_link`; the first address is not checked. -/
def kernelUpageLink (s : State) (vaddr₁ vaddr₂ : ℕ) : Option Errno × State :=
  checkUaddr P s vaddr₂ (upageLink P s .root vaddr₁ vaddr₂)

/-- The calls: those of the user page pool, and the system calls. -/
inductive Call where
  | map (pgdir : Pgdir) (vaddr frame : ℕ)
  | unmap (pgdir : Pgdir) (vaddr : ℕ)
  | alloc (pgdir : Pgdir) (vaddr : ℕ)
  | kernelFrameAlloc
  | kernelFrameFree (frame : ℕ)
  | kernelAlloc (vaddr : ℕ)
  | kernelFree (vaddr : ℕ)
  | kernelMap (vaddr frame : ℕ)
  | kernelUnmap (vaddr : ℕ)
  | kernelLink (vaddr₁ vaddr₂ : ℕ)
  deriving DecidableEq, Repr

/-- An error code, where `none` is 0, or a frame. -/
inductive Ret where
  | code (err : Option Errno)
  | frame (frame : ℕ)
  deriving DecidableEq, Repr

def step (s : State) : Call → Ret × State
  | .map pgdir vaddr frame => let r := upageMap P s pgdir vaddr frame; (.code r.1, r.2)
  | .unmap pgdir vaddr => let r := upageUnmap P s pgdir vaddr; (.frame r.1, r.2)
  | .alloc pgdir vaddr => let r := upageAlloc P s pgdir vaddr; (.code r.1, r.2)
  | .kernelFrameAlloc => let r := kernelFrameAlloc P s; (.frame r.1, r.2)
  | .kernelFrameFree frame => let r := kernelFrameFree P s frame; (.code r.1, r.2)
  | .kernelAlloc vaddr => let r := kernelUpageAlloc P s vaddr; (.code r.1, r.2)
  | .kernelFree vaddr => let r := kernelUpageFree P s vaddr; (.code r.1, r.2)
  | .kernelMap vaddr frame => let r := kernelUpageMap P s vaddr frame; (.code r.1, r.2)
  | .kernelUnmap vaddr => let r := kernelUpageUnmap P s vaddr; (.code r.1, r.2)
  | .kernelLink vaddr₁ vaddr₂ => let r := kernelUpageLink P s vaddr₁ vaddr₂; (.code r.1, r.2)

def steps : Steps State Call Ret := fun s c r s' => step P s c = (r, s')

end Nanvix.Mm
