import Nanvix.Mm.Refine
import Nanvix.Noc.Kernel

/-! User memory. Every address that a user gives to the kernel goes through `mm_check_area`. On the
x86 target it looks at the first address of an area and at the one after its last, which it computes
in 64 bits and cuts to an address: it refuses an area that ends with user memory, and it admits one so
long that it wraps around. -/

namespace Nanvix.Mm

/-- The layout of memory with the areas of the kernel, `KBASE_VIRT`, `KMEM_SIZE`, `KPOOL_VIRT` and
`KPOOL_SIZE`. User memory does not reach the end of the address space. -/
structure AddressSpace extends Layout where
  kbase : ℕ
  kmem : ℕ
  kpool : ℕ
  kpoolSize : ℕ
  umem_fits : ubaseVirt + numUframes * 2 ^ pageShift < 2 ^ 32

inductive Area where
  | kmem | umem
  deriving DecidableEq, Repr

/-- The targets that `mm_check_area` tells apart: `qemu-x86`, the two with an OpenRISC processor, and
the others. -/
inductive Machine where
  | qemuX86 | openrisc | other
  deriving DecidableEq, Repr

def toVaddr (x : ℕ) : ℕ := x % 2 ^ 32

def mmIsKaddr (m : Machine) (L : AddressSpace) (vaddr : ℕ) : Bool :=
  match m with
  | .qemuX86 => true
  | _ => (decide (L.kbase ≤ vaddr) && decide (vaddr < L.kbase + L.kmem)) ||
      (decide (L.kpool ≤ vaddr) && decide (vaddr < L.kpool + L.kpoolSize))

def mmCheckArea (m : Machine) (L : AddressSpace) (vaddr size : ℕ) (area : Area) : Bool :=
  match m, area with
  | .qemuX86, .umem => decide (L.IsUaddr vaddr) && decide (L.IsUaddr (toVaddr (vaddr + size)))
  | .qemuX86, .kmem => mmIsKaddr m L vaddr && mmIsKaddr m L (toVaddr (vaddr + size))
  | .openrisc, _ => mmIsKaddr m L vaddr && mmIsKaddr m L (toVaddr (vaddr + size))
  | .other, _ => true

def AddressSpace.uend (L : AddressSpace) : ℕ := L.ubaseVirt + L.numUframes * L.pageSize

/-- The area lies in user memory, without wrapping; an empty one has its first address there. -/
def Contained (L : AddressSpace) (vaddr size : ℕ) : Prop :=
  L.IsUaddr vaddr ∧ ∀ k < size, L.IsUaddr (vaddr + k)

def EndsWithUser (L : AddressSpace) (vaddr size : ℕ) : Prop := vaddr + size = L.uend

/-- The area wraps around, and what comes after it is an address of user memory again. -/
def WrapsToUser (L : AddressSpace) (vaddr size : ℕ) : Prop := 2 ^ 32 + L.ubaseVirt ≤ vaddr + size

variable {L : AddressSpace} {vaddr size : ℕ}

theorem isUaddr_iff {x : ℕ} : L.IsUaddr x ↔ L.ubaseVirt ≤ x ∧ x < L.uend := Iff.rfl

/-- An area lies in user memory if its first and its last address do. -/
theorem contained_iff : Contained L vaddr size ↔ L.IsUaddr vaddr ∧ vaddr + size ≤ L.uend := by
  unfold Contained
  refine and_congr_right fun hv => ⟨fun h => ?_, fun h k hk => ?_⟩
  · by_cases h0 : size = 0
    · rw [isUaddr_iff] at hv
      omega
    · have := isUaddr_iff.mp (h (size - 1) (by omega))
      omega
  · rw [isUaddr_iff] at hv ⊢
    omega

/-- What the check admits: an area that ends before the end of user memory, or one that wraps around
to user memory. -/
theorem mmCheckArea_iff (hsize : size < 2 ^ 32) :
    mmCheckArea .qemuX86 L vaddr size .umem = true ↔
      L.IsUaddr vaddr ∧ (vaddr + size < L.uend ∨ WrapsToUser L vaddr size) := by
  simp only [mmCheckArea, Bool.and_eq_true, decide_eq_true_eq]
  refine and_congr_right fun hv => ?_
  have hend : L.uend < 2 ^ 32 := L.umem_fits
  rw [isUaddr_iff] at hv ⊢
  unfold WrapsToUser toVaddr
  by_cases hwrap : vaddr + size < 2 ^ 32
  · rw [Nat.mod_eq_of_lt hwrap]
    omega
  · rw [Nat.mod_eq_sub_mod (by omega), Nat.mod_eq_of_lt (by omega)]
    omega

/-- On the x86 target the check decides whether an area lies in user memory exactly if the area is
empty, starts outside of user memory, or neither ends with it nor wraps around to it. -/
theorem mmCheckArea_decides_iff (hsize : size < 2 ^ 32) :
    (mmCheckArea .qemuX86 L vaddr size .umem = true ↔ Contained L vaddr size) ↔
      (L.IsUaddr vaddr → 0 < size → ¬ EndsWithUser L vaddr size ∧ ¬ WrapsToUser L vaddr size) := by
  rw [mmCheckArea_iff hsize, contained_iff]
  have hend : L.uend < 2 ^ 32 := L.umem_fits
  unfold EndsWithUser WrapsToUser
  by_cases hv : L.IsUaddr vaddr
  · have := isUaddr_iff.mp hv
    simp only [hv, true_and, true_implies]
    omega
  · simp [hv]

/-- The sample layout, which has 1 MB of user memory, with the areas of a kernel below it. -/
def space32 : AddressSpace :=
  { layout32 with kbase := 0, kmem := 0x400000, kpool := 0x400000, kpoolSize := 0x10000, umem_fits := by decide }

/-- The first page of user memory. -/
theorem mmCheckArea_decides_page : mmCheckArea .qemuX86 space32 0x40000000 4096 .umem = true ∧
    Contained space32 0x40000000 4096 := by
  have h : mmCheckArea .qemuX86 space32 0x40000000 4096 .umem = true := by decide
  refine ⟨h, ((mmCheckArea_decides_iff (by decide)).mpr fun _ _ => ⟨?_, ?_⟩).mp h⟩
  · unfold EndsWithUser
    decide
  · unfold WrapsToUser
    decide

/-- The last word of user memory is refused, and almost all of memory is admitted as an area of it. -/
theorem not_mmCheckArea_decides :
    (Contained space32 0x400ffffc 4 ∧ mmCheckArea .qemuX86 space32 0x400ffffc 4 .umem = false) ∧
    (¬ Contained space32 0x40000008 0xfffffffc ∧
      mmCheckArea .qemuX86 space32 0x40000008 0xfffffffc .umem = true) := by
  refine ⟨⟨?_, by decide⟩, ?_, by decide⟩
  · rw [contained_iff]
    exact ⟨by decide, by decide⟩
  · rw [contained_iff]
    rintro ⟨-, h⟩
    exact absurd h (by decide)

/-! ### The buffers of the network calls -/

open Nanvix.Noc

/-- A mailbox or portal cannot be read to or written from the last bytes of user memory. -/
theorem kernelTransfer_end_refused {F : Facility} {s : Noc.State} {id : ℤ} {buffer : ℕ} {ty : CommType}
    (hF : ∀ v n, F.mmCheckArea v n = mmCheckArea .qemuX86 L v n .umem) (hid : validComm F id = true)
    (hsize : 0 < size ∧ size ≤ F.maxSize) (hword : size < 2 ^ 32) (hbuffer : L.IsUaddr buffer)
    (hne : buffer ≠ 0) (hend : EndsWithUser L buffer size) :
    kernelTransfer F s id buffer size ty = returns (.error .EFAULT) s := by
  have hno : F.mmCheckArea buffer size = false := by
    rw [hF, ← Bool.not_eq_true, mmCheckArea_iff hword]
    have hfits : L.uend < 2 ^ 32 := L.umem_fits
    have := isUaddr_iff.mp hbuffer
    unfold EndsWithUser at hend
    unfold WrapsToUser
    omega
  unfold kernelTransfer
  rw [if_neg (by simp [hid]), if_neg (by omega), if_neg hne, if_pos (by simp [hno])]

end Nanvix.Mm
