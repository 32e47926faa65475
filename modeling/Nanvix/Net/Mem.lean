import Nanvix.Lib.Blocks
import Nanvix.Lib.Bytes
import Nanvix.Lib.Trace

/-! The heap of lwIP. The heap is an array of bytes, and the descriptors of its blocks are in the same
bytes as the data of the clients: a field of a descriptor is some bytes at the beginning of a block.
A place in the heap is given by its distance from `ram`. -/

namespace Nanvix.Net

open Nanvix.Lib

/-- `LWIP_MEM_ALIGN_SIZE` for `MEM_ALIGNMENT = a`. As the alignment is a power of two, the mask rounds
down to one of its multiples. -/
def alignSize (a size : ℕ) : ℕ := (size + a - 1) / a * a

/-- The configuration of the heap. Its places are `u16_t` numbers. -/
structure Heap where
  memSize : ℕ
  alignment : ℕ
  minSize : ℕ
  alignment_pow : ∃ k, alignment = 2 ^ k
  minSize_pos : 0 < minSize
  memSize_fits : alignSize alignment memSize < 2 ^ 16
  memSize_room : alignSize alignment 6 + alignSize alignment minSize ≤ alignSize alignment memSize

namespace Heap

variable (H : Heap)

def minAligned : ℕ := alignSize H.alignment H.minSize

/-- `SIZEOF_STRUCT_MEM`: two places and a flag, of six bytes with the padding. -/
def sizeofMem : ℕ := alignSize H.alignment 6

/-- `MEM_SIZE_ALIGNED`, which is also where `ram_end` is. -/
def ramEnd : ℕ := alignSize H.alignment H.memSize

/-- The size that `mem_malloc` looks for, a `u16_t`. -/
def rounded (sizeIn : UInt16) : ℕ := max (alignSize H.alignment sizeIn.toNat % 2 ^ 16) H.minAligned

end Heap

namespace Mem

/-- What the assertions of the heap say, and a loop that does not end. -/
inductive Fault where
  | mallocNext | mallocLfree | mallocAbove | mallocAligned
  | freeAlignment | freeIllegal | freeDouble | freeUnlinked
  | plugAbove | plugUsed | plugNext
  | endless
  deriving DecidableEq, Repr

/-! ### Descriptors -/

def header (m : ℕ → UInt8) (p : ℕ) : Blocks.Header where
  next := Bytes.leValue (Bytes.load m p 2)
  prev := Bytes.leValue (Bytes.load m (p + 2) 2)
  used := m (p + 4) != 0

def setNext (m : ℕ → UInt8) (p v : ℕ) : ℕ → UInt8 := Bytes.store m p (Bytes.leBytes 2 v)

def setPrev (m : ℕ → UInt8) (p v : ℕ) : ℕ → UInt8 := Bytes.store m (p + 2) (Bytes.leBytes 2 v)

def setUsed (m : ℕ → UInt8) (p : ℕ) (u : Bool) : ℕ → UInt8 :=
  Bytes.store m (p + 4) [if u then 1 else 0]

/-- `mem->next - (ptr + SIZEOF_STRUCT_MEM)`, in `size_t`. -/
def room (H : Heap) (m : ℕ → UInt8) (p : ℕ) : ℕ :=
  ((header m p).next + 2 ^ 32 - (p + H.sizeofMem)) % 2 ^ 32

/-! ### The state -/

/-- The heap: the bytes of `ram` and the lowest free block. -/
structure State where
  ram : ℕ → UInt8
  lfree : ℕ

variable (H : Heap)

/-- `mem_init`, with what the memory held before. -/
def memInit (m : ℕ → UInt8) : State :=
  let m := setNext m 0 H.ramEnd
  let m := setPrev m 0 0
  let m := setUsed m 0 false
  let m := setUsed m H.ramEnd true
  let m := setNext m H.ramEnd H.ramEnd
  let m := setPrev m H.ramEnd H.ramEnd
  { ram := m, lfree := 0 }

/-- `if (next != MEM_SIZE_ALIGNED) ptr_to_mem(next)->prev = p`. -/
def relink (m : ℕ → UInt8) (next p : ℕ) : ℕ → UInt8 := if next ≠ H.ramEnd then setPrev m next p else m

/-! ### Allocation -/

/-- The loop of `mem_malloc` ends at `ptr`: nothing fits further on, or the block there fits. -/
def scanStops (m : ℕ → UInt8) (size ptr : ℕ) : Bool :=
  !decide (ptr < H.ramEnd - size) || (!(header m ptr).used && decide (size ≤ room H m ptr))

/-- The block at `ptr` is cut behind `size` bytes of data. -/
def splitBlock (s : State) (ptr size : ℕ) : Except Fault State :=
  let ptr2 := (ptr + H.sizeofMem + size) % 2 ^ 16
  if ptr2 = H.ramEnd then .error .mallocNext
  else
    let m := setUsed s.ram ptr2 false
    let m := setNext m ptr2 (header m ptr).next
    let m := setPrev m ptr2 ptr
    let m := setNext m ptr ptr2
    let m := setUsed m ptr true
    let m := relink H m (header m ptr2).next ptr2
    .ok { s with ram := m }

/-- The block at `ptr` is taken, and cut if the rest can hold data. -/
def takeBlock (s : State) (ptr size : ℕ) : Except Fault State :=
  if size + H.sizeofMem + H.minAligned ≤ room H s.ram ptr then splitBlock H s ptr size
  else .ok { s with ram := setUsed s.ram ptr true }

/-- The search for the next free block after the lowest one was taken. -/
def adjustLfree (s : State) (ptr : ℕ) : Except Fault State :=
  if ptr = s.lfree then
    let stop := fun cur => !((header s.ram cur).used && cur != H.ramEnd)
    match Blocks.seek (header s.ram) stop (H.ramEnd + 1) s.lfree with
    | none => .error .endless
    | some cur =>
      if cur = H.ramEnd ∨ (header s.ram cur).used = false then .ok { s with lfree := cur }
      else .error .mallocLfree
  else .ok s

/-- The rest of `mem_malloc` once a block is found at `ptr`. -/
def allocAt (s : State) (ptr size : ℕ) : Except Fault (Option ℕ × State) :=
  match takeBlock H s ptr size with
  | .error f => .error f
  | .ok s =>
    match adjustLfree H s ptr with
    | .error f => .error f
    | .ok s =>
      if H.ramEnd < ptr + H.sizeofMem + size then .error .mallocAbove
      else if (ptr + H.sizeofMem) % H.alignment ≠ 0 ∨ ptr % H.alignment ≠ 0 then .error .mallocAligned
      else .ok (some (ptr + H.sizeofMem), s)

def memMalloc (s : State) (sizeIn : UInt16) : Except Fault (Option ℕ × State) :=
  if sizeIn = 0 then .ok (none, s)
  else
    let size := H.rounded sizeIn
    if H.ramEnd < size ∨ size < sizeIn.toNat then .ok (none, s)
    else
      match Blocks.seek (header s.ram) (scanStops H s.ram size) (H.ramEnd + 1) s.lfree with
      | none => .error .endless
      | some ptr =>
        if ptr < H.ramEnd - size then allocAt H s ptr size
        else .ok (none, s)

def memCalloc (s : State) (count size : UInt16) : Except Fault (Option ℕ × State) :=
  let alloc := count.toNat * size.toNat
  if alloc % 2 ^ 16 ≠ alloc then .ok (none, s)
  else
    match memMalloc H s (UInt16.ofNat alloc) with
    | .error f => .error f
    | .ok (none, s) => .ok (none, s)
    | .ok (some p, s) => .ok (some p, { s with ram := Bytes.store s.ram p (List.replicate alloc 0) })

/-! ### Release -/

def memLinkValid (m : ℕ → UInt8) (mem : ℕ) : Bool :=
  let h := header m mem
  decide (h.next ≤ H.ramEnd) && decide (h.prev ≤ H.ramEnd) &&
    (decide (h.prev = mem) || decide ((header m h.prev).next = mem)) &&
    (decide (h.next = H.ramEnd) || decide ((header m h.next).prev = mem))

/-- `plug_holes`, forward. -/
def plugForward (s : State) (mem : ℕ) : State :=
  let nmem := (header s.ram mem).next
  if mem ≠ nmem ∧ (header s.ram nmem).used = false ∧ nmem ≠ H.ramEnd then
    let lfree := if s.lfree = nmem then mem else s.lfree
    let m := setNext s.ram mem (header s.ram nmem).next
    let m := relink H m (header m nmem).next mem
    { s with ram := m, lfree := lfree }
  else s

/-- `plug_holes`, backward. -/
def plugBackward (s : State) (mem : ℕ) : State :=
  let pmem := (header s.ram mem).prev
  if pmem ≠ mem ∧ (header s.ram pmem).used = false then
    let lfree := if s.lfree = mem then pmem else s.lfree
    let m := setNext s.ram pmem (header s.ram mem).next
    let m := relink H m (header m mem).next pmem
    { s with ram := m, lfree := lfree }
  else s

def plugHoles (s : State) (mem : ℕ) : Except Fault State :=
  if H.ramEnd ≤ mem then .error .plugAbove
  else if (header s.ram mem).used then .error .plugUsed
  else if H.ramEnd < (header s.ram mem).next then .error .plugNext
  else .ok (plugBackward H (plugForward H s mem) mem)

/-- `mem_free`; `none` is the null pointer. -/
def memFree (s : State) (rmem : Option ℤ) : Except Fault State :=
  match rmem with
  | none => .ok s
  | some r =>
    if r % H.alignment ≠ 0 then .error .freeAlignment
    else if r - H.sizeofMem < 0 ∨ (H.ramEnd : ℤ) < r + H.minAligned then .error .freeIllegal
    else
      let mem := (r - H.sizeofMem).toNat
      if (header s.ram mem).used = false then .error .freeDouble
      else if memLinkValid H s.ram mem = false then .error .freeUnlinked
      else
        let m := setUsed s.ram mem false
        let lfree := if mem < s.lfree then mem else s.lfree
        plugHoles H ⟨m, lfree⟩ mem

/-! ### Clients -/

/-- What the clients of the heap do: they call it, and they write and read the memory. -/
inductive Act where
  | malloc (size : UInt16)
  | calloc (count size : UInt16)
  | free (rmem : Option ℤ)
  | write (p : ℕ) (bs : List UInt8)
  | read (p n : ℕ)
  deriving DecidableEq, Repr

inductive Out where
  | ptr (p : Option ℕ)
  | done
  | bytes (bs : List UInt8)
  | fault (f : Fault)
  deriving DecidableEq, Repr

/-- What a client does, unless an assertion fails. -/
def call (s : State) : Act → Except Fault (Out × State)
  | .malloc size => (memMalloc H s size).map fun r => (.ptr r.1, r.2)
  | .calloc count size => (memCalloc H s count size).map fun r => (.ptr r.1, r.2)
  | .free rmem => (memFree H s rmem).map fun s => (.done, s)
  | .write p bs => .ok (.done, { s with ram := Bytes.store s.ram p bs })
  | .read p n => .ok (.bytes (Bytes.load s.ram p n), s)

/-- A step of a client; an assertion that fails stops the kernel. -/
def step (s : State) (a : Act) : Out × State :=
  match call H s a with
  | .error f => (.fault f, s)
  | .ok r => r

def steps : Steps State Act Out := fun s a o t => step H s a = (o, t)

abbrev Trace := List (Event State Act Out)

def Runs (tr : Trace) (s : State) : Prop := ∃ m, Run (steps H) (memInit H m) tr s

end Mem

end Nanvix.Net
