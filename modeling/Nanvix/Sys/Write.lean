import Nanvix.Lib.Bytes
import Nanvix.Mm.Area

/-! `kernel_write`. The user's bytes are copied to `buf2`, and the text for the output device is put
together in `bigbuf`: the name of the cluster, the user's bytes up to the first `NUL`, and a new line.
The number of bytes that go to the device is computed from the size that the user gave. -/

namespace Nanvix.Sys.Write

open Nanvix.Lib.Bytes Nanvix.Mm

/-- `WRITE_BUFFER_SIZE`. Both buffers have one byte more. -/
def writeBufferSize : ℕ := 512

/-- Where the two buffers are in memory. -/
structure Buffers where
  bigbuf : ℕ
  buf2 : ℕ
  apart : bigbuf + (writeBufferSize + 1) ≤ buf2 ∨ buf2 + (writeBufferSize + 1) ≤ bigbuf

inductive Buffer
  | bigbuf | buf2
  deriving DecidableEq, Repr

/-- Bytes written through a pointer into a buffer, from the offset `start` on. -/
structure Span where
  buffer : Buffer
  start : ℕ
  count : ℕ
  deriving DecidableEq, Repr

def Span.Inside (w : Span) : Prop := w.start + w.count ≤ writeBufferSize + 1

instance (w : Span) : Decidable w.Inside := inferInstanceAs (Decidable (_ ≤ _))

/-- The digits of a number of at most `fuel` digits. -/
def digits : ℕ → ℕ → List UInt8
  | 0, _ => []
  | fuel + 1, n =>
    if n < 10 then [UInt8.ofNat (48 + n)] else digits fuel (n / 10) ++ [UInt8.ofNat (48 + n % 10)]

/-- The conversion `%d` of an `int`. -/
def decimal (n : Int32) : List UInt8 :=
  (if n.toInt < 0 then [45] else []) ++ digits 10 n.toInt.natAbs

def ascii (cs : List Char) : List UInt8 := cs.map fun c => UInt8.ofNat c.toNat

/-- What `ksprintf` makes of `"cluster %d: "`. -/
def clusterPrefix (clusternum : Int32) : List UInt8 :=
  ascii ['c', 'l', 'u', 's', 't', 'e', 'r', ' '] ++ decimal clusternum ++ ascii [':', ' ']

def newline : List UInt8 := [10]

/-- `kstrcat`, in an address space of 32 bits: the offset at which the copy starts, the number of
bytes written, and the memory. -/
def kstrcat (m : ℕ → UInt8) (dst src : ℕ) : Option (ℕ × ℕ × (ℕ → UInt8)) :=
  match strlen m dst (2 ^ 32) with
  | none => none
  | some start => (strcpy m (dst + start) src (2 ^ 32)).map fun r => (start, r.1, r.2)

def kstrcatLiteral (m : ℕ → UInt8) (dst : ℕ) (s : List UInt8) : Option (ℕ × ℕ × (ℕ → UInt8)) :=
  (strlen m dst (2 ^ 32)).map fun start => (start, s.length + 1, store m (dst + start) (s ++ [0]))

/-- What a call returns, what it wrote, and what it passed to `stdout_write`. -/
structure Outcome where
  ret : Except Errno ℕ
  mem : ℕ → UInt8
  writes : List Span := []
  sent : Option (List UInt8) := none

/-- The part of `kernel_write` after the checks. -/
def writeText (B : Buffers) (clusternum : Int32) (user : List UInt8) (n : ℕ) (m : ℕ → UInt8) :
    Option Outcome :=
  let m := store m B.buf2 user
  let m := Function.update m (B.buf2 + n) 0
  let text := clusterPrefix clusternum
  let m := store m B.bigbuf (text ++ [0])
  let len := text.length
  match kstrcat m B.bigbuf B.buf2 with
  | none => none
  | some (start₁, count₁, m) =>
    match kstrcatLiteral m B.bigbuf newline with
    | none => none
    | some (start₂, count₂, m) =>
      let len := len + (n + 2)
      some
        { ret := .ok n
          mem := m
          writes := [⟨.buf2, 0, n⟩, ⟨.buf2, n, 1⟩, ⟨.bigbuf, 0, text.length + 1⟩,
            ⟨.bigbuf, start₁, count₁⟩, ⟨.bigbuf, start₂, count₂⟩]
          sent := some (load m B.bigbuf len) }

/-- `kernel_write`. `user` is the memory of the caller and `m` the memory of the kernel. It is
undefined where a string has no end. -/
def kernelWrite (M : Machine) (L : AddressSpace) (B : Buffers) (clusternum : Int32)
    (user m : ℕ → UInt8) (fd : ℤ) (buf n : ℕ) : Option Outcome :=
  if fd < 0 then some { ret := .error .EINVAL, mem := m }
  else if buf = 0 then some { ret := .error .EINVAL, mem := m }
  else if n > writeBufferSize then some { ret := .error .EINVAL, mem := m }
  else if !mmCheckArea M L buf n .umem then some { ret := .error .EFAULT, mem := m }
  else writeText B clusternum (load user buf n) n m

/-! ### The text -/

variable {B : Buffers} {m : ℕ → UInt8} {user : List UInt8} {clusternum : Int32}

theorem digits_nonzero (fuel n : ℕ) : ∀ b ∈ digits fuel n, b ≠ 0 := by
  have hdigit : ∀ d < 10, UInt8.ofNat (48 + d) ≠ 0 := by decide
  induction fuel generalizing n with
  | zero => simp [digits]
  | succ fuel ih =>
    intro b hb
    rw [digits] at hb
    split_ifs at hb with hn
    · rw [List.mem_singleton.mp hb]
      exact hdigit n hn
    · rcases List.mem_append.mp hb with hb | hb
      · exact ih _ b hb
      · rw [List.mem_singleton.mp hb]
        exact hdigit _ (Nat.mod_lt n (by omega))

theorem digits_length_le (fuel n : ℕ) : (digits fuel n).length ≤ fuel := by
  induction fuel generalizing n with
  | zero => simp [digits]
  | succ fuel ih =>
    rw [digits]
    split_ifs
    · simp
    · rw [List.length_append, List.length_singleton]
      exact Nat.succ_le_succ (ih _)

/-- The test that the bytes of a fixed text pass. -/
theorem nonzero_of_all {bs : List UInt8} (h : bs.all (· != 0) = true) : ∀ b ∈ bs, b ≠ 0 := by
  simpa using h

theorem clusterPrefix_nonzero (clusternum : Int32) : ∀ b ∈ clusterPrefix clusternum, b ≠ 0 := by
  have hname : ∀ b ∈ ascii ['c', 'l', 'u', 's', 't', 'e', 'r', ' '], b ≠ 0 := nonzero_of_all rfl
  have hcolon : ∀ b ∈ ascii [':', ' '], b ≠ 0 := nonzero_of_all rfl
  have hnumber : ∀ b ∈ decimal clusternum, b ≠ 0 := by
    intro b hb
    rcases List.mem_append.mp hb with hb | hb
    · split_ifs at hb
      · rw [List.mem_singleton.mp hb]
        decide
      · cases hb
    · exact digits_nonzero _ _ b hb
  intro b hb
  rcases List.mem_append.mp hb with hb | hb
  · rcases List.mem_append.mp hb with hb | hb
    · exact hname b hb
    · exact hnumber b hb
  · exact hcolon b hb

theorem clusterPrefix_length_le (clusternum : Int32) : (clusterPrefix clusternum).length ≤ 21 := by
  have hd := digits_length_le 10 clusternum.toInt.natAbs
  have hsign : (if clusternum.toInt < 0 then [45] else [] : List UInt8).length ≤ 1 := by
    split_ifs <;> simp
  simp only [clusterPrefix, decimal, ascii, List.length_append, List.length_map, List.length_cons,
    List.length_nil]
  omega

/-- The user's bytes as far as the string routines see them. -/
def cstring (user : List UInt8) : List UInt8 := user.takeWhile (· ≠ 0)

theorem cstring_length_le (user : List UInt8) : (cstring user).length ≤ user.length :=
  (List.takeWhile_prefix _).length_le

theorem cstring_nonzero (user : List UInt8) : ∀ b ∈ cstring user, b ≠ 0 := fun b hb => by
  simpa using List.mem_takeWhile_imp hb

/-- The bytes that the call puts together in `bigbuf`. -/
def text (clusternum : Int32) (user : List UInt8) : List UInt8 :=
  clusterPrefix clusternum ++ cstring user ++ newline

theorem text_length (clusternum : Int32) (user : List UInt8) :
    (text clusternum user).length = (clusterPrefix clusternum).length + (cstring user).length + 1 := by
  simp [text, newline, Nat.add_assoc]

/-! ### What the call does -/

/-- The memory before the text is put together: the user's bytes in `buf2`, the name in `bigbuf`. -/
def prepared (B : Buffers) (clusternum : Int32) (user : List UInt8) (m : ℕ → UInt8) : ℕ → UInt8 :=
  store (store m B.buf2 (user ++ [0])) B.bigbuf (clusterPrefix clusternum ++ [0])

theorem prepared_bigbuf : IsString (prepared B clusternum user m) B.bigbuf (clusterPrefix clusternum) := by
  refine isString_of_load ?_ (clusterPrefix_nonzero clusternum)
  have hload := load_store (store m B.buf2 (user ++ [0])) B.bigbuf (clusterPrefix clusternum ++ [0])
  rwa [List.length_append, List.length_singleton] at hload

theorem prepared_buf2 (hn : user.length ≤ writeBufferSize) :
    IsString (prepared B clusternum user m) B.buf2 (cstring user) := by
  refine isString_takeWhile ?_
  have hp := clusterPrefix_length_le clusternum
  have hload := load_store m B.buf2 (user ++ [0])
  rw [List.length_append, List.length_singleton] at hload
  rw [prepared, load_store_of_outside, hload]
  have hapart := B.apart
  simp only [List.length_append, List.length_singleton, writeBufferSize] at hn hapart ⊢
  omega

/-- The memory after the call. -/
def written (B : Buffers) (clusternum : Int32) (user : List UInt8) (m : ℕ → UInt8) : ℕ → UInt8 :=
  store (store (prepared B clusternum user m) (B.bigbuf + (clusterPrefix clusternum).length)
    (cstring user ++ [0])) (B.bigbuf + (clusterPrefix clusternum ++ cstring user).length) (newline ++ [0])

variable (B m user clusternum) in
theorem written_bigbuf : IsString (written B clusternum user m) B.bigbuf (text clusternum user) :=
  (prepared_bigbuf.append (cstring_nonzero user)).append (nonzero_of_all rfl)

variable (B m clusternum) in
/-- The call returns, and these are the bytes it has written. -/
theorem writeText_eq (hn : user.length ≤ writeBufferSize) :
    writeText B clusternum user user.length m = some
      { ret := .ok user.length
        mem := written B clusternum user m
        writes := [⟨.buf2, 0, user.length⟩, ⟨.buf2, user.length, 1⟩,
          ⟨.bigbuf, 0, (clusterPrefix clusternum).length + 1⟩,
          ⟨.bigbuf, (clusterPrefix clusternum).length, (cstring user).length + 1⟩,
          ⟨.bigbuf, (clusterPrefix clusternum ++ cstring user).length, 2⟩]
        sent := some (load (written B clusternum user m) B.bigbuf
          ((clusterPrefix clusternum).length + (user.length + 2))) } := by
  have hp := clusterPrefix_length_le clusternum
  have hs := cstring_length_le user
  have hbuf2 : Function.update (store m B.buf2 user) (B.buf2 + user.length) 0 =
      store m B.buf2 (user ++ [0]) := by
    rw [store_append, store_singleton]
  have hcat₁ : kstrcat (prepared B clusternum user m) B.bigbuf B.buf2 =
      some ((clusterPrefix clusternum).length, (cstring user).length + 1,
        store (prepared B clusternum user m) (B.bigbuf + (clusterPrefix clusternum).length)
          (cstring user ++ [0])) := by
    have hapart := B.apart
    simp only [writeBufferSize] at hn hapart
    rw [kstrcat, strlen_eq prepared_bigbuf (by omega)]
    dsimp only
    rw [strcpy_eq (prepared_buf2 (by simpa only [writeBufferSize] using hn)) (by omega) (by omega)]
    rfl
  have hcat₂ : kstrcatLiteral (store (prepared B clusternum user m)
      (B.bigbuf + (clusterPrefix clusternum).length) (cstring user ++ [0])) B.bigbuf newline =
      some ((clusterPrefix clusternum ++ cstring user).length, 2, written B clusternum user m) := by
    simp only [writeBufferSize] at hn
    rw [kstrcatLiteral, strlen_eq (prepared_bigbuf.append (cstring_nonzero user))
      (by rw [List.length_append]; omega)]
    rfl
  rw [prepared] at hcat₁ hcat₂
  simp only [writeText, hbuf2, hcat₁, hcat₂]

/-! ### What is written and what is sent -/

/-- The bytes that go to the device: the text with its terminator, and as many bytes behind it as
the text is shorter than the user said. -/
theorem load_written (B : Buffers) (clusternum : Int32) (user : List UInt8) (m : ℕ → UInt8) :
    load (written B clusternum user m) B.bigbuf ((clusterPrefix clusternum).length + (user.length + 2)) =
      text clusternum user ++ [0] ++
        load (written B clusternum user m) (B.bigbuf + ((text clusternum user).length + 1))
          (user.length - (cstring user).length) := by
  have hs := cstring_length_le user
  have hlen := text_length clusternum user
  rw [show (clusterPrefix clusternum).length + (user.length + 2) =
      ((text clusternum user).length + 1) + (user.length - (cstring user).length) by omega,
    load_add, (written_bigbuf _ _ _ _).load_eq]

/-- Bytes without a `NUL` among them are the string that they are. -/
theorem cstring_eq_self (h : ∀ b ∈ user, b ≠ 0) : cstring user = user := takeWhile_eq_self h

/-- Otherwise the string ends before the first `NUL`. -/
theorem exists_nul (h : ¬ ∀ b ∈ user, b ≠ 0) : ∃ rest, user = cstring user ++ 0 :: rest := by
  have hsplit := List.takeWhile_append_dropWhile (p := fun b => decide (b ≠ (0 : UInt8))) (l := user)
  cases hdrop : user.dropWhile (fun b => decide (b ≠ (0 : UInt8))) with
  | nil =>
    rw [hdrop, List.append_nil] at hsplit
    exact absurd (fun b hb => cstring_nonzero user b (by rwa [cstring, hsplit])) h
  | cons b rest =>
    have hb := List.head_dropWhile_not (fun b => decide (b ≠ (0 : UInt8))) (l := user)
      (by rw [hdrop]; exact List.cons_ne_nil b rest)
    simp only [hdrop, List.head_cons, decide_eq_false_iff_not, not_not] at hb
    rw [hdrop, hb] at hsplit
    exact ⟨rest, hsplit.symm⟩

/-- The user's bytes arrive, with the terminator behind them, exactly if there is no `NUL` among
them. -/
theorem sent_eq_iff (B : Buffers) (clusternum : Int32) (user : List UInt8) (m : ℕ → UInt8) :
    load (written B clusternum user m) B.bigbuf ((clusterPrefix clusternum).length + (user.length + 2)) =
      clusterPrefix clusternum ++ user ++ newline ++ [0] ↔ ∀ b ∈ user, b ≠ 0 := by
  rw [load_written]
  constructor
  · intro hsent
    by_contra hnul
    obtain ⟨rest, hrest⟩ := exists_nul hnul
    have hright : clusterPrefix clusternum ++ user ++ newline ++ [0] =
        clusterPrefix clusternum ++ (cstring user ++ 0 :: rest) ++ newline ++ [0] := by rw [← hrest]
    rw [hright, text] at hsent
    simp only [newline, List.append_assoc, List.append_cancel_left_eq, List.cons_append,
      List.cons.injEq] at hsent
    exact absurd hsent.1 (by decide)
  · intro hnul
    rw [text, cstring_eq_self hnul, Nat.sub_self, load_zero, List.append_nil]

/-- The calls that get past the checks. -/
structure Accepted (M : Machine) (L : AddressSpace) (fd : ℤ) (buf n : ℕ) : Prop where
  fd_nonneg : 0 ≤ fd
  buf_ne : buf ≠ 0
  size_le : n ≤ writeBufferSize
  area : mmCheckArea M L buf n .umem = true

variable {M : Machine} {L : AddressSpace} {umem : ℕ → UInt8} {fd : ℤ} {buf n : ℕ}

theorem kernelWrite_accepted (h : Accepted M L fd buf n) (B : Buffers) (clusternum : Int32) (umem m : ℕ → UInt8) :
    kernelWrite M L B clusternum umem m fd buf n = writeText B clusternum (load umem buf n) n m := by
  have hsize := h.size_le
  rw [kernelWrite, if_neg (not_lt_of_ge h.fd_nonneg), if_neg h.buf_ne, if_neg (by omega), if_neg (by simp [h.area])]

/-- A call that is refused writes nothing and sends nothing. -/
theorem kernelWrite_refused (h : ¬ Accepted M L fd buf n) (B : Buffers) (clusternum : Int32)
    (umem m : ℕ → UInt8) :
    ∃ e, kernelWrite M L B clusternum umem m fd buf n = some { ret := .error e, mem := m } := by
  unfold kernelWrite
  split_ifs with hfd hbuf hn harea
  · exact ⟨_, rfl⟩
  · exact ⟨_, rfl⟩
  · exact ⟨_, rfl⟩
  · exact ⟨_, rfl⟩
  · exact absurd ⟨by omega, hbuf, by omega, by simpa using harea⟩ h

variable (clusternum) in
/-- Everything written is inside the buffers exactly if the text with its terminator fits. -/
theorem inside_iff (hn : user.length ≤ writeBufferSize) :
    (∀ w ∈ [⟨.buf2, 0, user.length⟩, ⟨.buf2, user.length, 1⟩,
      ⟨.bigbuf, 0, (clusterPrefix clusternum).length + 1⟩,
      ⟨.bigbuf, (clusterPrefix clusternum).length, (cstring user).length + 1⟩,
      ⟨.bigbuf, (clusterPrefix clusternum ++ cstring user).length, 2⟩], Span.Inside w) ↔
      (text clusternum user).length + 1 ≤ writeBufferSize + 1 := by
  have hp := clusterPrefix_length_le clusternum
  rw [text_length]
  simp only [List.mem_cons, List.not_mem_nil, or_false, forall_eq_or_imp, forall_eq, Span.Inside,
    List.length_append, writeBufferSize] at *
  omega

/-- Everything is written inside the buffers, and what is sent is the name of the cluster, the user's
bytes and a new line. -/
def Outcome.Faithful (r : Outcome) (clusternum : Int32) (user : List UInt8) : Prop :=
  (∀ w ∈ r.writes, w.Inside) ∧ ∀ bytes ∈ r.sent, bytes = clusterPrefix clusternum ++ user ++ newline

/-- Every call returns, and only those that are refused are faithful. An accepted call stays inside the
buffers and sends the right bytes with the terminator behind them exactly if there is no `NUL`
among the user's bytes and the whole text fits. -/
theorem kernel_write_faithful_iff (M : Machine) (L : AddressSpace) (B : Buffers) (clusternum : Int32)
    (umem m : ℕ → UInt8) (fd : ℤ) (buf n : ℕ) :
    ∃ r, kernelWrite M L B clusternum umem m fd buf n = some r ∧
      (r.Faithful clusternum (load umem buf n) ↔ ¬ Accepted M L fd buf n) ∧
      (Accepted M L fd buf n → r.ret = .ok n ∧ ∃ bytes, r.sent = some bytes ∧
        (((∀ w ∈ r.writes, w.Inside) ∧
            bytes = clusterPrefix clusternum ++ load umem buf n ++ newline ++ [0]) ↔
          (∀ b ∈ load umem buf n, b ≠ 0) ∧
            (clusterPrefix clusternum).length + n + 2 ≤ writeBufferSize + 1)) := by
  by_cases h : Accepted M L fd buf n
  · set user := load umem buf n with huser
    have hlen : user.length = n := load_length _ _ _
    have hn : user.length ≤ writeBufferSize := by rw [hlen]; exact h.size_le
    have heq := writeText_eq B m clusternum hn
    rw [hlen] at heq
    refine ⟨_, (kernelWrite_accepted h B clusternum umem m).trans heq, ?_, fun _ => ⟨rfl, _, rfl, ?_⟩⟩
    · -- The length that is sent counts the terminator.
      refine iff_of_false (fun hf => ?_) (not_not_intro h)
      have hlengths := congrArg List.length (hf.2 _ rfl)
      simp only [load_length, List.length_append, newline, List.length_singleton, hlen] at hlengths
      omega
    · have hsent := sent_eq_iff B clusternum user m
      have hinside := inside_iff clusternum hn
      rw [hlen] at hsent hinside
      rw [hsent, hinside, and_comm]
      refine and_congr_right fun hnul => ?_
      rw [text_length, cstring_eq_self hnul, hlen]
  · obtain ⟨e, he⟩ := kernelWrite_refused h B clusternum umem m
    exact ⟨_, he, iff_of_true ⟨by simp, by simp⟩ h, fun hacc => absurd hacc h⟩

/-- The buffers, one behind the other. -/
def sampleBuffers : Buffers where
  bigbuf := 0x10000
  buf2 := 0x10201
  apart := .inl (Nat.le_refl _)

theorem accepted_page {n : ℕ} (hn : n ≤ writeBufferSize) : Accepted .other space32 1 0x40000000 n :=
  ⟨by decide, by decide, hn, rfl⟩

/-- One byte arrives, but with the terminator behind it; a call that is refused is faithful. -/
theorem kernel_write_faithful_iff_one :
    (∃ r, kernelWrite .other space32 sampleBuffers 0 (fun _ => 97) (fun _ => 0) 1 0x40000000 1 = some r ∧
      (∀ w ∈ r.writes, w.Inside) ∧ r.sent = some (clusterPrefix 0 ++ [97] ++ newline ++ [0]) ∧
      ¬ r.Faithful 0 [97]) ∧
    ∃ r, kernelWrite .other space32 sampleBuffers 0 (fun _ => 97) (fun _ => 0) (-1) 0x40000000 1 = some r ∧
      r.Faithful 0 [97] := by
  constructor
  · have hacc : Accepted .other space32 1 0x40000000 1 := accepted_page (by decide)
    obtain ⟨r, hr, hfaithful, hrest⟩ :=
      kernel_write_faithful_iff .other space32 sampleBuffers 0 (fun _ => 97) (fun _ => 0) 1 0x40000000 1
    obtain ⟨-, bytes, hsent, hiff⟩ := hrest hacc
    obtain ⟨hin, rfl⟩ := hiff.mpr ⟨nonzero_of_all rfl, by decide⟩
    exact ⟨r, hr, hin, hsent, fun hf => hfaithful.mp hf hacc⟩
  · obtain ⟨r, hr, hfaithful, -⟩ :=
      kernel_write_faithful_iff .other space32 sampleBuffers 0 (fun _ => 97) (fun _ => 0) (-1) 0x40000000 1
    exact ⟨r, hr, hfaithful.mpr fun hacc => absurd hacc.fd_nonneg (by decide)⟩

/-- A full buffer is written past the end of `bigbuf`; a byte `NUL` of the user ends the text, and a
byte that was in the buffer before is sent behind it; and one byte that arrives has the terminator
behind it. -/
theorem not_kernel_write_faithful :
    (∃ r, kernelWrite .other space32 sampleBuffers 0 (fun _ => 97) (fun _ => 0) 1 0x40000000 512 = some r ∧
      r.ret = .ok 512 ∧ ∃ w ∈ r.writes, ¬ w.Inside) ∧
    (∃ r, kernelWrite .other space32 sampleBuffers 0 (fun _ => 0) (fun _ => 115) 1 0x40000000 1 = some r ∧
      r.sent = some (clusterPrefix 0 ++ newline ++ [0] ++ [115])) ∧
    (∃ r, kernelWrite .other space32 sampleBuffers 0 (fun _ => 97) (fun _ => 0) 1 0x40000000 1 = some r ∧
      r.sent = some (clusterPrefix 0 ++ [97] ++ newline ++ [0])) := by
  have hwrite : ∀ (umem m : ℕ → UInt8) {n : ℕ}, n ≤ writeBufferSize →
      kernelWrite .other space32 sampleBuffers 0 umem m 1 0x40000000 n =
        writeText sampleBuffers 0 (load umem 0x40000000 n) n m :=
    fun umem m n hn => kernelWrite_accepted (accepted_page hn) sampleBuffers 0 umem m
  refine ⟨?_, ?_, ?_⟩
  · have hlen : (load (fun _ => 97) 0x40000000 512).length ≤ writeBufferSize := by rw [load_length]; decide
    have heq := writeText_eq sampleBuffers (fun _ => 0) 0 hlen
    rw [load_length] at heq
    refine ⟨_, (hwrite _ _ (by decide)).trans heq, rfl, ?_⟩
    refine ⟨⟨.bigbuf, _, 2⟩, List.mem_of_getLast? rfl, ?_⟩
    rw [Span.Inside, cstring_eq_self (nonzero_of_all (by decide +kernel)), List.length_append, load_length]
    decide
  · refine ⟨_, (hwrite _ _ (by decide)).trans (by rfl), ?_⟩
    decide +kernel
  · refine ⟨_, (hwrite _ _ (by decide)).trans (by rfl), ?_⟩
    decide +kernel

/-! ### Residue -/

/-- Behind a text that is shorter than the user said, the device gets what `bigbuf` held before. -/
theorem load_written_residue (hn : user.length ≤ writeBufferSize)
    (hfit : (clusterPrefix clusternum).length + user.length + 2 ≤ writeBufferSize + 1) :
    load (written B clusternum user m) (B.bigbuf + ((text clusternum user).length + 1))
        (user.length - (cstring user).length) =
      load m (B.bigbuf + ((text clusternum user).length + 1)) (user.length - (cstring user).length) := by
  have hp := clusterPrefix_length_le clusternum
  have hs := cstring_length_le user
  have hapart := B.apart
  have hlen := text_length clusternum user
  simp only [writeBufferSize] at hn hfit hapart
  refine load_congr fun i hi => ?_
  rw [written, prepared, store_of_ge, store_of_ge, store_of_ge, store_of_outside] <;>
    simp only [List.length_append, List.length_singleton, newline] <;> omega

/-- What the kernel sends after an earlier call: a user who writes `NUL` bytes reads the text of
the call before. -/
theorem residue_of_earlier_write {user₁ user₂ : List UInt8} (h₁ : ∀ b ∈ user₁, b ≠ 0)
    (hn : user₂.length ≤ user₁.length)
    (hfit : (clusterPrefix clusternum).length + user₁.length + 2 ≤ writeBufferSize + 1) :
    load (written B clusternum user₂ (written B clusternum user₁ m)) B.bigbuf
        ((clusterPrefix clusternum).length + (user₂.length + 2)) =
      text clusternum user₂ ++ [0] ++
        ((text clusternum user₁ ++ [0]).drop ((text clusternum user₂).length + 1)).take
          (user₂.length - (cstring user₂).length) := by
  have hs := cstring_length_le user₂
  have hlen₁ := text_length clusternum user₁
  have hlen₂ := text_length clusternum user₂
  rw [cstring_eq_self h₁] at hlen₁
  have hbuf : user₂.length ≤ writeBufferSize := by omega
  have hfirst := (written_bigbuf B m user₁ clusternum).load_eq
  rw [load_written, load_written_residue hbuf (by omega), ← hfirst, take_drop_load (by omega)]

end Nanvix.Sys.Write
