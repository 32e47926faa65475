import Nanvix.Lib.Ones

/-! The checksums of lwIP. The bytes that are summed up lie anywhere in memory and in as many pieces as a
chain of buffers has; the sum is that of the bytes in a row. -/

namespace Nanvix.Net

open Nanvix.Lib Ones

def foldU32t (u : ℕ) : ℕ := u / 2 ^ 16 + u % 2 ^ 16

def swapBytesInWord (w : ℕ) : ℕ := w % 2 ^ 8 * 2 ^ 8 + w / 2 ^ 8 % 2 ^ 8

/-- The `u16_t` whose bytes in memory are these. -/
def halfword (big : Bool) (b₀ b₁ : UInt8) : ℕ :=
  if big then 256 * b₀.toNat + b₁.toNat else b₀.toNat + 256 * b₁.toNat

def htons (big : Bool) (n : UInt16) : ℕ := if big then n.toNat else swapBytesInWord n.toNat

section Sums
variable (big : Bool) (m : ℕ → UInt8)

/-- The loop of `lwip_standard_chksum`, with the sum, `ps` and `len` that it leaves. -/
def addWords : ℕ → ℕ → ℕ → ℕ × ℕ × ℕ
  | len + 2, ps, sum => addWords len (ps + 2) ((sum + halfword big (m ps) (m (ps + 1))) % 2 ^ 32)
  | len, ps, sum => (sum, ps, len)

/-- `lwip_standard_chksum`, version 2. -/
def lwipStandardChksum (dataptr len : ℕ) : ℕ :=
  let odd := dataptr % 2 = 1
  let (t₁, pb, len) := if odd ∧ 0 < len then (m dataptr, dataptr + 1, len - 1) else (0, dataptr, len)
  let (sum, ps, len) := addWords big m len pb 0
  let t₀ := if 0 < len then m ps else 0
  let sum := (sum + halfword big t₀ t₁) % 2 ^ 32
  let sum := foldU32t (foldU32t sum)
  (if odd then swapBytesInWord sum else sum) % 2 ^ 16

/-- What the checksums read of a `struct pbuf`. -/
structure Pbuf where
  payload : ℕ
  len : UInt16
  deriving DecidableEq, Repr

/-- The body of the loops over a chain, with `acc` and `swapped`. -/
def addPbuf (s : ℕ × Bool) (q : Pbuf) : ℕ × Bool :=
  let acc := foldU32t ((s.1 + lwipStandardChksum big m q.payload q.len.toNat) % 2 ^ 32)
  if q.len.toNat % 2 ≠ 0 then (swapBytesInWord acc, !s.2) else (acc, s.2)

/-- The sum over a chain that begins with `acc`, put right in the end. -/
def sumChain (p : List Pbuf) (acc : ℕ) : ℕ :=
  let s := p.foldl (addPbuf big m) (acc, false)
  if s.2 then swapBytesInWord s.1 else s.1

def inetCksumPseudoBase (p : List Pbuf) (proto : UInt8) (protoLen : UInt16) (acc : ℕ) : ℕ :=
  let acc := sumChain big m p acc
  let acc := (acc + htons big proto.toUInt16) % 2 ^ 32
  let acc := (acc + htons big protoLen) % 2 ^ 32
  0xffff - foldU32t (foldU32t acc) % 2 ^ 16

end Sums

/-- An address as it lies in memory, in network byte order. -/
structure Ip4Addr where
  b₀ : UInt8
  b₁ : UInt8
  b₂ : UInt8
  b₃ : UInt8
  deriving DecidableEq, Repr

def Ip4Addr.getU32 (big : Bool) (a : Ip4Addr) : ℕ :=
  if big then halfword big a.b₀ a.b₁ * 2 ^ 16 + halfword big a.b₂ a.b₃
  else halfword big a.b₀ a.b₁ + halfword big a.b₂ a.b₃ * 2 ^ 16

def inetChksumPseudo (big : Bool) (m : ℕ → UInt8) (p : List Pbuf) (proto : UInt8) (protoLen : UInt16)
    (src dest : Ip4Addr) : ℕ :=
  let addr := src.getU32 big
  let acc := addr % 2 ^ 16 + addr / 2 ^ 16 % 2 ^ 16
  let addr := dest.getU32 big
  let acc := acc + addr % 2 ^ 16 + addr / 2 ^ 16 % 2 ^ 16
  inetCksumPseudoBase big m p proto protoLen (foldU32t (foldU32t acc))

/-! ### Sums of words -/

variable {big : Bool} {m : ℕ → UInt8} {n : ℕ}

theorem canon_foldU32t (n : ℕ) : canon (foldU32t n) = canon n := by
  rw [canon_eq_iff, foldU32t]
  omega

theorem foldU32t_eq (h : n ≤ 2 * 65535) : foldU32t n = canon n := by
  rw [← canon_foldU32t, canon_of_le]
  unfold foldU32t
  omega

theorem foldU32t_twice (h : n < 2 ^ 32) : foldU32t (foldU32t n) = canon n := by
  rw [foldU32t_eq, canon_foldU32t]
  unfold foldU32t
  omega

theorem swapBytesInWord_canon (n : ℕ) : swapBytesInWord (canon n) = canon (256 * n) := by
  have hn := canon_le n
  have hhigh : canon n / 2 ^ 8 % 2 ^ 8 = canon n / 2 ^ 8 := by omega
  have hle : swapBytesInWord (canon n) ≤ 65535 := by
    unfold swapBytesInWord
    omega
  rw [← canon_of_le hle, ← canon_mul_canon, canon_eq_iff, swapBytesInWord, hhigh]
  omega

theorem halfword_eq (big : Bool) (b₀ b₁ : UInt8) :
    halfword big b₀ b₁ = byteSum big [b₀] + byteSum (!big) [b₁] := by
  cases big <;> simp [halfword, byteSum]

theorem halfword_le (big : Bool) (b₀ b₁ : UInt8) : halfword big b₀ b₁ ≤ 65535 := by
  have := b₀.toNat_lt
  have := b₁.toNat_lt
  cases big <;> simp [halfword] <;> omega

/-- The loop and the byte that it leaves add up the bytes. -/
theorem addWords_eq (t : UInt8) (len ps sum : ℕ) (h : sum + byteSum big (Bytes.load m ps len) < 2 ^ 32) :
    (addWords big m len ps sum).1 + halfword big
        (if 0 < (addWords big m len ps sum).2.2 then m (addWords big m len ps sum).2.1 else 0) t =
      sum + byteSum big (Bytes.load m ps len) + byteSum (!big) [t] := by
  fun_induction addWords big m len ps sum with
  | case1 len ps sum ih =>
    have hload : byteSum big (Bytes.load m ps (len + 2)) =
        halfword big (m ps) (m (ps + 1)) + byteSum big (Bytes.load m (ps + 2) len) := by
      cases big <;> simp [Bytes.load_succ, byteSum, halfword, Nat.add_assoc]
    rw [hload, ← Nat.add_assoc] at h ⊢
    rw [Nat.mod_eq_of_lt (by omega)] at ih ⊢
    exact ih h
  | case2 len ps sum hlen =>
    obtain rfl | rfl : len = 0 ∨ len = 1 := by
      by_contra hno
      exact hlen (len - 2) (by omega)
    · simp [halfword_eq, byteSum]
    · simp [halfword_eq, Bytes.load_succ, Nat.add_assoc]

/-- The sum of the bytes, at even and at odd addresses, for as many as the source says. -/
theorem lwipStandardChksum_eq (dataptr : ℕ) {len : ℕ} (h : len ≤ 0x20000) :
    lwipStandardChksum big m dataptr len = canon (byteSum big (Bytes.load m dataptr len)) := by
  have hbound (hi : Bool) (a : ℕ) {n : ℕ} (hn : n ≤ len) : byteSum hi (Bytes.load m a n) < 2 ^ 32 := by
    have := byteSum_le hi (Bytes.load m a n)
    rw [Bytes.load_length] at this
    omega
  have hsum (t : UInt8) (a : ℕ) {n : ℕ} (hn : n ≤ len) := addWords_eq t n a 0 (by simpa using hbound big a hn)
  unfold lwipStandardChksum
  by_cases hodd : dataptr % 2 = 1
  · cases len with
    | zero => simp [hodd, addWords, halfword, foldU32t, swapBytesInWord, byteSum, canon]
    | succ len =>
      -- At an odd address every byte is summed up with the other weight, and the sum is swapped.
      have hall : byteSum (!big) (Bytes.load m dataptr (len + 1)) =
          0 + byteSum big (Bytes.load m (dataptr + 1) len) + byteSum (!big) [m dataptr] := by
        simp [Bytes.load_succ, byteSum, Nat.add_comm]
      have hlt := hall ▸ hbound (!big) dataptr le_rfl
      simp only [hodd, Nat.succ_pos, and_self, if_true, Nat.add_sub_cancel]
      rw [hsum _ _ (Nat.le_succ len), Nat.mod_eq_of_lt hlt, foldU32t_twice hlt, ← hall, swapBytesInWord_canon,
        ← canon_byteSum_not, Bool.not_not, canon_mod]
  · have hlt := hbound big dataptr le_rfl
    simp only [hodd, false_and, if_false]
    rw [hsum _ _ le_rfl, Nat.zero_add, show byteSum (!big) [0] = 0 by simp [byteSum], Nat.add_zero,
      Nat.mod_eq_of_lt hlt, foldU32t_twice hlt, canon_mod]

/-! ### Chains -/

def payload (m : ℕ → UInt8) (p : List Pbuf) : List UInt8 :=
  p.flatMap fun q => Bytes.load m q.payload q.len.toNat

/-- The sum as it stands in the loop, where its bytes may be swapped. -/
def scale (swapped : Bool) (n : ℕ) : ℕ := if swapped then 256 * n else n

theorem addPbuf_eq (swapped : Bool) (n : ℕ) (q : Pbuf) :
    addPbuf big m (canon (scale swapped n), swapped) q =
      let swapped' := if q.len.toNat % 2 = 0 then swapped else !swapped
      (canon (scale swapped' (n + byteSum (swapped ^^ big) (Bytes.load m q.payload q.len.toNat))), swapped') := by
  set ys := Bytes.load m q.payload q.len.toNat with hys
  have hle : canon (scale swapped n) + canon (byteSum big ys) ≤ 2 * 65535 := by
    have := canon_le (scale swapped n)
    have := canon_le (byteSum big ys)
    omega
  have hscale : canon (scale swapped n + byteSum big ys) =
      canon (scale swapped (n + byteSum (swapped ^^ big) ys)) := by
    have hnot := canon_eq_iff.mp (canon_byteSum_not (!big) ys)
    rw [Bool.not_not] at hnot
    cases swapped
    · simp [scale]
    · simp only [scale, if_true, Bool.true_xor, canon_eq_iff]
      omega
  have hlen : q.len.toNat ≤ 0x20000 := q.len.toNat_lt.le.trans (by decide)
  have hlt : canon (scale swapped n) + canon (byteSum big ys) < 2 ^ 32 := hle.trans_lt (by decide)
  simp only [addPbuf, lwipStandardChksum_eq _ hlen, ← hys]
  rw [Nat.mod_eq_of_lt hlt, foldU32t_eq hle, canon_canon_add, Nat.add_comm, canon_canon_add, Nat.add_comm, hscale]
  by_cases heven : q.len.toNat % 2 = 0
  · simp [heven]
  · cases swapped <;> simp [heven, swapBytesInWord_canon, scale, canon_mul_mul]

/-- The loop adds up the bytes of the chain, of which the first may stand at an odd place. -/
theorem foldl_addPbuf (p : List Pbuf) (swapped : Bool) (n : ℕ) :
    ∃ swapped', p.foldl (addPbuf big m) (canon (scale swapped n), swapped) =
      (canon (scale swapped' (n + byteSum (swapped ^^ big) (payload m p))), swapped') := by
  induction p generalizing swapped n with
  | nil => exact ⟨swapped, rfl⟩
  | cons q p ih =>
    rw [List.foldl_cons, addPbuf_eq]
    obtain ⟨swapped', hrest⟩ := ih (if q.len.toNat % 2 = 0 then swapped else !swapped)
      (n + byteSum (swapped ^^ big) (Bytes.load m q.payload q.len.toNat))
    refine ⟨swapped', hrest.trans ?_⟩
    have hcons : payload m (q :: p) = Bytes.load m q.payload q.len.toNat ++ payload m p := rfl
    rw [hcons, byteSum_append, Bytes.load_length, ← Nat.add_assoc]
    by_cases heven : q.len.toNat % 2 = 0 <;> simp [heven]

theorem sumChain_eq (p : List Pbuf) (n : ℕ) :
    sumChain big m p (canon n) = canon (n + byteSum big (payload m p)) := by
  obtain ⟨swapped, hp⟩ : ∃ swapped, p.foldl (addPbuf big m) (canon n, false) = _ := foldl_addPbuf p false n
  rw [sumChain, hp, Bool.false_xor]
  cases swapped <;> simp [scale, swapBytesInWord_canon, canon_mul_mul]

/-! ### The checksum of TCP and UDP -/

/-- The bytes of a number as they are sent. -/
def netBytes (n : UInt16) : List UInt8 := [(n >>> 8).toUInt8, n.toUInt8]

/-- The pseudo header, as it would stand before the data. -/
def pseudoHeader (proto : UInt8) (protoLen : UInt16) (src dest : Ip4Addr) : List UInt8 :=
  [src.b₀, src.b₁, src.b₂, src.b₃, dest.b₀, dest.b₁, dest.b₂, dest.b₃] ++ netBytes proto.toUInt16 ++
    netBytes protoLen

theorem getU32_words (a : Ip4Addr) : a.getU32 big % 2 ^ 16 + a.getU32 big / 2 ^ 16 % 2 ^ 16 =
    halfword big a.b₀ a.b₁ + halfword big a.b₂ a.b₃ := by
  have := halfword_le big a.b₀ a.b₁
  have := halfword_le big a.b₂ a.b₃
  cases big <;> simp only [Ip4Addr.getU32, if_true, Bool.false_eq_true, if_false] <;> omega

theorem htons_eq (n : UInt16) : htons big n = byteSum big (netBytes n) := by
  have := n.toNat_lt
  have hhigh : (n >>> 8).toUInt8.toNat = n.toNat / 256 := by
    simp [Nat.shiftRight_eq_div_pow]
    omega
  cases big <;> simp [htons, swapBytesInWord, netBytes, byteSum, hhigh] <;> omega

variable (proto : UInt8) (protoLen : UInt16) (src dest : Ip4Addr)

theorem inetCksumPseudoBase_eq (p : List Pbuf) (n : ℕ) :
    inetCksumPseudoBase big m p proto protoLen (canon n) = 65535 - canon (n + byteSum big (payload m p) +
      (byteSum big (netBytes proto.toUInt16) + byteSum big (netBytes protoLen))) := by
  have hsum := canon_le (n + byteSum big (payload m p))
  have hproto := byteSum_le big (netBytes proto.toUInt16)
  have hlen := byteSum_le big (netBytes protoLen)
  simp only [netBytes, List.length_cons, List.length_nil] at hproto hlen
  simp only [inetCksumPseudoBase, sumChain_eq, htons_eq, Nat.mod_add_mod, netBytes]
  rw [foldU32t_twice (Nat.mod_lt _ (Nat.two_pow_pos 32)), canon_mod, Nat.mod_eq_of_lt (by omega),
    Nat.add_assoc, canon_canon_add]

/-- The checksum of a chain is that of the bytes in a row, however they are cut into buffers, wherever
these lie in memory and whatever the byte order of the host. -/
theorem inetChksumPseudo_eq (p : List Pbuf) :
    inetChksumPseudo big m p proto protoLen src dest =
      65535 - canon (byteSum big (pseudoHeader proto protoLen src dest ++ payload m p)) := by
  have := halfword_le big src.b₀ src.b₁
  have := halfword_le big src.b₂ src.b₃
  have := halfword_le big dest.b₀ dest.b₁
  have := halfword_le big dest.b₂ dest.b₃
  simp only [inetChksumPseudo, getU32_words, Nat.add_assoc _ (dest.getU32 big % 2 ^ 16)]
  rw [foldU32t_twice (by omega), inetCksumPseudoBase_eq]
  refine congrArg (65535 - canon ·) ?_
  simp [pseudoHeader, netBytes, halfword_eq, byteSum]
  omega

/-- Among all values of the field at an even place, the receiver accepts the checksum that the sender computed
while the field was zero, and 0xffff for 0, whatever the byte orders and the buffers of both. -/
theorem checksum_round_trip {big' : Bool} {m' : ℕ → UInt8} {p p' : List Pbuf} {xs ys : List UInt8} {b₀ b₁ : UInt8}
    (heven : xs.length % 2 = 0)
    (hsent : payload m p = xs ++ [0, 0] ++ ys) (hreceived : payload m' p' = xs ++ [b₀, b₁] ++ ys) :
    inetChksumPseudo big' m' p' proto protoLen src dest = 0 ↔
      halfword big b₀ b₁ = inetChksumPseudo big m p proto protoLen src dest ∨
        inetChksumPseudo big m p proto protoLen src dest = 0 ∧ halfword big b₀ b₁ = 0xffff := by
  set hdr := pseudoHeader proto protoLen src dest with hhdr
  have hlen : (hdr ++ xs).length % 2 = 0 := by
    simp [hhdr, pseudoHeader, netBytes]
    omega
  have hcut (bs : List UInt8) : byteSum big (hdr ++ (xs ++ bs ++ ys)) =
      byteSum big (hdr ++ xs) + byteSum big (bs ++ ys) := by
    rw [List.append_assoc, ← List.append_assoc, byteSum_append, if_pos hlen]
  have hfield : byteSum big (hdr ++ payload m' p') = byteSum big (hdr ++ payload m p) + halfword big b₀ b₁ := by
    rw [hsent, hreceived, hcut, hcut]
    simp [halfword_eq, byteSum]
    omega
  simp only [inetChksumPseudo_eq, ← hhdr]
  rw [canon_byteSum_eq_iff big' big, hfield]
  exact canon_add_eq_iff (halfword_le big b₀ b₁)

/-- A little-endian host sends six bytes in three buffers, and a big-endian one has them in one. -/
theorem checksum_round_trip_six : inetChksumPseudo true (fun a => [1, 2, 0xe5, 0xdd, 5, 6].getD a 0) [⟨0, 6⟩]
    17 6 ⟨10, 0, 0, 1⟩ ⟨10, 0, 0, 2⟩ = 0 :=
  have hsent : payload (fun a => [9, 1, 2, 0, 0, 5, 9, 6].getD a 0) [⟨1, 3⟩, ⟨4, 2⟩, ⟨7, 1⟩] =
    [1, 2] ++ [0, 0] ++ [5, 6] := by decide
  have hsum : halfword false 0xe5 0xdd = inetChksumPseudo false (fun a => [9, 1, 2, 0, 0, 5, 9, 6].getD a 0)
    [⟨1, 3⟩, ⟨4, 2⟩, ⟨7, 1⟩] 17 6 ⟨10, 0, 0, 1⟩ ⟨10, 0, 0, 2⟩ := by decide
  (checksum_round_trip 17 6 ⟨10, 0, 0, 1⟩ ⟨10, 0, 0, 2⟩ rfl hsent (by decide)).mpr (.inl hsum)

end Nanvix.Net
