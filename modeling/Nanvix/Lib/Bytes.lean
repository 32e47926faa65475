import Mathlib.Algebra.Order.Ring.Nat
import Mathlib.Data.List.Range
import Mathlib.Data.List.TakeWhile
import Mathlib.Logic.Function.Basic
import Mathlib.Tactic.Common

/-! A memory of bytes and the strings in it. A string is stored with a byte `0` behind
it, and the routines on strings look for that byte. Copying goes byte by byte, so it
is right also when the copy overlaps the end of what was read already. -/

namespace Nanvix.Lib.Bytes

open Function

variable {m m' : ℕ → UInt8} {a x n i : ℕ} {bs cs s d : List UInt8} {b : UInt8}

/-- The `n` bytes from address `a` on. -/
def load (m : ℕ → UInt8) (a n : ℕ) : List UInt8 := (List.range n).map fun i => m (a + i)

/-- The memory after the bytes were written at `a`. -/
def store (m : ℕ → UInt8) (a : ℕ) (bs : List UInt8) (x : ℕ) : UInt8 :=
  if a ≤ x then (bs[x - a]?).getD (m x) else m x

@[simp] theorem load_length (m : ℕ → UInt8) (a n : ℕ) : (load m a n).length = n := by simp [load]

@[simp] theorem load_zero (m : ℕ → UInt8) (a : ℕ) : load m a 0 = [] := rfl

theorem load_succ (m : ℕ → UInt8) (a n : ℕ) : load m a (n + 1) = m a :: load m (a + 1) n := by
  simp only [load, List.range_succ_eq_map, List.map_cons, List.map_map, Nat.add_zero]
  congr 1
  exact List.map_congr_left fun i _ => congrArg m (Nat.add_right_comm a i 1)

theorem load_add (m : ℕ → UInt8) (a i n : ℕ) : load m a (i + n) = load m a i ++ load m (a + i) n := by
  induction i generalizing a with
  | zero => simp
  | succ i ih =>
    rw [Nat.add_right_comm, load_succ, load_succ, ih, List.cons_append, Nat.add_assoc, Nat.add_comm 1 i]

theorem load_congr (h : ∀ i < n, m (a + i) = m' (a + i)) : load m a n = load m' a n :=
  List.map_congr_left fun i hi => h i (List.mem_range.mp hi)

/-- A part of what is read is what is read there. -/
theorem take_drop_load {k : ℕ} (h : i + k ≤ n) : ((load m a n).drop i).take k = load m (a + i) k := by
  obtain ⟨j, rfl⟩ := Nat.exists_eq_add_of_le h
  rw [Nat.add_assoc, load_add m a i, load_add m (a + i) k, List.drop_left' (load_length _ _ _),
    List.take_left' (load_length _ _ _)]

/-! ### Writing -/

theorem store_of_lt (h : x < a) : store m a bs x = m x := if_neg (Nat.not_le.mpr h)

theorem store_of_ge (h : a + bs.length ≤ x) : store m a bs x = m x := by
  rw [store, if_pos (by omega), List.getElem?_eq_none (by omega), Option.getD_none]

theorem store_of_outside (h : x < a ∨ a + bs.length ≤ x) : store m a bs x = m x :=
  h.elim store_of_lt store_of_ge

theorem store_add (h : i < bs.length) : store m a bs (a + i) = bs[i] := by
  rw [store, if_pos (Nat.le_add_right a i), Nat.add_sub_cancel_left, List.getElem?_eq_getElem h,
    Option.getD_some]

@[simp] theorem store_nil (m : ℕ → UInt8) (a : ℕ) : store m a [] = m := by
  funext x
  exact store_of_outside (by simp only [List.length_nil]; omega)

theorem store_cons (m : ℕ → UInt8) (a : ℕ) (b : UInt8) (bs : List UInt8) :
    store m a (b :: bs) = store (update m a b) (a + 1) bs := by
  funext x
  rcases Nat.lt_trichotomy x a with hlt | rfl | hgt
  · rw [store_of_lt hlt, store_of_lt (by omega), update_of_ne (by omega)]
  · rw [store_of_lt (Nat.lt_succ_self x), update_self, store, if_pos (Nat.le_refl x)]
    simp
  · rw [store, if_pos (by omega), store, if_pos (by omega), update_of_ne (by omega),
      show x - a = x - (a + 1) + 1 by omega, List.getElem?_cons_succ]

theorem store_singleton (m : ℕ → UInt8) (a : ℕ) (b : UInt8) : store m a [b] = update m a b := by
  rw [store_cons, store_nil]

theorem store_append (m : ℕ → UInt8) (a : ℕ) (bs cs : List UInt8) :
    store m a (bs ++ cs) = store (store m a bs) (a + bs.length) cs := by
  induction bs generalizing m a with
  | nil => simp
  | cons b bs ih =>
    rw [List.cons_append, store_cons, ih, store_cons, List.length_cons, Nat.add_assoc, Nat.add_comm 1]

theorem load_store (m : ℕ → UInt8) (a : ℕ) (bs : List UInt8) : load (store m a bs) a bs.length = bs := by
  apply List.ext_getElem
  · exact load_length _ _ _
  · intro i _ hi
    simp only [load, List.getElem_map, List.getElem_range]
    exact store_add hi

theorem load_store_of_outside (h : x + n ≤ a ∨ a + bs.length ≤ x) : load (store m a bs) x n = load m x n :=
  load_congr fun i hi => store_of_outside (by omega)

/-! ### Words -/

/-- The `k` bytes of a number, the low one first. -/
def leBytes : ℕ → ℕ → List UInt8
  | 0, _ => []
  | k + 1, n => UInt8.ofNat n :: leBytes k (n / 256)

/-- The number that bytes stand for. -/
def leValue : List UInt8 → ℕ
  | [] => 0
  | b :: bs => b.toNat + 256 * leValue bs

@[simp] theorem leBytes_length (k n : ℕ) : (leBytes k n).length = k := by
  induction k generalizing n with
  | zero => rfl
  | succ k ih => rw [leBytes, List.length_cons, ih]

theorem leValue_leBytes (k n : ℕ) : leValue (leBytes k n) = n % 256 ^ k := by
  induction k generalizing n with
  | zero => rw [pow_zero, Nat.mod_one]; rfl
  | succ k ih =>
    have hlow : (UInt8.ofNat n).toNat = n % 256 := UInt8.toNat_ofNat'
    rw [leBytes, leValue, ih, hlow, pow_succ' 256 k, Nat.mod_mul]

/-- The bytes written inside a longer piece are read back. -/
theorem load_store_at (m : ℕ → UInt8) (a : ℕ) (bs cs ds : List UInt8) :
    load (store m a (bs ++ cs ++ ds)) (a + bs.length) cs.length = cs := by
  have hall := load_store m a (bs ++ cs ++ ds)
  rw [List.length_append, List.length_append] at hall
  have hpart := take_drop_load (m := store m a (bs ++ cs ++ ds)) (a := a) (i := bs.length)
    (n := bs.length + cs.length + ds.length) (k := cs.length) (Nat.le_add_right _ _)
  rw [hall, List.append_assoc, List.drop_left, List.take_left] at hpart
  rw [List.append_assoc]
  exact hpart.symm

/-! ### Strings -/

/-- The string `s` stands at address `a`. -/
def IsString (m : ℕ → UInt8) (a : ℕ) : List UInt8 → Prop
  | [] => m a = 0
  | b :: s => b ≠ 0 ∧ m a = b ∧ IsString m (a + 1) s

theorem IsString.congr (h : IsString m a s) (heq : ∀ i ≤ s.length, m' (a + i) = m (a + i)) :
    IsString m' a s := by
  induction s generalizing a with
  | nil => exact (heq 0 (Nat.le_refl 0)).trans h
  | cons b s ih =>
    obtain ⟨hb, ha, hs⟩ := h
    refine ⟨hb, (heq 0 (Nat.zero_le _)).trans ha, ih hs fun i hi => ?_⟩
    rw [show a + 1 + i = a + (i + 1) by omega]
    exact heq (i + 1) (Nat.succ_le_succ hi)

theorem IsString.nonzero (h : IsString m a s) : ∀ b ∈ s, b ≠ 0 := by
  induction s generalizing a with
  | nil => simp
  | cons b s ih =>
    intro c hc
    rcases List.mem_cons.mp hc with rfl | hc
    · exact h.1
    · exact ih h.2.2 c hc

theorem IsString.load_eq (h : IsString m a s) : load m a (s.length + 1) = s ++ [0] := by
  induction s generalizing a with
  | nil =>
    have h0 : m a = 0 := h
    rw [List.length_nil, load_succ, load_zero, h0, List.nil_append]
  | cons b s ih => rw [List.length_cons, load_succ, h.2.1, ih h.2.2, List.cons_append]

/-- Bytes with a `0` behind them are a string up to the first `0`. -/
theorem isString_takeWhile (h : load m a (bs.length + 1) = bs ++ [0]) :
    IsString m a (bs.takeWhile (· ≠ 0)) := by
  induction bs generalizing a with
  | nil =>
    rw [List.length_nil, load_succ, List.nil_append] at h
    exact (List.cons.inj h).1
  | cons b bs ih =>
    rw [List.length_cons, load_succ, List.cons_append] at h
    obtain ⟨hb, hbs⟩ := List.cons.inj h
    by_cases h0 : b = 0
    · rw [List.takeWhile_cons_of_neg (by simpa using h0)]
      exact hb.trans h0
    · rw [List.takeWhile_cons_of_pos (by simpa using h0)]
      exact ⟨h0, hb, ih hbs⟩

theorem takeWhile_eq_self (h : ∀ b ∈ s, b ≠ 0) : s.takeWhile (· ≠ 0) = s :=
  List.takeWhile_eq_self_iff.mpr fun b hb => by simpa using h b hb

theorem isString_of_load (h : load m a (s.length + 1) = s ++ [0]) (hs : ∀ b ∈ s, b ≠ 0) :
    IsString m a s := by
  rw [← takeWhile_eq_self hs]
  exact isString_takeWhile h

/-- Writing a string behind another one joins them. -/
theorem IsString.append (h : IsString m a d) (hs : ∀ b ∈ s, b ≠ 0) :
    IsString (store m (a + d.length) (s ++ [0])) a (d ++ s) := by
  refine isString_of_load ?_ fun b hb => (List.mem_append.mp hb).elim (h.nonzero b) (hs b)
  have hd : load (store m (a + d.length) (s ++ [0])) a d.length = d := by
    have hload := h.load_eq
    rw [load_add] at hload
    rw [load_store_of_outside (.inl (Nat.le_refl _))]
    exact (List.append_inj hload (load_length _ _ _)).1
  have hs' := load_store m (a + d.length) (s ++ [0])
  rw [List.length_append, List.length_singleton] at hs'
  rw [List.length_append, Nat.add_assoc, load_add, hd, hs', List.append_assoc]

/-! ### The routines

The number of iterations is bounded by `fuel`. -/

/-- The number of bytes before the first `0`. -/
def strlen (m : ℕ → UInt8) (a : ℕ) : ℕ → Option ℕ
  | 0 => none
  | fuel + 1 => if m a = 0 then some 0 else (strlen m (a + 1) fuel).map (· + 1)

/-- Copies from `src` to `dst` up to the first `0`, and that as well; the number of bytes written
and the memory. -/
def strcpy (m : ℕ → UInt8) (dst src : ℕ) : ℕ → Option (ℕ × (ℕ → UInt8))
  | 0 => none
  | fuel + 1 =>
    let m' := update m dst (m src)
    if m src = 0 then some (1, m') else (strcpy m' (dst + 1) (src + 1) fuel).map fun r => (r.1 + 1, r.2)

theorem strlen_eq {fuel : ℕ} (h : IsString m a s) (hf : s.length < fuel) : strlen m a fuel = some s.length := by
  induction s generalizing a fuel with
  | nil =>
    obtain ⟨f, rfl⟩ := Nat.exists_eq_succ_of_ne_zero (Nat.ne_of_gt hf)
    exact if_pos h
  | cons b s ih =>
    obtain ⟨f, rfl⟩ := Nat.exists_eq_succ_of_ne_zero (Nat.ne_of_gt (Nat.zero_lt_of_lt hf))
    obtain ⟨hb, ha, hs⟩ := h
    rw [Nat.succ_eq_add_one, strlen, if_neg (by rwa [ha]), ih hs (Nat.lt_of_succ_lt_succ hf)]
    rfl

/-- A copy to lower addresses, or to addresses behind the string, copies the string. -/
theorem strcpy_eq {fuel dst src : ℕ} (h : IsString m src s) (hf : s.length < fuel)
    (hsafe : dst ≤ src ∨ src + s.length < dst) :
    strcpy m dst src fuel = some (s.length + 1, store m dst (s ++ [0])) := by
  induction s generalizing m dst src fuel with
  | nil =>
    obtain ⟨f, rfl⟩ := Nat.exists_eq_succ_of_ne_zero (Nat.ne_of_gt hf)
    have h0 : m src = 0 := h
    rw [Nat.succ_eq_add_one, strcpy, if_pos h0, h0, List.nil_append, store_singleton, List.length_nil]
  | cons b s ih =>
    obtain ⟨f, rfl⟩ := Nat.exists_eq_succ_of_ne_zero (Nat.ne_of_gt (Nat.zero_lt_of_lt hf))
    obtain ⟨hb, ha, hs⟩ := h
    rw [List.length_cons] at hf hsafe
    -- The byte just written is not one that is still to be read.
    have hnext : IsString (update m dst b) (src + 1) s :=
      hs.congr fun i hi => update_of_ne (by omega) _ _
    rw [Nat.succ_eq_add_one, strcpy, if_neg (by rwa [ha]), ha,
      ih hnext (by omega) (by omega), List.cons_append, store_cons, List.length_cons]
    rfl

end Nanvix.Lib.Bytes
