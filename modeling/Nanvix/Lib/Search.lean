import Mathlib.Combinatorics.Pigeonhole
import Mathlib.Data.List.ProdSigma
import Mathlib.Logic.Relation
import Mathlib.Tactic.Common

/-! Searches that may not end. A loop over candidates stops at the first one that is found, and
examining a candidate may itself not end. A recursion that descends along a relation ends exactly if
no path from its start leads back to a place on it, when there are only finitely many places. -/

namespace Nanvix.Lib.Search

/-! ### Loops -/

section Loop

variable {ι κ α : Type*} {found : α → Bool} {dflt : α} {f : ι → Option α} {g : ι → α} {is js : List ι}

/-- Examine the candidates in turn and stop at the first one that is found. -/
def firstOf (found : α → Bool) (dflt : α) (f : ι → Option α) : List ι → Option α
  | [] => some dflt
  | i :: is =>
    match f i with
    | none => none
    | some a => if found a then some a else firstOf found dflt f is

theorem firstOf_cons_none {i : ι} (h : f i = none) : firstOf found dflt f (i :: is) = none := by
  rw [firstOf, h]

theorem firstOf_cons_found {i : ι} {a : α} (h : f i = some a) (ha : found a = true) :
    firstOf found dflt f (i :: is) = some a := by
  rw [firstOf, h]
  exact if_pos ha

theorem firstOf_cons_skip {i : ι} {a : α} (h : f i = some a) (ha : found a = false) :
    firstOf found dflt f (i :: is) = firstOf found dflt f is := by
  rw [firstOf, h]
  exact if_neg (by rw [ha]; exact Bool.false_ne_true)

theorem firstOf_append (hd : found dflt = false) :
    firstOf found dflt f (is ++ js) =
      match firstOf found dflt f is with
      | none => none
      | some a => if found a then some a else firstOf found dflt f js := by
  induction is with
  | nil => exact (if_neg (by rw [hd]; exact Bool.false_ne_true)).symm
  | cons i is ih =>
    rw [List.cons_append]
    cases hi : f i with
    | none => rw [firstOf_cons_none hi, firstOf_cons_none hi]
    | some a =>
      cases ha : found a with
      | true =>
        rw [firstOf_cons_found hi ha, firstOf_cons_found hi ha]
        exact (if_pos ha).symm
      | false => rw [firstOf_cons_skip hi ha, firstOf_cons_skip hi ha, ih]

theorem firstOf_map (e : κ → ι) (ks : List κ) :
    firstOf found dflt f (ks.map e) = firstOf found dflt (fun k => f (e k)) ks := by
  induction ks with
  | nil => rfl
  | cons k ks ih => rw [List.map_cons, firstOf, firstOf, ih]

/-- A loop inside a loop is one loop over the pairs. -/
theorem firstOf_nested (hd : found dflt = false) (h : κ → ι → Option α) (ks : List κ) (is : List ι) :
    firstOf found dflt (fun k => firstOf found dflt (h k) is) ks =
      firstOf found dflt (fun p : κ × ι => h p.1 p.2) (ks ×ˢ is) := by
  induction ks with
  | nil => rfl
  | cons k ks ih =>
    rw [List.product_cons, firstOf_append hd, firstOf_map, ← ih]
    rfl

/-- The pairs come in lexicographic order. -/
theorem pairwise_product {r : κ → κ → Prop} {t : ι → ι → Prop} {ks : List κ} (hr : ks.Pairwise r)
    (ht : is.Pairwise t) : (ks ×ˢ is).Pairwise (Prod.Lex r t) := by
  induction ks with
  | nil => exact List.Pairwise.nil
  | cons k ks ih =>
    obtain ⟨hfirst, hrest⟩ := List.pairwise_cons.mp hr
    rw [List.product_cons, List.pairwise_append]
    refine ⟨?_, ih hrest, ?_⟩
    · rw [List.pairwise_map]
      exact ht.imp fun h => Prod.Lex.right k h
    · rintro ⟨k₁, i⟩ hi ⟨k₂, j⟩ hj
      obtain ⟨_, _, heq⟩ := List.mem_map.mp hi
      rw [← (Prod.mk.inj heq).1]
      exact Prod.Lex.left i j (hfirst k₂ (List.mem_product.mp hj).1)

/-- A loop that does not end has a candidate that does not. -/
theorem exists_of_firstOf_eq_none (h : firstOf found dflt f is = none) : ∃ i ∈ is, f i = none := by
  induction is with
  | nil => cases h
  | cons i is ih =>
    cases hi : f i with
    | none => exact ⟨i, List.mem_cons_self, hi⟩
    | some a =>
      cases ha : found a with
      | true =>
        rw [firstOf_cons_found hi ha] at h
        cases h
      | false =>
        rw [firstOf_cons_skip hi ha] at h
        obtain ⟨j, hj, hnone⟩ := ih h
        exact ⟨j, List.mem_cons_of_mem i hj, hnone⟩

/-- Where each candidate gives what it stands for or does not end, the loop does not end exactly if some
candidate does not and none is found before it. -/
theorem firstOf_eq_none_iff {r : ι → ι → Prop} (hr : is.Pairwise r) (hasymm : ∀ i j, r i j → ¬ r j i)
    (hf : ∀ i ∈ is, f i = none ∨ f i = some (g i)) :
    firstOf found dflt f is = none ↔
      ∃ i ∈ is, f i = none ∧ ∀ j ∈ is, r j i → found (g j) = false := by
  induction is with
  | nil => simp [firstOf]
  | cons i is ih =>
    obtain ⟨hfirst, hrest⟩ := List.pairwise_cons.mp hr
    have htail := ih hrest fun j hj => hf j (List.mem_cons_of_mem i hj)
    rcases hf i List.mem_cons_self with hi | hi
    · rw [firstOf_cons_none hi]
      refine ⟨fun _ => ⟨i, List.mem_cons_self, hi, fun j hj hji => ?_⟩, fun _ => rfl⟩
      rcases List.mem_cons.mp hj with rfl | hj
      · exact absurd hji (hasymm j j hji)
      · exact absurd hji (hasymm i j (hfirst j hj))
    · -- The first candidate ends, so the one that does not comes after it.
      have hlater : ∀ j ∈ i :: is, f j = none → j ∈ is := by
        intro j hj hnone
        rcases List.mem_cons.mp hj with rfl | hj
        · exact absurd (hi.symm.trans hnone) (Option.some_ne_none _)
        · exact hj
      cases hg : found (g i) with
      | true =>
        rw [firstOf_cons_found hi hg]
        refine ⟨fun h => absurd h (Option.some_ne_none _), ?_⟩
        rintro ⟨j, hj, hnone, hskip⟩
        have hmissed := hskip i List.mem_cons_self (hfirst j (hlater j hj hnone))
        rw [hg] at hmissed
        cases hmissed
      | false =>
        rw [firstOf_cons_skip hi hg, htail]
        constructor
        · rintro ⟨j, hj, hnone, hskip⟩
          refine ⟨j, List.mem_cons_of_mem i hj, hnone, fun k hk hkj => ?_⟩
          rcases List.mem_cons.mp hk with rfl | hk
          · exact hg
          · exact hskip k hk hkj
        · rintro ⟨j, hj, hnone, hskip⟩
          exact ⟨j, hlater j hj hnone, hnone, fun k hk => hskip k (List.mem_cons_of_mem i hk)⟩

/-- A loop that ends returns the first candidate that is found. -/
theorem eq_of_firstOf_eq_some {a : α} (hf : ∀ i ∈ is, f i = none ∨ f i = some (g i))
    (h : firstOf found dflt f is = some a) : a = ((is.map g).find? found).getD dflt := by
  induction is with
  | nil => exact (Option.some.inj h).symm
  | cons i is ih =>
    rcases hf i List.mem_cons_self with hi | hi
    · rw [firstOf_cons_none hi] at h
      cases h
    · rw [List.map_cons]
      cases hg : found (g i) with
      | true =>
        rw [firstOf_cons_found hi hg] at h
        rw [List.find?_cons_of_pos hg]
        exact (Option.some.inj h).symm
      | false =>
        rw [firstOf_cons_skip hi hg] at h
        rw [List.find?_cons_of_neg (by rw [hg]; exact Bool.false_ne_true)]
        exact ih (fun j hj => hf j (List.mem_cons_of_mem i hj)) h

theorem firstOf_eq_some (hf : ∀ i ∈ is, f i = some (g i)) :
    firstOf found dflt f is = some (((is.map g).find? found).getD dflt) := by
  have hsome : ∀ i ∈ is, f i = none ∨ f i = some (g i) := fun i hi => .inr (hf i hi)
  cases h : firstOf found dflt f is with
  | none =>
    obtain ⟨i, hi, hnone⟩ := exists_of_firstOf_eq_none h
    rw [hf i hi] at hnone
    cases hnone
  | some a => rw [eq_of_firstOf_eq_some hsome h]

/-- What a loop returns is found exactly if some candidate is. -/
theorem found_getD_find? (hd : found dflt = false) (l : List α) :
    found ((l.find? found).getD dflt) = false ↔ ∀ a ∈ l, found a = false := by
  cases h : l.find? found with
  | none =>
    rw [Option.getD_none]
    exact ⟨fun _ a ha => Bool.eq_false_iff.mpr (List.find?_eq_none.mp h a ha), fun _ => hd⟩
  | some b =>
    rw [Option.getD_some]
    exact ⟨fun hb => absurd (List.find?_some h) (by rw [hb]; exact Bool.false_ne_true),
      fun hall => hall b (List.mem_of_find?_eq_some h)⟩

end Loop

/-! ### Descents -/

section Descent

open Relation

variable {X : Type*} {D : X → X → Prop} {x : X}

/-- From `x` the relation leads to a place from which it leads back there. -/
def LeadsBack (D : X → X → Prop) (x : X) : Prop := ∃ c, ReflTransGen D x c ∧ TransGen D c c

/-- `Out n x` says that a descent from `x` is not done after `n` levels. The descent stays among the
places of `places`. -/
structure Descends (places : Finset X) (D : X → X → Prop) (Out : ℕ → X → Prop) : Prop where
  zero : ∀ x, Out 0 x
  succ : ∀ n, ∀ x ∈ places, Out (n + 1) x ↔ ∃ y, D x y ∧ Out n y
  mem : ∀ x ∈ places, ∀ y, D x y → y ∈ places

variable {places : Finset X} {Out : ℕ → X → Prop}

/-- A descent that is not done has gone down a path. -/
theorem Descends.exists_path (h : Descends places D Out) {n : ℕ} (hx : x ∈ places) (hout : Out n x) :
    ∃ p : ℕ → X, p 0 = x ∧ (∀ i ≤ n, p i ∈ places) ∧ ∀ i < n, D (p i) (p (i + 1)) := by
  induction n generalizing x with
  | zero => exact ⟨fun _ => x, rfl, fun _ _ => hx, by simp⟩
  | succ n ih =>
    obtain ⟨y, hxy, hy⟩ := (h.succ n x hx).mp hout
    obtain ⟨p, hp, hmem, hpath⟩ := ih (h.mem x hx y hxy) hy
    refine ⟨fun i => Nat.casesOn i x p, rfl, fun i hi => ?_, fun i hi => ?_⟩
    · cases i with
      | zero => exact hx
      | succ i => exact hmem i (Nat.le_of_succ_le_succ hi)
    · cases i with
      | zero =>
        show D x (p 0)
        rwa [hp]
      | succ i => exact hpath i (Nat.lt_of_succ_lt_succ hi)

theorem transGen_of_path {p : ℕ → X} {n i j : ℕ} (hpath : ∀ i < n, D (p i) (p (i + 1))) (hij : i < j)
    (hj : j ≤ n) : TransGen D (p i) (p j) := by
  induction j with
  | zero => exact absurd hij (Nat.not_lt_zero i)
  | succ j ih =>
    have hlast := hpath j (Nat.lt_of_succ_le hj)
    rcases Nat.lt_succ_iff_lt_or_eq.mp hij with hlt | rfl
    · exact (ih hlt (Nat.le_of_succ_le hj)).tail hlast
    · exact .single hlast

theorem reflTransGen_of_path {p : ℕ → X} {n i : ℕ} (hpath : ∀ i < n, D (p i) (p (i + 1))) (hi : i ≤ n) :
    ReflTransGen D (p 0) (p i) := by
  rcases Nat.eq_zero_or_pos i with rfl | hpos
  · exact .refl
  · exact (transGen_of_path hpath hpos hi).to_reflTransGen

/-- A descent as deep as there are places leads back. -/
theorem Descends.leadsBack (h : Descends places D Out) (hx : x ∈ places) (hout : Out places.card x) :
    LeadsBack D x := by
  obtain ⟨p, hp, hmem, hpath⟩ := h.exists_path hx hout
  -- Two of the places on the path are the same.
  have hmaps : ∀ i ∈ Finset.range (places.card + 1), p i ∈ places := fun i hi =>
    hmem i (Nat.le_of_lt_succ (Finset.mem_range.mp hi))
  obtain ⟨i, hi, j, hj, hne, heq⟩ := Finset.exists_ne_map_eq_of_card_lt_of_maps_to
    (by rw [Finset.card_range]; exact Nat.lt_succ_self _) hmaps
  rw [Finset.mem_range] at hi hj
  have hback : ∀ {i j : ℕ}, i < j → j < places.card + 1 → p i = p j → LeadsBack D x := by
    intro i j hij hj heq
    have hcycle := transGen_of_path hpath hij (Nat.le_of_lt_succ hj)
    have hreach := reflTransGen_of_path hpath (i := i) (by omega)
    rw [hp] at hreach
    rw [← heq] at hcycle
    exact ⟨p i, hreach, hcycle⟩
  rcases Nat.lt_or_gt_of_ne hne with hlt | hgt
  · exact hback hlt hj heq
  · exact hback hgt hi heq.symm

theorem Descends.out_of_leadsBack (h : Descends places D Out) (hx : x ∈ places) (hback : LeadsBack D x)
    (n : ℕ) : Out n x := by
  induction n generalizing x with
  | zero => exact h.zero x
  | succ n ih =>
    obtain ⟨c, hreach, hcycle⟩ := hback
    refine (h.succ n x hx).mpr ?_
    rcases ReflTransGen.cases_head hreach with rfl | ⟨y, hxy, hyc⟩
    · obtain ⟨y, hxy, hyx⟩ := TransGen.head'_iff.mp hcycle
      exact ⟨y, hxy, ih (h.mem x hx y hxy) ⟨x, hyx, hcycle⟩⟩
    · exact ⟨y, hxy, ih (h.mem x hx y hxy) ⟨c, hyc, hcycle⟩⟩

end Descent

end Nanvix.Lib.Search
