import Mathlib.Order.Basic
import Nanvix.Lib.Ring
import Nanvix.Lib.Trace

/-! Queues. A ring holds a queue when its cells from the tail on are the queue's
elements, oldest first. Whatever implements it, what was put into a queue over a run
is what was taken out and what is left, in this order. -/

namespace Nanvix.Lib

open Function

namespace Ring

variable {α : Type*} {f : ℕ → α} {cap tail n : ℕ}

/-- Adding at most the capacity comes back to the start only for nothing or for a whole turn. -/
theorem index_eq_start (ht : tail < cap) (hn : n ≤ cap) :
    (tail + n) % cap = tail ↔ n = 0 ∨ n = cap := by
  constructor
  · intro h
    rcases Nat.lt_or_ge n cap with hlt | hge
    · left
      have h0 : (tail + n) % cap = (tail + 0) % cap := by rw [h, add_zero, Nat.mod_eq_of_lt ht]
      exact index_inj hlt (by omega) h0
    · exact .inr (by omega)
  · rintro (rfl | rfl)
    · exact Nat.mod_eq_of_lt ht
    · rw [Nat.add_mod_right, Nat.mod_eq_of_lt ht]

/-- The ring holds the queue `q`, oldest element first, from the cell `tail` on. -/
structure Queued (f : ℕ → α) (cap tail : ℕ) (q : List α) : Prop where
  tail_lt : tail < cap
  short : q.length ≤ cap
  window_eq : window f cap tail q.length = q

namespace Queued

variable {q : List α} {x : α}

theorem nil (f : ℕ → α) (ht : tail < cap) : Queued f cap tail [] where
  tail_lt := ht
  short := Nat.zero_le cap
  window_eq := rfl

theorem push (h : Queued f cap tail q) (hq : q.length < cap) (x : α) :
    Queued (update f ((tail + q.length) % cap) x) cap tail (q ++ [x]) where
  tail_lt := h.tail_lt
  short := by rw [List.length_append, List.length_singleton]; exact hq
  window_eq := by
    rw [List.length_append, List.length_singleton, window_push x hq, h.window_eq]

theorem head (h : Queued f cap tail (x :: q)) : f tail = x := by
  have hw := h.window_eq
  rw [List.length_cons, window_cons, Nat.mod_eq_of_lt h.tail_lt] at hw
  exact (List.cons.inj hw).1

/-- The cell of the element that leaves may be written. -/
theorem pop (h : Queued f cap tail (x :: q)) (y : α) :
    Queued (update f tail y) cap ((tail + 1) % cap) q where
  tail_lt := Nat.mod_lt _ (Nat.zero_lt_of_lt h.tail_lt)
  short := Nat.le_of_succ_le h.short
  window_eq := by
    have hw := h.window_eq
    rw [List.length_cons, window_cons] at hw
    have hpop : window (update f (tail % cap) y) cap ((tail + 1) % cap) q.length =
        window f cap ((tail + 1) % cap) q.length := window_pop y (Nat.lt_of_succ_le h.short)
    rw [Nat.mod_eq_of_lt h.tail_lt] at hpop
    rw [hpop, (List.cons.inj hw).2]

end Queued

end Ring

/-- In a list that ascends in a key, the first element that passes a test is the one with the
smallest key. -/
theorem find?_eq_some_of_le {α β : Type*} [Preorder β] {key : α → β} {p : α → Bool} {l : List α}
    {x : α} (hsorted : l.Pairwise fun y z => key y < key z) (hx : x ∈ l) (hp : p x = true)
    (hmin : ∀ y ∈ l, p y = true → key x ≤ key y) : l.find? p = some x := by
  induction l with
  | nil => cases hx
  | cons y l ih =>
    obtain ⟨hy, hl⟩ := List.pairwise_cons.mp hsorted
    rcases List.mem_cons.mp hx with rfl | hx
    · rw [List.find?_cons_of_pos hp]
    · have hpy : ¬ p y = true := fun hpy =>
        absurd (hmin y List.mem_cons_self hpy) (not_le_of_gt (hy x hx))
      rw [List.find?_cons_of_neg hpy]
      exact ih hl hx fun z hz => hmin z (List.mem_cons_of_mem y hz)

namespace Run

variable {S A O : Type*} {R : Steps S A O} {s u : S} {tr : List (Event S A O)}

/-- What went into a queue is what came out of it and what it still holds, in this order. -/
theorem fifo {α : Type*} {q : S → List α} {ins outs : Event S A O → List α} (h : Run R s tr u)
    (hstep : ∀ e ∈ tr, q e.pre ++ ins e = outs e ++ q e.post) :
    q s ++ tr.flatMap ins = tr.flatMap outs ++ q u := by
  induction h with
  | nil => simp
  | @snoc tr t a o u _ _ ih =>
    have hprev := ih fun e he => hstep e (by simp [he])
    set e : Event S A O := ⟨t, a, o, u⟩
    have hlast : q t ++ ins e = outs e ++ q u := hstep e (by simp)
    calc q s ++ (tr ++ [e]).flatMap ins
        = (q s ++ tr.flatMap ins) ++ ins e := by simp
      _ = tr.flatMap outs ++ (q t ++ ins e) := by rw [hprev, List.append_assoc]
      _ = (tr ++ [e]).flatMap outs ++ q u := by rw [hlast]; simp

end Run

/-- As long as an element stays in a queue, fewer elements come out than the queue held. -/
theorem length_outs_lt {α : Type*} {q q' ins outs : List α} {x : α} (h : q ++ ins = outs ++ q')
    (hx : x ∈ q) (hstay : x ∉ outs) : outs.length < q.length := by
  by_contra hle
  have hq : q <+: outs ++ q' := h ▸ List.prefix_append q ins
  have hpre : q <+: outs := List.prefix_of_prefix_length_le hq (List.prefix_append outs q') (by omega)
  exact hstay (hpre.subset hx)

end Nanvix.Lib
