import Nanvix.Lib.Trace

/-! Entries of a store along a run. A store is seen as a table of slots that may
hold an entry; an entry that goes only when something takes it is held in every
state up to the event that takes it. -/

namespace Nanvix.Lib

variable {S A O α : Type*} {R : Steps S A O} {s u : S} {tr : List (Event S A O)}

/-- The entry `m` of slot `k` outlives a trace, or is held up to the event that takes it. -/
def Lives (view : S → ℕ → Option α) (takes : Event S A O → Prop) (k : ℕ) (m : α)
    (tr : List (Event S A O)) : Prop :=
  (∀ e ∈ tr, view e.post k = some m) ∨
    ∃ l e r, tr = l ++ e :: r ∧ (∀ x ∈ l, view x.post k = some m) ∧ view e.pre k = some m ∧
      view e.post k = none ∧ takes e

/-- An entry that every event keeps or takes lives along a run. -/
theorem Run.lives {view : S → ℕ → Option α} {takes : Event S A O → Prop} {k : ℕ} {m : α}
    (h : Run R s tr u) (hs : view s k = some m)
    (hstep : ∀ e ∈ tr, view e.pre k = some m →
      view e.post k = some m ∨ view e.post k = none ∧ takes e) : Lives view takes k m tr := by
  suffices hboth : ((∀ e ∈ tr, view e.post k = some m) ∧ view u k = some m) ∨
      ∃ l e r, tr = l ++ e :: r ∧ (∀ x ∈ l, view x.post k = some m) ∧ view e.pre k = some m ∧
        view e.post k = none ∧ takes e from hboth.imp_left And.left
  induction h with
  | nil => exact .inl ⟨by simp, hs⟩
  | @snoc tr t a o u hr hlast ih =>
    rcases ih fun e he => hstep e (List.mem_append_left _ he) with ⟨hall, ht⟩ | ⟨l, e, r, htr, hl⟩
    · rcases hstep ⟨t, a, o, u⟩ (by simp) ht with hu | hu
      · refine .inl ⟨fun e he => ?_, hu⟩
        rcases List.mem_append.mp he with he | he
        · exact hall e he
        · rw [List.mem_singleton.mp he]
          exact hu
      · exact .inr ⟨tr, _, [], rfl, hall, ht, hu⟩
    · exact .inr ⟨l, e, r ++ [⟨t, a, o, u⟩], by rw [htr]; simp, hl⟩

/-- The invariant rule with the number of events of a kind that have happened. -/
theorem Run.counts {P : ℕ → S → Prop} {ticks : Event S A O → Bool} (h : Run R s tr u) (hs : P 0 s)
    (hstep : ∀ n, ∀ e ∈ tr, P n e.pre → P (n + (ticks e).toNat) e.post) : P (tr.countP ticks) u := by
  induction h with
  | nil => exact hs
  | @snoc tr t a o u hr hlast ih =>
    have ht := ih fun n e he => hstep n e (List.mem_append_left _ he)
    have hu := hstep _ ⟨t, a, o, u⟩ (by simp) ht
    rw [List.countP_append, List.countP_singleton]
    cases hb : ticks ⟨t, a, o, u⟩ <;> simpa [hb] using hu

end Nanvix.Lib
