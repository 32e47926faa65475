import Nanvix.Lib.Trace

/-! Endless runs of a step relation, and the rule by which a scheduler that
comes back to every agent makes things happen: as long as the goal is not reached
some agent is helpful, stays helpful until it acts, and lowers a rank when it does. -/

namespace Nanvix.Lib

variable {S A O G : Type*}

structure Endless (R : Steps S A O) (s : S) where
  event : ℕ → Event S A O
  start : (event 0).pre = s
  step : ∀ n, R (event n).pre (event n).act (event n).out (event n).post
  link : ∀ n, (event (n + 1)).pre = (event n).post

namespace Endless

variable {R : Steps S A O} {s : S} (b : Endless R s)

theorem run (n : ℕ) : Run R s ((List.range n).map b.event) (b.event n).pre := by
  induction n with
  | zero =>
    rw [b.start]
    exact .nil
  | succ n ih =>
    rw [List.range_succ, List.map_append, b.link]
    exact .snoc ih (b.step n)

/-- The rule of helpful agents. `acts` says whose action an action is. -/
theorem eventually (acts : G → A → Prop) (P : S → Prop) (helpful : G → S → Prop) (ρ : S → ℕ)
    (goal : Event S A O → Prop)
    (hsome : ∀ s, P s → ∃ g, helpful g s)
    (hfair : ∀ g s n, helpful g s → ∃ m, n ≤ m ∧ acts g (b.event m).act)
    (hstep : ∀ e : Event S A O, R e.pre e.act e.out e.post → ∀ g, P e.pre → helpful g e.pre →
      goal e ∨ P e.post ∧ (ρ e.post < ρ e.pre ∨
        ρ e.post = ρ e.pre ∧ helpful g e.post ∧ ¬ acts g e.act))
    {n : ℕ} (hn : P (b.event n).pre) : ∃ m, n ≤ m ∧ goal (b.event m) := by
  -- Outer induction on the rank, inner one on the time left until the helpful agent acts.
  induction hr : ρ (b.event n).pre using Nat.strongRecOn generalizing n with
  | ind r ih =>
    obtain ⟨g, hg⟩ := hsome _ hn
    obtain ⟨m, hnm, hact⟩ := hfair g _ n hg
    obtain ⟨d, rfl⟩ := Nat.exists_eq_add_of_le hnm
    clear hnm
    induction d generalizing n with
    | zero =>
      rcases hstep _ (b.step n) g hn hg with hgoal | ⟨hp, hlt | ⟨_, _, hnot⟩⟩
      · exact ⟨n, Nat.le_refl n, hgoal⟩
      · rw [← b.link] at hp hlt
        obtain ⟨m, hm, hgoal⟩ := ih _ (hr ▸ hlt) hp rfl
        exact ⟨m, by omega, hgoal⟩
      · exact absurd hact hnot
    | succ d ihd =>
      rcases hstep _ (b.step n) g hn hg with hgoal | ⟨hp, hlt | ⟨heq, hstay, _⟩⟩
      · exact ⟨n, Nat.le_refl n, hgoal⟩
      · rw [← b.link] at hp hlt
        obtain ⟨m, hm, hgoal⟩ := ih _ (hr ▸ hlt) hp rfl
        exact ⟨m, by omega, hgoal⟩
      · rw [← b.link] at hp heq hstay
        obtain ⟨m, hm, hgoal⟩ := ihd hp (heq.trans hr) hstay
          (by rwa [show n + 1 + d = n + (d + 1) by omega])
        exact ⟨m, by omega, hgoal⟩

/-! ### Schedules -/

/-- The states that a step function goes through under a schedule. -/
def states (f : S → A → O × S) (s : S) (acts : ℕ → A) : ℕ → S
  | 0 => s
  | n + 1 => (f (states f s acts n) (acts n)).2

/-- The endless run of a step function under a schedule. -/
def ofSchedule (f : S → A → O × S) (s : S) (acts : ℕ → A) :
    Endless (fun s a o t => f s a = (o, t)) s where
  event n := ⟨states f s acts n, acts n, (f (states f s acts n) (acts n)).1, states f s acts (n + 1)⟩
  start := rfl
  step _ := rfl
  link _ := rfl

end Endless

end Nanvix.Lib
