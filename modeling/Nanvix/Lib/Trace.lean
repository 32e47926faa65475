import Mathlib.Logic.Function.Basic
import Mathlib.Data.List.Induction
import Mathlib.Tactic.Common

/-! Traces of a labelled step relation. An event keeps the action, what the
action answered, and the states before and after it, so that a property of a
whole run can be stated about the events of its trace. -/

namespace Nanvix.Lib

variable {S A O : Type*}

/-- One executed action with the states around it. -/
structure Event (S A O : Type*) where
  pre : S
  act : A
  out : O
  post : S

/-- A step relation: state before, action, answer, state after. -/
abbrev Steps (S A O : Type*) := S → A → O → S → Prop

/-- The trace of a run from `s`, oldest event first. -/
inductive Run (R : Steps S A O) (s : S) : List (Event S A O) → S → Prop
  | nil : Run R s [] s
  | snoc {tr t a o u} : Run R s tr t → R t a o u → Run R s (tr ++ [⟨t, a, o, u⟩]) u

namespace Run

variable {R : Steps S A O} {s t u : S} {tr l r : List (Event S A O)} {e : Event S A O}

theorem cons {a : A} {o : O} (h₁ : R s a o t) (h₂ : Run R t tr u) : Run R s (⟨s, a, o, t⟩ :: tr) u := by
  induction h₂ with
  | nil => exact .snoc .nil h₁
  | snoc _ hs ih => exact .snoc ih hs

theorem append (h₁ : Run R s l t) (h₂ : Run R t r u) : Run R s (l ++ r) u := by
  induction h₂ with
  | nil => simpa using h₁
  | snoc _ hs ih => rw [← List.append_assoc]; exact .snoc ih hs

theorem eq_of_nil (h : Run R s [] u) : u = s := by
  generalize hnil : ([] : List (Event S A O)) = tr at h
  cases h with
  | nil => rfl
  | snoc => simp at hnil

theorem split (h : Run R s (l ++ r) u) : ∃ t, Run R s l t ∧ Run R t r u := by
  induction r using List.reverseRecOn generalizing u with
  | nil => exact ⟨u, by simpa using h, .nil⟩
  | append_singleton r e ih =>
    rw [← List.append_assoc] at h
    generalize htr : l ++ r ++ [e] = tr at h
    cases h with
    | nil => simp at htr
    | snoc hr hs =>
      obtain ⟨rfl, he⟩ := List.append_inj' htr rfl
      obtain ⟨t, h₁, h₂⟩ := ih hr
      cases he
      exact ⟨t, h₁, .snoc h₂ hs⟩

/-- The events of a trace are steps, and the state before an event is the one
its prefix leads to. -/
theorem at_event (h : Run R s (l ++ e :: r) u) :
    Run R s l e.pre ∧ R e.pre e.act e.out e.post ∧ Run R e.post r u := by
  rw [← List.singleton_append, ← List.append_assoc] at h
  obtain ⟨t, h₁, h₂⟩ := split h
  generalize htr : l ++ [e] = tr at h₁
  cases h₁ with
  | nil => simp at htr
  | snoc hr hs =>
    obtain ⟨rfl, he⟩ := List.append_inj' htr rfl
    cases he
    exact ⟨hr, hs, h₂⟩

theorem step_of_mem (h : Run R s tr u) (he : e ∈ tr) : R e.pre e.act e.out e.post := by
  obtain ⟨l, r, rfl⟩ := List.append_of_mem he
  exact (at_event h).2.1

/-- A run ends where it starts or after one of its events. -/
theorem eq_or_exists_post (h : Run R s tr u) : u = s ∨ ∃ e ∈ tr, e.post = u := by
  cases h with
  | nil => exact .inl rfl
  | snoc _ _ => exact .inr ⟨_, List.mem_append_right _ (List.mem_singleton_self _), rfl⟩

/-- The invariant rule. `P` is what the events are assumed to meet. -/
theorem invariant (h : Run R s tr u) {P : Event S A O → Prop} {I : S → Prop} (h₀ : I s)
    (hP : ∀ e ∈ tr, P e)
    (hstep : ∀ e : Event S A O, R e.pre e.act e.out e.post → P e → I e.pre → I e.post) : I u := by
  induction h with
  | nil => exact h₀
  | snoc _ hs ih =>
    exact hstep ⟨_, _, _, _⟩ hs (hP _ (by simp)) (ih fun e he => hP e (by simp [he]))

/-- An invariant holds before and after every event of a trace. -/
theorem invariant_of_mem (h : Run R s tr u) {P : Event S A O → Prop} {I : S → Prop} (h₀ : I s)
    (hP : ∀ e ∈ tr, P e)
    (hstep : ∀ e : Event S A O, R e.pre e.act e.out e.post → P e → I e.pre → I e.post)
    (he : e ∈ tr) : I e.pre ∧ I e.post := by
  obtain ⟨l, r, rfl⟩ := List.append_of_mem he
  obtain ⟨hl, hs, _⟩ := at_event h
  have hpre : I e.pre := hl.invariant h₀ (fun e he => hP e (by simp [he])) hstep
  exact ⟨hpre, hstep e hs (hP e he) hpre⟩

/-- The simulation rule: if every step has a counterpart with the same action and answer between
related states, every run has one. -/
theorem simulates {S' : Type*} {R' : Steps S' A O} {Rel : S → S' → Prop} {s' : S'} (h : Run R s tr u)
    (h₀ : Rel s s')
    (hstep : ∀ {s a o t s'}, R s a o t → Rel s s' → ∃ t', R' s' a o t' ∧ Rel t t') :
    ∃ tr' u', Run R' s' tr' u' ∧ Rel u u' ∧
      tr'.map (fun e => (e.act, e.out)) = tr.map fun e => (e.act, e.out) := by
  induction h with
  | nil => exact ⟨[], s', .nil, h₀, rfl⟩
  | @snoc tr t a o u _ hs ih =>
    obtain ⟨tr', t', hrun, hrel, hlabels⟩ := ih
    obtain ⟨u', hs', hrel'⟩ := hstep hs hrel
    exact ⟨tr' ++ [⟨t', a, o, u'⟩], u', hrun.snoc hs', hrel', by simp [hlabels]⟩

/-- The invariant rule with the past: `J` may speak about the events so far, and `P` is what an
event is assumed to meet after them. -/
theorem past {P : List (Event S A O) → Event S A O → Prop} {J : List (Event S A O) → S → Prop}
    (h : Run R s tr u) (h₀ : J [] s) (hP : ∀ l e r, tr = l ++ e :: r → P l e)
    (hstep : ∀ l e, R e.pre e.act e.out e.post → P l e → J l e.pre → J (l ++ [e]) e.post) : J tr u := by
  induction h with
  | nil => exact h₀
  | @snoc tr t a o u hr hs ih =>
    refine hstep tr ⟨t, a, o, u⟩ hs (hP tr ⟨t, a, o, u⟩ [] rfl) (ih fun l e r hl => ?_)
    exact hP l e (r ++ [⟨t, a, o, u⟩]) (by rw [hl]; simp)

/-- The invariant rule with a history: `γ` folds the events into a summary of the
past, and `P` is what an event is assumed to meet after that past. -/
theorem history {G : Type*} (γ : G → Event S A O → G) {P : G → Event S A O → Prop}
    {J : G → S → Prop} {g : G} (h : Run R s tr u) (h₀ : J g s)
    (hP : ∀ l e r, tr = l ++ e :: r → P (l.foldl γ g) e)
    (hstep : ∀ g e, R e.pre e.act e.out e.post → P g e → J g e.pre → J (γ g e) e.post) :
    J (tr.foldl γ g) u := by
  refine past (P := fun l e => P (l.foldl γ g) e) (J := fun l s => J (l.foldl γ g) s) h h₀ hP ?_
  intro l e hs hp hj
  rw [List.foldl_append, List.foldl_cons, List.foldl_nil]
  exact hstep _ e hs hp hj

/-- The same at an event inside the trace. -/
theorem history_at {G : Type*} (γ : G → Event S A O → G) {P : G → Event S A O → Prop}
    {J : G → S → Prop} {g : G} (h : Run R s (l ++ e :: r) u) (h₀ : J g s)
    (hP : ∀ l' e' r', l ++ e :: r = l' ++ e' :: r' → P (l'.foldl γ g) e')
    (hstep : ∀ g e, R e.pre e.act e.out e.post → P g e → J g e.pre → J (γ g e) e.post) :
    J (l.foldl γ g) e.pre :=
  history γ (at_event h).1 h₀ (fun l' e' r' hl => hP l' e' (r' ++ e :: r) (by rw [hl]; simp)) hstep

/-- A property that holds at the end but not at the start was brought about by an event
and has held ever since. -/
theorem since {Q : S → Prop} {B : Event S A O → Prop} (h : Run R s tr u) (hs : ¬ Q s) (hu : Q u)
    (hstep : ∀ e ∈ tr, Q e.post → B e ∨ Q e.pre) :
    ∃ l e r, tr = l ++ e :: r ∧ B e ∧ Q e.post ∧ ∀ x ∈ r, Q x.pre ∧ Q x.post := by
  induction h with
  | nil => exact absurd hu hs
  | @snoc tr t a o u hr hlast ih =>
    rcases hstep ⟨t, a, o, u⟩ (by simp) hu with hb | ht
    · exact ⟨tr, _, [], rfl, hb, hu, by simp⟩
    · obtain ⟨l, e, r, rfl, hb, he, hkeep⟩ := ih ht fun x hx => hstep x (by simp [hx])
      refine ⟨l, e, r ++ [⟨t, a, o, u⟩], by simp, hb, he, fun x hx => ?_⟩
      rcases List.mem_append.mp hx with hx | hx
      · exact hkeep x hx
      · rw [List.mem_singleton.mp hx]
        exact ⟨ht, hu⟩

/-- Two runs whose actions look alike, from states that look alike, end in states that
look alike if single steps do. -/
theorem lockstep {X Y : Type*} (φ : S → X) (ψ : A → Y) {s' u' : S} {tr' : List (Event S A O)}
    (hstep : ∀ e e' : Event S A O, R e.pre e.act e.out e.post → R e'.pre e'.act e'.out e'.post →
      φ e.pre = φ e'.pre → ψ e.act = ψ e'.act → φ e.post = φ e'.post)
    (h : Run R s tr u) (h' : Run R s' tr' u') (hs : φ s = φ s')
    (hacts : tr.map (fun e => ψ e.act) = tr'.map (fun e => ψ e.act)) : φ u = φ u' := by
  induction h generalizing tr' u' with
  | nil =>
    obtain rfl := List.map_eq_nil_iff.mp hacts.symm
    rw [eq_of_nil h']
    exact hs
  | @snoc tr t a o u hr hlast ih =>
    cases h' with
    | nil => simp at hacts
    | @snoc tr' t' a' o' u' hr' hlast' =>
      rw [List.map_append, List.map_append] at hacts
      obtain ⟨hacts, hact⟩ := List.append_inj' hacts rfl
      exact hstep ⟨t, a, o, u⟩ ⟨t', a', o', u'⟩ hlast hlast' (ih hr' hacts) (List.cons.inj hact).1

theorem mono {R' : Steps S A O} (hR : ∀ s a o t, R s a o t → R' s a o t) (h : Run R s tr u) :
    Run R' s tr u := by
  induction h with
  | nil => exact .nil
  | snoc _ hs ih => exact .snoc ih (hR _ _ _ _ hs)

end Run

/-! ### Executions -/

/-- A check of the event at a position of a trace. -/
theorem exists_event_at {tr : List (Event S A O)} (n : ℕ) {p : Event S A O → Bool}
    (h : (tr[n]?).any p = true) : ∃ e, tr = tr.take n ++ e :: tr.drop (n + 1) ∧ p e = true := by
  obtain ⟨e, he, hp⟩ := (Option.any_eq_true _ _).mp h
  obtain ⟨hn, rfl⟩ := List.getElem?_eq_some_iff.mp he
  exact ⟨tr[n], by rw [← List.drop_eq_getElem_cons hn, List.take_append_drop], hp⟩

/-- The events of a list of actions under a total step function. -/
def trail (f : S → A → O × S) (s : S) : List A → List (Event S A O)
  | [] => []
  | a :: as => ⟨s, a, (f s a).1, (f s a).2⟩ :: trail f (f s a).2 as

theorem trail_run (f : S → A → O × S) (s : S) (as : List A) :
    Run (fun s a o t => f s a = (o, t)) s (trail f s as) (as.foldl (fun s a => (f s a).2) s) := by
  induction as generalizing s with
  | nil => exact .nil
  | cons a as ih => exact (ih (f s a).2).cons rfl

/-- Run a list of actions through a step function, keeping the trace. -/
def exec (f : S → A → Option (O × S)) (s : S) : List A → Option (List (Event S A O) × S)
  | [] => some ([], s)
  | a :: as =>
    match f s a with
    | none => none
    | some (o, t) => (exec f t as).map fun r => (⟨s, a, o, t⟩ :: r.1, r.2)

/-- An execution is a run of the step function, with the given actions. -/
theorem exec_run {f : S → A → Option (O × S)} {s u : S} {as : List A} {tr : List (Event S A O)}
    (h : exec f s as = some (tr, u)) :
    Run (fun s a o t => f s a = some (o, t)) s tr u ∧ tr.map (·.act) = as := by
  induction as generalizing s tr with
  | nil =>
    cases h
    exact ⟨.nil, rfl⟩
  | cons a as ih =>
    unfold exec at h
    split at h
    · cases h
    · rename_i o t hstep
      obtain ⟨⟨tr', u'⟩, hr, he⟩ := Option.map_eq_some_iff.mp h
      cases he
      obtain ⟨hrun, hacts⟩ := ih hr
      exact ⟨hrun.cons hstep, by simp [hacts]⟩

/-- A check of the trace of an execution and of the state it ends in. -/
theorem exists_run_of_exec {f : S → A → Option (O × S)} {s : S} (as : List A)
    (P : List (Event S A O) × S → Prop) [DecidablePred P]
    (h : (exec f s as).any (fun r => decide (P r)) = true) :
    ∃ tr u, Run (fun s a o t => f s a = some (o, t)) s tr u ∧ tr.map (·.act) = as ∧ P (tr, u) := by
  obtain ⟨⟨tr, u⟩, hr, hp⟩ := (Option.any_eq_true _ _).mp h
  obtain ⟨hrun, hacts⟩ := exec_run hr
  exact ⟨tr, u, hrun, hacts, of_decide_eq_true hp⟩

end Nanvix.Lib
