import Nanvix.Lib.Trace

/-! Networks. Each node is a component with steps of its own; some of them put a message on the way to
a node, others take one that is on the way to their own. Messages that are on the way keep no order,
and a message that was put there once is taken at most once. -/

namespace Nanvix.Lib

open Function

variable {N S A O M : Type*}

/-- The nodes of a network and the messages on the way to each of them. -/
structure Net (N S M : Type*) where
  node : N → S
  wire : N → List M

/-- What the nodes can do, and which message an event takes or puts on the way. -/
structure Protocol (N S A O M : Type*) where
  steps : N → Steps S A O
  takes : N → Event S A O → Option M
  puts : N → Event S A O → Option (N × M)

namespace Net

variable [DecidableEq N] {P : Protocol N S A O M} {s u : Net N S M}
  {tr : List (Event (Net N S M) (N × A) O)}

/-- An event of the network, as one of the node that acts. -/
def own (e : Event (Net N S M) (N × A) O) : Event S A O :=
  ⟨e.pre.node e.act.1, e.act.2, e.out, e.post.node e.act.1⟩

def ownTrace (n : N) (tr : List (Event (Net N S M) (N × A) O)) : List (Event S A O) :=
  (tr.filter fun e => e.act.1 = n).map own

variable (n : N) (l r : List (Event (Net N S M) (N × A) O)) (e : Event (Net N S M) (N × A) O)

variable {e} in
theorem own_mem (h : e ∈ tr) : own e ∈ ownTrace e.act.1 tr :=
  List.mem_map_of_mem (List.mem_filter.mpr ⟨h, by simp⟩)

theorem ownTrace_append : ownTrace n (l ++ r) = ownTrace n l ++ ownTrace n r := by
  simp [ownTrace]

theorem ownTrace_singleton : ownTrace n [e] = if e.act.1 = n then [own e] else [] := by
  by_cases h : e.act.1 = n <;> simp [ownTrace, h]

def addressed (n : N) (p : Option (N × M)) : Option M := p.bind fun p => if p.1 = n then some p.2 else none

def sent (P : Protocol N S A O M) (n : N) (tr : List (Event (Net N S M) (N × A) O)) : List M :=
  tr.filterMap fun e => addressed n (P.puts e.act.1 (own e))

def taken (P : Protocol N S A O M) (n : N) (tr : List (Event (Net N S M) (N × A) O)) : List M :=
  (ownTrace n tr).filterMap (P.takes n)

theorem sent_append :
    sent P n (l ++ [e]) = sent P n l ++ (addressed n (P.puts e.act.1 (own e))).toList := by
  rw [sent, List.filterMap_append, sent]
  cases hput : addressed n (P.puts e.act.1 (own e)) <;> simp [hput]

theorem taken_append :
    taken P n (l ++ [e]) = taken P n l ++ if e.act.1 = n then (P.takes e.act.1 (own e)).toList else [] := by
  rw [taken, ownTrace_append, ownTrace_singleton, List.filterMap_append, taken]
  by_cases hn : e.act.1 = n
  · subst hn
    cases htake : P.takes e.act.1 (own e) <;> simp [htake]
  · simp [hn]

/-- A message that was sent was put on the way by an event. -/
theorem exists_put {n : N} {x : M} (h : x ∈ sent P n tr) :
    ∃ e ∈ tr, P.puts e.act.1 (own e) = some (n, x) := by
  obtain ⟨e, he, hp⟩ := List.mem_filterMap.mp h
  obtain ⟨⟨d, m⟩, hput, hd⟩ := Option.bind_eq_some_iff.mp hp
  dsimp only at hd
  split_ifs at hd with hn
  cases hd
  exact ⟨e, he, hn ▸ hput⟩

def put (wire : N → List M) : Option (N × M) → N → List M
  | none => wire
  | some (d, m) => update wire d (m :: wire d)

theorem put_perm (wire : N → List M) (p : Option (N × M)) (n : N) :
    (put wire p n).Perm (wire n ++ (addressed n p).toList) := by
  cases p with
  | none => simp [put, addressed]
  | some dm =>
    obtain ⟨d, m⟩ := dm
    by_cases hd : n = d
    · subst hd
      simpa [put, addressed] using (List.perm_append_singleton m (wire n)).symm
    · simp [put, addressed, update_of_ne hd, Ne.symm hd]

variable [DecidableEq M]

def take (wire : N → List M) (n : N) : Option M → N → List M
  | none => wire
  | some m => update wire n ((wire n).erase m)

theorem take_perm (wire : N → List M) (a n : N) (p : Option M) (h : ∀ m, p = some m → m ∈ wire a) :
    (take wire a p n ++ if a = n then p.toList else []).Perm (wire n) := by
  cases p with
  | none => simp [take]
  | some m =>
    by_cases ha : n = a
    · subst ha
      simpa [take] using (List.perm_append_singleton m _).trans (List.perm_cons_erase (h m rfl)).symm
    · simp [take, update_of_ne ha, Ne.symm ha]

def steps (P : Protocol N S A O M) : Steps (Net N S M) (N × A) O := fun s a o t =>
  let e : Event S A O := ⟨s.node a.1, a.2, o, t.node a.1⟩
  P.steps a.1 e.pre e.act e.out e.post ∧ (∀ n ≠ a.1, t.node n = s.node n) ∧
    (∀ m, P.takes a.1 e = some m → m ∈ s.wire a.1) ∧
    t.wire = put (take s.wire a.1 (P.takes a.1 e)) (P.puts a.1 e)

/-- A node sees a run of its own. -/
theorem run_own (h : Run (steps P) s tr u) (n : N) : Run (P.steps n) (s.node n) (ownTrace n tr) (u.node n) := by
  induction h with
  | nil => exact .nil
  | @snoc tr t a o u _ hs ih =>
    obtain ⟨hstep, hothers, -⟩ := hs
    rw [ownTrace_append, ownTrace_singleton]
    by_cases hn : a.1 = n
    · subst hn
      rw [if_pos rfl]
      exact ih.snoc hstep
    · rw [if_neg hn, List.append_nil, hothers n (Ne.symm hn)]
      exact ih

/-- What was put on the way has been taken once or is on the way. -/
theorem sent_perm (h : Run (steps P) s tr u) (n : N) :
    (s.wire n ++ sent P n tr).Perm (u.wire n ++ taken P n tr) := by
  induction h with
  | nil => simp [sent, taken, ownTrace]
  | @snoc tr t a o u _ hs ih =>
    obtain ⟨-, -, htake, hwire⟩ := hs
    have hput := put_perm (take t.wire a.1 (P.takes a.1 ⟨t.node a.1, a.2, o, u.node a.1⟩))
      (P.puts a.1 ⟨t.node a.1, a.2, o, u.node a.1⟩) n
    rw [← hwire] at hput
    have htaken := take_perm t.wire a.1 n _ htake
    rw [sent_append, taken_append]
    rw [List.perm_iff_count] at ih hput htaken ⊢
    intro x
    have := ih x
    have := hput x
    have := htaken x
    simp only [own, List.count_append] at *
    omega

/-! ### Executions -/

def step (f : N → S → A → Option (O × S)) (P : Protocol N S A O M) (s : Net N S M) (a : N × A) :
    Option (O × Net N S M) :=
  match f a.1 (s.node a.1) a.2 with
  | none => none
  | some (o, t) =>
    let e : Event S A O := ⟨s.node a.1, a.2, o, t⟩
    if (P.takes a.1 e).all fun m => decide (m ∈ s.wire a.1) then
      some (o, ⟨update s.node a.1 t, put (take s.wire a.1 (P.takes a.1 e)) (P.puts a.1 e)⟩)
    else none

theorem steps_of_step {f : N → S → A → Option (O × S)} {a : N × A} {o : O} {t : Net N S M}
    (hf : ∀ n s a o t, f n s a = some (o, t) → P.steps n s a o t) (h : step f P s a = some (o, t)) :
    steps P s a o t := by
  unfold step at h
  split at h
  · cases h
  · rename_i o' t' hstep
    dsimp only at h
    split_ifs at h with htake
    cases h
    simp only [steps, update_self]
    refine ⟨hf _ _ _ _ _ hstep, fun n hn => update_of_ne hn _ _, fun m hm => ?_, trivial⟩
    rw [hm] at htake
    exact of_decide_eq_true htake

end Net

end Nanvix.Lib
