import Nanvix.Lib.Rpc

/-! Linearizability. The clients of an object make requests and get answers, each client one after the
other, and the requests of different clients overlap. The object is linearizable if its answers are
those of requests that are served one at a time, each between the request and its answer. -/

namespace Nanvix.Lib

variable {S A O C Q B K : Type*}

namespace Linear

/-- What the clients of an object see. -/
inductive Mark (C Q B : Type*) where
  | invoke (c : C) (q : Q)
  | respond (c : C) (q : Q) (b : B)
  deriving DecidableEq

/-- Requests of clients that an object with the steps `R` serves one after the other. -/
inductive Legal (R : K → Q → B → K → Prop) (k : K) : List (C × Q × B) → K → Prop
  | nil : Legal R k [] k
  | snoc {ops k₁ c q b k₂} : Legal R k ops k₁ → R k₁ q b k₂ → Legal R k (ops ++ [(c, q, b)]) k₂

variable [DecidableEq C]

def invocations (c : C) (h : List (Mark C Q B)) : List Q :=
  h.filterMap fun | .invoke d q => if d = c then some q else none | .respond _ _ _ => none

/-- The requests of a client that were answered, with their answers. -/
def responses (c : C) (h : List (Mark C Q B)) : List (Q × B) :=
  h.filterMap fun | .invoke _ _ => none | .respond d q b => if d = c then some (q, b) else none

def served (c : C) (ops : List (C × Q × B)) : List (Q × B) :=
  ops.filterMap fun x => if x.1 = c then some x.2 else none

/-- What the clients see is what they see of requests that are served one at a time. At every moment
the requests answered so far have been served, and those served have been made; so one that is made
after another was answered is served after it. -/
def Linearizable (R : K → Q → B → K → Prop) (k k' : K) (h : List (Mark C Q B)) : Prop :=
  ∃ ops, Legal R k ops k' ∧ (∀ c, (served c ops).map Prod.fst <+: invocations c h) ∧
    ∀ h₁ h₂, h = h₁ ++ h₂ → ∃ ops₁ ops₂, ops = ops₁ ++ ops₂ ∧
      ∀ c, responses c h₁ <+: served c ops₁ ∧ (served c ops₁).map Prod.fst <+: invocations c h₁

/-! ### Runs -/

def visible : C × Rpc.Mark Q B → Option (Mark C Q B)
  | (c, .ask q) => some (.invoke c q)
  | (_, .answer _ _) => none
  | (c, .take q b) => some (.respond c q b)

def serves : C × Rpc.Mark Q B → Option (C × Q × B)
  | (_, .ask _) => none
  | (c, .answer q b) => some (c, q, b)
  | (_, .take _ _) => none

def own (c : C) (m : C × Rpc.Mark Q B) : Option (Rpc.Mark Q B) := if m.1 = c then some m.2 else none

variable (c : C) (ms : List (C × Rpc.Mark Q B))

theorem filterMap_own {X Y : Type*} {f : Rpc.Mark Q B → Option X} {g : C × Rpc.Mark Q B → Option Y}
    {k : Y → Option X} (h : ∀ d m, (own c (d, m)).bind f = (g (d, m)).bind k) :
    (ms.filterMap (own c)).filterMap f = (ms.filterMap g).filterMap k := by
  rw [List.filterMap_filterMap, List.filterMap_filterMap]
  congr 1
  funext x
  exact h x.1 x.2

theorem asks_own : Rpc.asks (ms.filterMap (own c)) = invocations c (ms.filterMap visible) :=
  filterMap_own c ms fun d m => by cases m <;> by_cases hd : d = c <;> simp [own, visible, hd]

theorem takes_own : Rpc.takes (ms.filterMap (own c)) = responses c (ms.filterMap visible) :=
  filterMap_own c ms fun d m => by cases m <;> by_cases hd : d = c <;> simp [own, visible, hd]

theorem answers_own : Rpc.answers (ms.filterMap (own c)) = served c (ms.filterMap serves) :=
  filterMap_own c ms fun d m => by cases m <;> by_cases hd : d = c <;> simp [own, serves, hd]

/-- Clients whose books are in order see an object that serves them one at a time. -/
theorem of_books {R : K → Q → B → K → Prop} {k k' : K}
    (hlegal : Legal R k (ms.filterMap serves) k')
    (hbooks : ∀ l r, ms = l ++ r → ∀ c, ∃ x, Rpc.Books (l.filterMap (own c)) x) :
    Linearizable R k k' (ms.filterMap visible) := by
  have horder : ∀ l r, ms = l ++ r → ∀ c, responses c (l.filterMap visible) <+: served c (l.filterMap serves) ∧
      (served c (l.filterMap serves)).map Prod.fst <+: invocations c (l.filterMap visible) := by
    intro l r hl c
    obtain ⟨x, hx⟩ := hbooks l r hl c
    have honce := hx.exactly_once
    rw [takes_own, answers_own, asks_own] at honce
    exact ⟨honce.1, honce.2.1⟩
  refine ⟨ms.filterMap serves, hlegal, fun c => (horder ms [] (by simp) c).2, fun h₁ h₂ heq => ?_⟩
  obtain ⟨l, r, hl, rfl, rfl⟩ := List.filterMap_eq_append_iff.mp heq
  refine ⟨l.filterMap serves, r.filterMap serves, ?_, horder l r hl⟩
  rw [hl, List.filterMap_append]

end Linear

/-- The events of a run serve the requests one after the other, if the state of the object changes
with them only. -/
theorem Run.legal {R : Steps S A O} {s u : S} {tr : List (Event S A O)} {P : K → Q → B → K → Prop}
    (view : S → K) (mark : Event S A O → Option (C × Rpc.Mark Q B)) (h : Run R s tr u)
    (hserve : ∀ e : Event S A O, R e.pre e.act e.out e.post → ∀ c q b, mark e = some (c, .answer q b) →
      P (view e.pre) q b (view e.post))
    (hother : ∀ e : Event S A O, R e.pre e.act e.out e.post →
      (∀ c q b, mark e ≠ some (c, .answer q b)) → view e.post = view e.pre) :
    Linear.Legal P (view s) ((tr.filterMap mark).filterMap Linear.serves) (view u) := by
  induction h with
  | nil => exact .nil
  | @snoc tr t a o u _ hs ih =>
    rw [List.filterMap_append, List.filterMap_append]
    cases hm : mark ⟨t, a, o, u⟩ with
    | none =>
      have hview : view u = view t := hother ⟨t, a, o, u⟩ hs (by simp [hm])
      rw [hview]
      simpa [hm] using ih
    | some m =>
      obtain ⟨c, m⟩ := m
      cases m with
      | answer q b => simpa [hm, Linear.serves] using ih.snoc (hserve ⟨t, a, o, u⟩ hs c q b hm)
      | ask q | take q b =>
        have hview : view u = view t := hother ⟨t, a, o, u⟩ hs (by simp [hm])
        rw [hview]
        simpa [hm, Linear.serves, List.filterMap_cons] using ih

end Nanvix.Lib
