import Nanvix.Lib.Trace

/-! Remote calls of one client. The client asks, the server answers, the client
takes the answer, and only then may it ask again. A system that moves through
these stages loses no request, answers none twice and mixes up no answers. -/

namespace Nanvix.Lib

variable {S A O Q B : Type*}

/-- The stages of a remote call with requests in `Q` and answers in `B`. -/
inductive Rpc (Q B : Type*) where
  | idle
  | asked (q : Q)
  | answered (q : Q) (b : B)

namespace Rpc

/-- What happens to a call. -/
inductive Mark (Q B : Type*) where
  | ask (q : Q)
  | answer (q : Q) (b : B)
  | take (q : Q) (b : B)

inductive Step : Rpc Q B → Mark Q B → Rpc Q B → Prop
  | ask (q) : Step .idle (.ask q) (.asked q)
  | answer (q b) : Step (.asked q) (.answer q b) (.answered q b)
  | take (q b) : Step (.answered q b) (.take q b) .idle

/-- An event that may or may not concern the client. -/
def Moves (x : Rpc Q B) : Option (Mark Q B) → Rpc Q B → Prop
  | none, y => y = x
  | some m, y => Step x m y

def asks (ms : List (Mark Q B)) : List Q :=
  ms.filterMap fun | .ask q => some q | _ => none

/-- The requests that were answered, with their answers. -/
def answers (ms : List (Mark Q B)) : List (Q × B) :=
  ms.filterMap fun | .answer q b => some (q, b) | _ => none

/-- The requests whose answers were taken, with what was taken. -/
def takes (ms : List (Mark Q B)) : List (Q × B) :=
  ms.filterMap fun | .take q b => some (q, b) | _ => none

/-- How the books stand in each stage. -/
def Books (ms : List (Mark Q B)) : Rpc Q B → Prop
  | .idle => answers ms = takes ms ∧ asks ms = (takes ms).map Prod.fst
  | .asked q => answers ms = takes ms ∧ asks ms = (takes ms).map Prod.fst ++ [q]
  | .answered q b => answers ms = takes ms ++ [(q, b)] ∧ asks ms = (takes ms).map Prod.fst ++ [q]

theorem Step.books {ms : List (Mark Q B)} {m : Mark Q B} {x y : Rpc Q B} (h : Step x m y)
    (hx : Books ms x) : Books (ms ++ [m]) y := by
  cases h with
  | ask q => simpa [Books, asks, answers, takes] using hx
  | answer q b => simpa [Books, asks, answers, takes] using hx
  | take q b => simpa [Books, asks, answers, takes] using hx

/-- Answers are taken in order and as they were given, requests are answered in order
and none twice, and at most the last request is still open. -/
theorem Books.exactly_once {ms : List (Mark Q B)} {x : Rpc Q B} (h : Books ms x) :
    takes ms <+: answers ms ∧ (answers ms).map Prod.fst <+: asks ms ∧
      (asks ms).length ≤ (takes ms).length + 1 := by
  cases x with
  | idle =>
    obtain ⟨h₁, h₂⟩ := h
    rw [h₁, h₂]
    exact ⟨List.prefix_rfl, List.prefix_rfl, by simp⟩
  | asked q =>
    obtain ⟨h₁, h₂⟩ := h
    rw [h₁, h₂]
    exact ⟨List.prefix_rfl, List.prefix_append _ _, by simp⟩
  | answered q b =>
    obtain ⟨h₁, h₂⟩ := h
    rw [h₁, h₂]
    exact ⟨List.prefix_append _ _, by simp, by simp⟩

end Rpc

/-- A run whose states are in relation `I` with the stages of a client keeps the
client's books. -/
theorem Run.books {R : Steps S A O} {s u : S} {tr : List (Event S A O)}
    (I : S → Rpc Q B → Prop) (mark : Event S A O → Option (Rpc.Mark Q B))
    (h : Run R s tr u) (hs : I s .idle)
    (hstep : ∀ e : Event S A O, R e.pre e.act e.out e.post → ∀ x, I e.pre x →
      ∃ y, I e.post y ∧ Rpc.Moves x (mark e) y) :
    ∃ x, I u x ∧ Rpc.Books (tr.filterMap mark) x := by
  induction h with
  | nil => exact ⟨.idle, hs, rfl, rfl⟩
  | @snoc tr t a o u _ hlast ih =>
    obtain ⟨x, hx, hbooks⟩ := ih
    obtain ⟨y, hy, hmove⟩ := hstep ⟨t, a, o, u⟩ hlast x hx
    refine ⟨y, hy, ?_⟩
    rw [List.filterMap_append]
    cases hm : mark ⟨t, a, o, u⟩ with
    | none =>
      rw [hm] at hmove
      obtain rfl : y = x := hmove
      simpa [hm] using hbooks
    | some m =>
      rw [hm] at hmove
      simpa [hm] using Rpc.Step.books hmove hbooks

end Nanvix.Lib
