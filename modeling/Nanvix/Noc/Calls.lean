import Nanvix.Lib.Trace
import Nanvix.Noc.Boot
import Nanvix.Noc.Frame

/-! The physical layer as a system of its own: any sequence of calls on its
actives, with any arguments and any results of the hardware. A wait that nothing
disturbs is one call here. -/

namespace Nanvix.Noc

open Nanvix.Lib

inductive Call where
  | alloc (loc rem portid : ℤ) (ty : CommType)
  | release (id : ℤ)
  | aread (id : ℤ) (cfg : Config) (env : Env)
  | awrite (id : ℤ) (cfg : Config) (env : Env)
  | wait (id : ℤ) (cfg : Config) (env : Env)

inductive Reply where
  | fd (r : Except Err ℤ)
  | done (r : Except Err Unit)
  | comm (ans : Answer)

variable (F : Facility)

/-- One call; `none` is a failed assertion. -/
def call (s : Phys) : Call → Option (Reply × Phys)
  | .alloc loc rem portid ty =>
    let r := activeAlloc F s loc rem portid ty
    some (.fd r.1, r.2)
  | .release id => (activeRelease F s id).map fun r => (.done r.1, r.2)
  | .aread id cfg env => (activeAread F s id cfg env).map fun r => (.comm r.1, r.2)
  | .awrite id cfg env => (activeAwrite F s id cfg env).map fun r => (.comm r.1, r.2)
  | .wait id cfg env => (activeWait F s id cfg env).map fun r => (.comm r.1, r.2)

def calls : Steps Phys Call Reply := fun s c r t => call F s c = some (r, t)

variable {F} {s t : Phys} {r : Reply} {id : ℤ} {cfg : Config} {env : Env}

theorem portOf_lt (h : activeValidCall F id = true) :
    (portOf F id).1 < F.hwMax ∧ (portOf F id).2 < F.portNr := by
  simp only [activeValidCall, Bool.and_eq_true, decide_eq_true_eq] at h
  simp only [portOf]
  omega

/-! ### What the calls do -/

theorem calls_alloc {loc rem portid : ℤ} {ty : CommType}
    (h : calls F s (.alloc loc rem portid ty) r t) :
    ∃ x, r = .fd x ∧ AllocOutcome F s loc rem portid ty x t := by
  simp only [calls, call, Option.some.injEq, Prod.mk.injEq] at h
  exact ⟨_, h.1.symm, activeAlloc_cases (Prod.ext rfl h.2)⟩

theorem calls_release (h : calls F s (.release id) r t) :
    ∃ x, r = .done x ∧ activeValidCall F id = true ∧
      ReleaseOutcome F s (portOf F id).1 (portOf F id).2 x t := by
  simp only [calls, call, Option.map_eq_some_iff, Prod.mk.injEq] at h
  obtain ⟨⟨x, u⟩, hx, rfl, rfl⟩ := h
  exact ⟨x, rfl, activeRelease_cases hx⟩

theorem calls_aread (h : calls F s (.aread id cfg env) r t) :
    ∃ ans, r = .comm ans ∧ activeValidCall F id = true ∧
      AreadOutcome F s (portOf F id).1 (portOf F id).2 cfg env ans t := by
  simp only [calls, call, Option.map_eq_some_iff, Prod.mk.injEq] at h
  obtain ⟨⟨x, u⟩, hx, rfl, rfl⟩ := h
  exact ⟨x, rfl, activeAread_cases hx⟩

theorem calls_awrite (h : calls F s (.awrite id cfg env) r t) :
    ∃ ans, r = .comm ans ∧ activeValidCall F id = true ∧
      AwriteOutcome F s (portOf F id).1 (portOf F id).2 cfg env ans t := by
  simp only [calls, call, Option.map_eq_some_iff, Prod.mk.injEq] at h
  obtain ⟨⟨x, u⟩, hx, rfl, rfl⟩ := h
  exact ⟨x, rfl, activeAwrite_cases hx⟩

/-- A wait refuses and changes nothing, or completes the operation whose mbuffer
its first section has read. -/
theorem calls_wait (h : calls F s (.wait id cfg env) r t) :
    t = s ∨ ∃ ans k mbufferid, r = .comm ans ∧ waitCheck F s id = some (.ok mbufferid) ∧
      mbufferGet F (s.ports (portOf F id)).mbufferpool mbufferid = some k ∧
      WaitOutcome F (hwWait s (portOf F id).1 env) (portOf F id).1 (portOf F id).2 k env.hwRet cfg
        ans t := by
  simp only [calls, call, Option.map_eq_some_iff, Prod.mk.injEq] at h
  obtain ⟨⟨ans, u⟩, hx, rfl, rfl⟩ := h
  unfold activeWait at hx
  split at hx
  · cases hx
  · cases hx
    exact .inl rfl
  · rename_i mbufferid hcheck
    obtain ⟨k, hget, ho⟩ := waitComplete_cases hx
    rw [hwWait_ports] at hget
    exact .inr ⟨ans, k, mbufferid, rfl, hcheck, hget, ho⟩

end Nanvix.Noc
