import Nanvix.Lib.Fifo
import Nanvix.Pm.Assertions

/-! The order of the run queue. A thread enters the queue when it is created or gives up its core, and it
leaves the queue when a core picks it; in between nobody overtakes it. -/

namespace Nanvix.Pm

open Nanvix.Lib

variable {P : Platform} {s s' u : State} {a : Act} {o : Out} {c i curr next : ℕ} {q : List ℕ}

variable (P) in
/-- The threads that the links from the head of the run queue visit. -/
def readyQueue (s : State) : List ℕ := (walk s.links P.kthreadMax s.queue.head).getD []

theorem Ready.readyQueue_eq (h : Ready P s q) : readyQueue P s = q := by
  have hlen : q.length ≤ P.kthreadMax := length_le_of_nodup h.nodup fun i hi => (h.user i hi).2
  rw [readyQueue, h.linked.walk hlen, Option.getD_some]

theorem readyQueue_step (ht : Table P s) (hstep : steps P s a o s') :
    readyQueue P s ++ scheduled P ⟨s, a, o, s'⟩ = dispatched P ⟨s, a, o, s'⟩ ++ readyQueue P s' := by
  obtain ⟨q, hq⟩ := ht.ready
  obtain ⟨r, hr, heq⟩ := shifts_step hq hstep
  rw [hq.readyQueue_eq, hr.readyQueue_eq, heq]

/-- From any reachable state on, the threads that wait in the queue and those that enter it afterwards
are given a core in this order. While a thread waits, fewer than `THREAD_MAX` other ones are given a
core. -/
theorem run_queue_is_fifo {l r : List (Event State Act Out)} (hl : Runs P l u)
    (hr : Run (steps P) u r s) :
    readyQueue P u ++ r.flatMap (scheduled P) = r.flatMap (dispatched P) ++ readyQueue P s ∧
      ∀ i ∈ readyQueue P u, i ∉ r.flatMap (dispatched P) →
        (r.flatMap (dispatched P)).length < P.threadMax := by
  have hfifo : readyQueue P u ++ r.flatMap (scheduled P) =
      r.flatMap (dispatched P) ++ readyQueue P s := by
    refine hr.fifo fun e he => ?_
    obtain ⟨l', r', rfl⟩ := List.append_of_mem he
    obtain ⟨hpre, hstep, -⟩ := hr.at_event
    exact readyQueue_step (table_of_runs (hl.append hpre)) hstep
  refine ⟨hfifo, fun i hi hstay => ?_⟩
  obtain ⟨q, hq⟩ := (table_of_runs hl).ready
  have hlt := length_outs_lt hfifo hi hstay
  rw [hq.readyQueue_eq] at hlt
  exact hlt.trans_le hq.length_le

/-- The master creates two threads and core 1 takes the first. While the second waits, the master creates
a third one; the first yields, and then the second does. -/
theorem run_queue_is_fifo_round : ∃ l r u s, Runs smallPlatform l u ∧ Run (steps smallPlatform) u r s ∧
    readyQueue smallPlatform u = [4] ∧ r.flatMap (scheduled smallPlatform) = [5, 3, 4] ∧
    r.flatMap (dispatched smallPlatform) = [4, 5] ∧ readyQueue smallPlatform s = [3, 4] := by
  obtain ⟨tr, s, hruns, -, hin, hout, hq⟩ := exists_runs (P := smallPlatform)
    [.create 0 1 0 (some 0) (some 1), .create 0 1 0 (some 2) (some 3),
      .run 1, .run 1, .run 1, .run 1, .run 1,
      .create 0 1 0 (some 4) (some 5), .yield 1, .run 1, .run 1, .yield 1]
    (fun r => (r.1.drop 7).flatMap (scheduled smallPlatform) = [5, 3, 4] ∧
      (r.1.drop 7).flatMap (dispatched smallPlatform) = [4, 5] ∧ readyQueue smallPlatform r.2 = [3, 4])
    (by decide +kernel)
  unfold Runs at hruns
  rw [← List.take_append_drop 7 tr] at hruns
  obtain ⟨u, hl, hr⟩ := hruns.split
  have hfifo := (run_queue_is_fifo hl hr).1
  rw [hin, hout, hq] at hfifo
  have hu : readyQueue smallPlatform u = [4] := List.append_cancel_right (hfifo.trans (by rfl))
  exact ⟨_, _, u, s, hl, hr, hu, hin, hout, hq⟩

end Nanvix.Pm
