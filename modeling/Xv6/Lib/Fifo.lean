import Mathlib

/-!
# Bounded FIFO queues

The abstract queue behind a ring buffer: a list of capacity `cap`, a push that appends unless
the list is full and a pop that drops the head unless it is empty, each returning `0`, or `-1`
with the list unchanged. `Fifo.run` runs a sequence of such calls against any step function
and collects the return values. `run_sim` is the simulation rule: a step function that keeps a
relation to the list and returns what `step` returns does so over every sequence of calls.
-/

set_option autoImplicit false

namespace Fifo

variable {α : Type*}

/-- A call: a push of `x`, or a pop. -/
inductive Op (α : Type*) where
  | push (x : α)
  | pop
  deriving DecidableEq, Repr

/-- The bounded FIFO: the list after the call, and what the call returns. -/
def step (cap : Nat) (L : List α) : Op α → List α × Int
  | .push x => if L.length = cap then (L, -1) else (L ++ [x], 0)
  | .pop =>
    match L with
    | [] => ([], -1)
    | _ :: L => (L, 0)

/-- A sequence of calls from `s`: the state after the last, and the return value of each. -/
def run {σ : Type*} (f : σ → Op α → σ × Int) : σ → List (Op α) → σ × List Int
  | s, [] => (s, [])
  | s, op :: ops => ((run f (f s op).1 ops).1, (f s op).2 :: (run f (f s op).1 ops).2)

/-- **Simulation.** A step function that keeps `R` with the list and returns what the FIFO
returns, call by call, does so over every sequence of calls. -/
theorem run_sim {σ : Type*} {f : σ → Op α → σ × Int} {cap : Nat} {R : σ → List α → Prop}
    (hstep : ∀ s L op, R s L → R (f s op).1 (step cap L op).1 ∧ (f s op).2 = (step cap L op).2) :
    ∀ (ops : List (Op α)) (s : σ) (L : List α), R s L →
      R (run f s ops).1 (run (step cap) L ops).1 ∧ (run f s ops).2 = (run (step cap) L ops).2
  | [], _, _, h => ⟨h, rfl⟩
  | op :: ops, s, L, h => by
    obtain ⟨h₁, hr⟩ := hstep s L op h
    obtain ⟨h₂, hrs⟩ := run_sim hstep ops _ _ h₁
    refine ⟨h₂, ?_⟩
    simp only [run]
    rw [hr, hrs]

end Fifo
