import Xv6.Sched.Cap

/-!
# `set_cpu_share`: the window before `yield()`

An MLFQ process's `set_cpu_share` sets its level and `cticks` and pushes its stride item while
it holds `ptable.lock`; then it releases the lock, and only then calls `yield()`. Interrupts are
on in that window. A timer tick runs `trap`, which yields if `stride_has_to_yield` says so and
otherwise asks `get_runnable_lwp` for another runnable LWP of the process and switches to it with
`swtchlwp`, a switch inside the process that leaves the scheduler's state alone. That LWP may
call `exit()`: the process becomes a `ZOMBIE` with its item in the heap, and the round ends
with the item there.

`Xv6.setCpuShare` runs the locked section and the `yield()` as one step, which is what
`setCpuShare_of_mlfq` says of it. Here the locked section is a function of its own
(`setCpuShareLocked`), and `set_cpu_share_window_exit` runs the window on it.
-/

set_option autoImplicit false

namespace Xv6

variable {n : Nat}

/-- The part of `set_cpu_share(share)` that an MLFQ process `p` runs holding `ptable.lock`:
`stride_can_change_share`, its level and `cticks`, and `stride_push`, whose failure panics;
`release(&ptable.lock)` ends it, before the `yield()`. -/
def setCpuShareLocked (s : Sys n) (p : ProcId) (share : Int) : Option (Int × Sys n) :=
  if !strideCanChangeShare s.stride 0 share then some (-1, s)
  else
    let s := s.modifyProc p fun pr => { pr with lev := strideProcLevel, cticks := 0 }
    let (r, sq) := stridePush s.stride (strideItemInit s.stride share (some p) false)
    if r ≠ 0 then none else some (0, { s with stride := sq })

/-- **The atomic `set_cpu_share` of an MLFQ process is its locked section and then `yield()`**:
the model's one step is the two, with no event between them. -/
theorem setCpuShare_of_mlfq {s : Sys n} {p : ProcId} (h : isMlfq (s.procs p) = true) (share : Int) :
    setCpuShare s p share =
      (setCpuShareLocked s p share).map fun r => (r.1, if r.1 = 0 then yieldProc r.2 p else r.2) := by
  unfold setCpuShare setCpuShareLocked
  rw [if_pos h]
  split_ifs with hc
  · rfl
  · -- both push the same item; only the `yield()` after a successful push differs
    dsimp only
    split
    · rfl
    · rfl

/-- **A process that exits in the window leaves its item in the heap.** One CPU: `initproc` forks
a child and sleeps, and the MLFQ item's round dispatches the child. The child calls
`set_cpu_share(10)`, whose locked section pushes its item and makes it a stride process. Before
its `yield()` a timer tick comes; `stride_has_to_yield` is false, so `trap` switches to another
LWP of the child, and that LWP calls `exit()`. The round ends with the CPU idle between rounds,
the child a `ZOMBIE` and its item still in the heap, and no pass comparison has wrapped. -/
theorem set_cpu_share_window_exit :
    ∃ s s₁ s₂ s₃ : Sys 1,
      Reach.runWith step NoWrapStep (Sys.boot 1) [.userinit, .init 0, .round 0, .act 0 .forkAlloc,
        .act 0 .forkPush, .act 0 .forkDone, .act 0 .sleep, .resume 0] = some s ∧
      Reachable 1 NoWrapStep s ∧ runningOn s 0 = some 1 ∧ isMlfq (s.procs 1) = true ∧
      setCpuShareLocked s 1 10 = some (0, s₁) ∧ (strideHasToYield s₁ 1).1 = false ∧
      exitProc (trapTick s₁ 1) 1 = some s₂ ∧ step s₂ (.resume 0) = some s₃ ∧ NoWrap s₃ ∧
      s₃.cpus 0 = .idle ∧ (s₃.procs 1).state = .zombie ∧
      s₃.stride.q.contents.countP (·.OwnedBy 1) = 1 := by
  -- the run, the locked section, the tick, the exit and the end of the round, evaluated at once
  have hv : ((Reach.runWith step NoWrapStep (Sys.boot 1) [.userinit, .init 0, .round 0,
      .act 0 .forkAlloc, .act 0 .forkPush, .act 0 .forkDone, .act 0 .sleep, .resume 0]).bind fun s =>
      (setCpuShareLocked s 1 10).bind fun r => (exitProc (trapTick r.2 1) 1).bind fun s₂ =>
        (step s₂ (.resume 0)).map fun s₃ =>
          decide (runningOn s 0 = some 1 ∧ isMlfq (s.procs 1) = true ∧ r.1 = 0 ∧
            (strideHasToYield r.2 1).1 = false ∧ NoWrap s₃ ∧ s₃.cpus 0 = .idle ∧
            (s₃.procs 1).state = .zombie ∧ s₃.stride.q.contents.countP (·.OwnedBy 1) = 1)) =
      some true := by decide +kernel
  obtain ⟨s, hs, hv⟩ := Option.bind_eq_some_iff.mp hv
  obtain ⟨⟨r, s₁⟩, hl, hv⟩ := Option.bind_eq_some_iff.mp hv
  obtain ⟨s₂, hs₂, hv⟩ := Option.bind_eq_some_iff.mp hv
  obtain ⟨s₃, hs₃, hv⟩ := Option.map_eq_some_iff.mp hv
  simp only [decide_eq_true_eq] at hv
  obtain ⟨hrun, hmlfq, hr, htick, hw, hidle, hz, hcount⟩ := hv
  subst hr
  exact ⟨s, s₁, s₂, s₃, hs, Reach.Reachable.init.runWith hs, hrun, hmlfq, hl, htick, hs₂, hs₃, hw,
    hidle, hz, hcount⟩

end Xv6
