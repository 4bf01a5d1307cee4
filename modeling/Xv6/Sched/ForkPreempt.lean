import Xv6.Sched.Ticks

/-!
# `fork`'s `mlfq_push` under a timer interrupt

`fork` calls `mlfq_push(np)` holding only the parent's sleeplock, with interrupts on, so a
timer tick may stop it between the two statements of `queue_push_item`,
`q->r = NEXT(q->r)` and `q->items[q->r] = item`, and `trap` may yield into the scheduler
there. The scheduler model takes the push as one step (`Act.forkPush`); here it is cut at
that point. `queuePushItem_split` and `forkPush_split` show that the two halves, run back
to back, are the push the model takes, so the state between them is one the kernel passes
through, and every event of the model may run from it.

Between the halves the rear slot of `mlfq[0]` is live (`queueAdvanceRear_elems`) but still
holds what it held before; a scan whose pop meets a null front dereferences it
(`scanLevel_null_front`, `mlfqScan_null_front`).
-/

set_option autoImplicit false

namespace Xv6

variable {n : Nat}

/-! ## The two statements of `queue_push_item` -/

/-- `q->r = NEXT(q->r)`. -/
def queueAdvanceRear (q : ProcQueue) : ProcQueue := { q with r := next q.r }

/-- `q->items[q->r] = item`. -/
def queueStoreRear (q : ProcQueue) (item : ProcId) : ProcQueue :=
  { q with items := Function.update q.items q.r (some item) }

/-- `queue_push_item` is its two statements, after the test for a full queue. -/
theorem queuePushItem_split (q : ProcQueue) (item : ProcId) :
    queuePushItem q item =
      if queueIsFull q then none else some (queueStoreRear (queueAdvanceRear q) item) := rfl

/-- After the first statement, the slot after the old rear is live with its old content. -/
theorem queueAdvanceRear_elems {q : ProcQueue} (hq : q.WF) (hroom : q.elems.length + 1 < queueCap) :
    (queueAdvanceRear q).elems = q.elems ++ [q.items (next q.r)] := by
  have hl : Ring.size queueCap q.f q.r + 1 < queueCap := by
    rw [← Ring.length_elems queueCap q.f q.r q.items]; exact hroom
  exact Ring.elems_advance q.items hq.1 hq.2 hl

/-! ## `fork` stopped inside `mlfq_push` -/

/-- The state in which a tick stops `fork`'s `mlfq_push(np)` between the two statements of
`queue_push_item`, from a state `s` in which `allocproc` has returned `np`: `np->lev = 0`,
`np->cticks = 0`, the checks of `mlfq_push` passed, and `mlfq[0].r` advanced. -/
def forkPushPreempted (s : Sys n) (np : ProcId) : Sys n :=
  let s := s.modifyProc np fun pr => { pr with lev := 0, cticks := 0 }
  s.setQueue 0 (queueAdvanceRear (s.mlfq 0))

/-- The rest of `fork`'s push in `p`: the store, and `fork` goes on past `mlfq_push`. -/
def forkPushFinish (s : Sys n) (p np : ProcId) : Sys n :=
  { s.setQueue 0 (queueStoreRear (s.mlfq 0) np) with
    forks := Function.update s.forks p (.pushed np) }

/-- **The cut push is the push**: when the checks of `mlfq_push(np)` pass (the rear of
`mlfq[0]` is not `np` and the queue is not full), the two halves run back to back are the
model's `forkPush` step. -/
theorem forkPush_split {s : Sys n} {p np : ProcId} (hf : s.forks p = .allocated np)
    (hrear : queueRear (s.mlfq 0) ≠ some np) (hfull : queueIsFull (s.mlfq 0) = false) :
    doAct s p .forkPush = some (forkPushFinish (forkPushPreempted s np) p np) := by
  have hlev : ((s.modifyProc np fun pr => { pr with lev := 0, cticks := 0 }).procs np).lev <
      nmlfq := by
    simp only [Sys.modifyProc_procs_self]; decide
  simp only [doAct, hf, mlfqPush, dif_pos hlev]
  -- `⟨0, _⟩` is level `0`; the queue of the modified state is that of `s`
  have h0 : (⟨((s.modifyProc np fun pr => { pr with lev := 0, cticks := 0 }).procs np).lev,
      hlev⟩ : Fin nmlfq) = 0 := by
    ext; simp
  rw [h0]
  simp only [Sys.modifyProc_mlfq, if_neg hrear, queuePushAt, queuePushItem_split, hfull,
    Bool.false_eq_true, if_false]
  -- the store overwrites the queue the advance wrote
  simp [forkPushFinish, forkPushPreempted, Sys.setQueue, Function.update_idem]

/-! ## A null front -/

/-- A turn of the scan whose pop meets a null front dereferences it. -/
theorem scanLevel_null_front {s : Sys n} {lev : Fin nmlfq} {k : Nat} (hk : 0 < k)
    (h : queueFront (s.mlfq lev) = none) : scanLevel s lev k = none := by
  obtain ⟨k, rfl⟩ : ∃ j, k = j + 1 := ⟨k - 1, by omega⟩
  simp [scanLevel, mlfqPop, h]

/-- The scan begins with level 0: a non-empty `mlfq[0]` whose front is null stops it. -/
theorem mlfqScan_null_front {s : Sys n} (hsz : 0 < queueSize (s.mlfq 0))
    (h : queueFront (s.mlfq 0) = none) : mlfqScan s = none := by
  have hs : scanLevel s 0 (queueSize (s.mlfq 0)) = none := scanLevel_null_front hsz h
  have hl : List.finRange nmlfq = [0, 1, 2] := by decide
  rw [mlfqScan, hl, scanLevels, hs]

/-! ## The preempted push of `initproc`'s first `fork` -/

/-- **A tick inside `fork`'s `mlfq_push` leaves a null pointer in `mlfq[0]`, which the next
scan dereferences.** On one CPU, `initproc` runs its fifth tick of the round's slice with
`fork` stopped between the two statements of `queue_push_item` for its child `1`: the tick
forces the yield, `mlfq_scheduler` pushes `initproc` behind the slot not yet written, and
the next round's scan pops that null slot first. -/
theorem fork_push_preempted_null_slot :
    ∃ s s' : Sys 1, Reachable 1 (fun _ _ => True) s ∧ runningOn s 0 = some 0 ∧
      s.forks 0 = .allocated 1 ∧ ((forkPushPreempted s 1).mlfq 0).elems = [none] ∧
      Reach.run step (forkPushPreempted s 1) [.act 0 .tick, .resume 0] = some s' ∧
      (s'.mlfq 0).elems = [none, some 0] ∧ mlfqScan s' = none ∧ step s' (.round 0) = none := by
  obtain ⟨s, hs, hv⟩ := Option.map_eq_some_iff.mp
    (show (Reach.run step (Sys.boot 1)
        ([.userinit, .init 0, .round 0] ++ List.replicate 4 (.act 0 .tick) ++
          [.act 0 .forkAlloc])).map
        (fun s => (runningOn s 0, decide (s.forks 0 = .allocated 1),
          ((forkPushPreempted s 1).mlfq 0).elems)) =
        some (some 0, true, [none]) by rfl)
  simp only [Prod.mk.injEq, decide_eq_true_eq] at hv
  obtain ⟨hr, hf, he⟩ := hv
  -- the tick and the rest of the round, run from the state `fork` is stopped in
  have hrun := show ((Reach.run step (Sys.boot 1)
      ([.userinit, .init 0, .round 0] ++ List.replicate 4 (.act 0 .tick) ++
        [.act 0 .forkAlloc])).bind fun s =>
        Reach.run step (forkPushPreempted s 1) [.act 0 .tick, .resume 0]).map
      (fun s' => ((s'.mlfq 0).elems, queueSize (s'.mlfq 0), queueFront (s'.mlfq 0),
        (step s' (.round 0)).isNone)) =
      some ([none, some 0], 2, none, true) by rfl
  rw [hs, Option.bind_some] at hrun
  obtain ⟨s', hs', hv'⟩ := Option.map_eq_some_iff.mp hrun
  simp only [Prod.mk.injEq] at hv'
  obtain ⟨he', hsz, hfr, hround⟩ := hv'
  exact ⟨s, s', Reach.Reachable.init.run (fun _ _ => trivial) hs, hr, hf, he, hs', he',
    mlfqScan_null_front (by omega) hfr, Option.isNone_iff_eq_none.mp hround⟩

end Xv6
