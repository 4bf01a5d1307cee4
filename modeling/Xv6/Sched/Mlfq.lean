import Xv6.Sched.State

/-!
# `mlfq_scheduler.c` — the MLFQ operations on the kernel state

`mlfq_push`, `mlfq_pop`, `mlfq_boost_priority`, `mlfq_need_boosting`,
`mlfq_has_to_yield`, the scan at the top of `mlfq_scheduler` and what it does once the
dispatched process has switched back, as functions of `Sys`.

Two details of the C decide what these can do wrong, and the model keeps both:

* `mlfq_push`'s range test is `lev < 0 && lev >= NMLFQ`, which is never true, so a
  process whose `lev` is `STRIDE_PROC_LEVEL` would be pushed into `mlfq[100]`. The model
  sets `badLev` there and changes nothing else.
* the only duplicate test is against `queue_rear`, and `queue_push_item` reports a full
  queue by returning `-1`, which every caller ignores. The model sets `pushFull`.

A `none` result is a null pointer dereference: a slot between `f + 1` and `r` that
holds `0` and is then read through.
-/

set_option autoImplicit false

namespace Xv6

variable {n : Nat}

/-- `queue_push_item(&mlfq[lev], p)`, its `-1` recorded in `pushFull`. -/
def queuePushAt (s : Sys n) (lev : Fin nmlfq) (p : ProcId) : Sys n :=
  match queuePushItem (s.mlfq lev) p with
  | some q => s.setQueue lev q
  | none => { s with pushFull := true }

/-- `mlfq_push(p)`. Its result is ignored by every caller. -/
def mlfqPush (s : Sys n) (p : ProcId) : Sys n :=
  if h : (s.procs p).lev < nmlfq then
    if queueRear (s.mlfq ⟨_, h⟩) = some p then s
    else queuePushAt s ⟨_, h⟩ p
  else { s with badLev := true }

/-- `mlfq_pop(&p, lev)`: the front pointer, and the state after `queue_pop_item`. -/
def mlfqPop (s : Sys n) (lev : Fin nmlfq) : Option ProcId × Sys n :=
  (queueFront (s.mlfq lev),
    match queuePopItem (s.mlfq lev) with
    | some q => s.setQueue lev q
    | none => s)

/-! ## The scan -/

/-- The inner loop of `mlfq_scheduler` on level `lev`, with `k` turns left: pop the
front, stop at a `RUNNABLE` process, otherwise push it back with `mlfq_push`. -/
def scanLevel (s : Sys n) (lev : Fin nmlfq) : Nat → Option (Sys n × Option ProcId)
  | 0 => some (s, none)
  | k + 1 =>
    match mlfqPop s lev with
    | (none, _) => none
    | (some p, s') =>
      if (s'.procs p).state = .runnable then some (s', some p)
      else scanLevel (mlfqPush s' p) lev k

/-- The outer `for(lev = 0; lev < NMLFQ; lev++)`. `idx` runs from `BEGIN` to `END`, which
are fixed before the inner loop, so level `lev` gets `queue_size(&mlfq[lev])` turns. -/
def scanLevels (s : Sys n) : List (Fin nmlfq) → Option (Sys n × Option ProcId)
  | [] => some (s, none)
  | lev :: levs =>
    match scanLevel s lev (queueSize (s.mlfq lev)) with
    | none => none
    | some (s', some p) => some (s', some p)
    | some (s', none) => scanLevels s' levs

/-- One pass of the scan over all levels: the first `RUNNABLE` process found, if any. -/
def mlfqScan (s : Sys n) : Option (Sys n × Option ProcId) :=
  scanLevels s (List.finRange nmlfq)

/-! ## Priority boost -/

/-- The first loop of `mlfq_boost_priority`: `cticks = 0` for the process of every live
slot of `mlfq[0]`. -/
def resetTicks (s : Sys n) : List (Option ProcId) → Option (Sys n)
  | [] => some s
  | none :: _ => none
  | some p :: ps => resetTicks (s.modifyProc p fun pr => { pr with cticks := 0 }) ps

/-- `while(queue_size(&mlfq[lev]) > 0)`: move the front to `mlfq[0]` at level 0 with no
ticks, through `queue_push_item` (no duplicate test), with `k` turns left. -/
def drainLevel (s : Sys n) (lev : Fin nmlfq) : Nat → Option (Sys n)
  | 0 => some s
  | k + 1 =>
    if queueSize (s.mlfq lev) = 0 then some s
    else
      match mlfqPop s lev with
      | (none, _) => none
      | (some p, s') =>
        let s' := s'.modifyProc p fun pr => { pr with lev := 0, cticks := 0 }
        drainLevel (queuePushAt s' 0 p) lev k

/-- `mlfq_boost_priority()`: levels `NMLFQ - 1` down to 1, each drained completely. -/
def mlfqBoostPriority (s : Sys n) : Option (Sys n) := do
  let s ← resetTicks s (s.mlfq 0).elems
  let s ← drainLevel s 2 (queueSize (s.mlfq 2))
  drainLevel s 1 (queueSize (s.mlfq 1))

/-- `mlfq_need_boosting()`: whether `mlfq_ticks` reached `MLFQ_BOOSTING_TICKS`; it is
reduced modulo that bound in either case. -/
def mlfqNeedBoosting (s : Sys n) : Bool × Sys n :=
  (decide (mlfqBoostingTicks ≤ s.mlfqTicks),
    { s with mlfqTicks := s.mlfqTicks % mlfqBoostingTicks })

/-- What `mlfq_scheduler` does after `swtch` returns from `p`, before it clears
`yield_by`: demote when the allotment of the level is used up, push `p` back unless it
is a zombie, and boost when due. Nothing of this runs for a process that has left the
MLFQ (`set_cpu_share`). -/
def mlfqAfterRun (s : Sys n) (p : ProcId) : Option (Sys n) :=
  if isMlfq (s.procs p) then
    let s := if mlfqTimeAllots (s.procs p).lev ≤ (s.procs p).cticks then
        s.modifyProc p fun pr => { pr with cticks := 0, lev := min (pr.lev + 1) (nmlfq - 1) }
      else s
    let s := if (s.procs p).state ≠ .zombie then mlfqPush s p else s
    let (boost, s) := mlfqNeedBoosting s
    if boost then mlfqBoostPriority s else some s
  else some s

/-- `mlfq_has_to_yield(p)`, at the tick of a process at level `lev < NMLFQ`
(`getlev()` is `p->lev` there). -/
def mlfqHasToYield (s : Sys n) (p : ProcId) : Bool × Sys n :=
  let m := mlfqMaxTicks (s.procs p).lev
  let e := (if m ≤ s.mlfqTicksElapsed then 0 else s.mlfqTicksElapsed) + 1
  let s := { s with mlfqTicksElapsed := e, mlfqTicks := s.mlfqTicks + 1 }
  let s := s.modifyProc p fun pr =>
    if m ≤ e then { pr with cticks := pr.cticks + 1, yieldBy := 2 }
    else { pr with cticks := pr.cticks + 1 }
  (decide (m ≤ e), s)

end Xv6
