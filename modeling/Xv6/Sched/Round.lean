import Xv6.Sched.Mlfq

/-!
# `stride_scheduler` and `scheduler()` — one round, split at the dispatch

A round of `scheduler()`'s loop is `stride_scheduler(c)` under `ptable.lock`. It copies
the heap's top into the local `item`, runs the process the item stands for (or, for the
MLFQ item, lets `mlfq_scheduler` run MLFQ processes), and then, at `stride_pass:`,
pops *whatever is on top of the heap now*, charges `item` one stride and pushes `item`
back. The lock is released while a dispatched process runs, so a round is two steps of
the model: `strideScheduler` up to the dispatch, and `stridePass` or `mlfqResume` once
the process has switched back.

`none` is a panic or a null dereference: an empty heap at the top of a round, a full
heap at a push, `frac_init` failing on `max_pass`.
-/

set_option autoImplicit false

namespace Xv6

variable {n : Nat}

/-- `stride = all_share / item.share`, with `all_share` the queue's total after the pop
plus the item's share, both as `uint`. -/
def strideOf (sq : StrideQueue) (item : StrideItem) : Option Frac :=
  fracInit (UInt32.ofInt (sq.allShare + item.share)) (UInt32.ofInt item.share)

/-- `frac_init(&stride, ...) || frac_add(&item.pass, &item.pass, &stride)`: the item
charged one stride, or `none` when either call fails. -/
def chargeItem (sq : StrideQueue) (item : StrideItem) : Option StrideItem :=
  (strideOf sq item).bind fun st => (fracAdd item.pass st).map fun pass => { item with pass }

/-- `if(frac_is_less_than(&max_pass, &item.pass)) frac_init(&max_pass, ...)`. -/
def updateMaxPass (m pass : Frac) : Option Frac :=
  if fracIsLessThan m pass then fracInit pass.num pass.denom else some m

/-- `if(stride_push(&item)) panic(...)`. -/
def pushBack (s : Sys n) (item : StrideItem) : Option (Sys n) :=
  let (r, sq) := stridePush s.stride item
  if r = 0 then some { s with stride := sq } else none

/-- The round from `stride_pass:` on, with the copy `item`; the CPU is idle after it. -/
def stridePass (s : Sys n) (c : Fin n) (item : StrideItem) : Option (Sys n) :=
  let s := s.setCpu c .idle
  let (r, sq) := stridePop s.stride
  let s := { s with stride := sq }
  if r ≠ 0 then some s
  else
    match chargeItem sq item with
    | none => pushBack s item
    | some item =>
      match updateMaxPass sq.maxPass item.pass with
      | none => none
      | some m =>
        let s := { s with stride := { s.stride with maxPass := m } }
        -- "Put it back alive"
        match item.isMLFQ, item.proc with
        | true, _ => pushBack s item
        | false, none => none
        | false, some p => if (s.procs p).state = .zombie then some s else pushBack s item

/-- `c->proc = p; p->state = RUNNING; swtch(...)`: CPU `c` now waits in `ph`. -/
def dispatch (s : Sys n) (c : Fin n) (p : ProcId) (ph : Phase) : Sys n :=
  (s.setState p .running).setCpu c ph

/-- The top of `mlfq_scheduler`'s `while(1)`, in a round holding the MLFQ item `item`:
dispatch the first `RUNNABLE` process of the scan, or return to `stride_pass`. -/
def mlfqScheduler (s : Sys n) (c : Fin n) (item : StrideItem) : Option (Sys n) :=
  match mlfqScan s with
  | none => none
  | some (s, some p) => some (dispatch s c p (.mlfq item p))
  | some (s, none) => stridePass s c item

/-- `mlfq_scheduler` after `p` has switched back: `mlfqAfterRun`, then back to the
stride round if `p` was stopped by the stride quantum (`yield_by == 1`), else around
the `while(1)` again. -/
def mlfqResume (s : Sys n) (c : Fin n) (item : StrideItem) (p : ProcId) : Option (Sys n) := do
  let s ← mlfqAfterRun s p
  let yb := (s.procs p).yieldBy
  let s := s.modifyProc p fun pr => { pr with yieldBy := 0 }
  if yb = 1 then stridePass s c item else mlfqScheduler s c item

/-- `stride_scheduler(c)` up to the dispatch. -/
def strideScheduler (s : Sys n) (c : Fin n) : Option (Sys n) :=
  match strideTop s.stride with
  | none => none
  | some item =>
    if item.isMLFQ then mlfqScheduler s c item
    else
      match item.proc with
      | none => none
      | some p =>
        if (s.procs p).state = .runnable then some (dispatch s c p (.stride item p))
        else stridePass s c item

/-- The prologue of `scheduler()` on CPU `c`: `stride_init()` on the global queue and the
push of the MLFQ item, whose result is not checked. -/
def schedulerInit (s : Sys n) (c : Fin n) : Sys n :=
  let sq := (stridePush strideInit (strideItemInit strideInit strideMlfqShare none true)).2
  { s with stride := sq }.setCpu c .idle

/-- `stride_has_to_yield(p)`. `stride_ticks`, which nothing reads, is left out. -/
def strideHasToYield (s : Sys n) (p : ProcId) : Bool × Sys n :=
  let e := (if strideMaxTicks ≤ s.strideTicksElapsed then 0 else s.strideTicksElapsed) + 1
  let s := { s with strideTicksElapsed := e }
  let s := s.modifyProc p fun pr =>
    if strideMaxTicks ≤ e then { pr with cticks := pr.cticks + 1, yieldBy := 1 }
    else { pr with cticks := pr.cticks + 1 }
  (decide (strideMaxTicks ≤ e), s)

end Xv6
