import Xv6.Sched.Round
import Xv6.Lib.Reach

/-!
# The scheduler as a state machine

The events are what can happen to the scheduling state: the boot processor's
`userinit`, a CPU entering `scheduler()`, a CPU starting a round, a CPU going on with
its round once the dispatched process has given the CPU back, a `wakeup`, and the
system calls and traps of the process a CPU is running (`Act`):
`set_cpu_share`, the stages of `fork`, `exit`, `sleep`, `yield`, `sys_yield`, a timer
tick and `wait` reaping a zombie.

Only the process a CPU has dispatched and that is still `RUNNING` acts on that CPU, and
`fork` is three steps (allocation, the push into the MLFQ, `RUNNABLE`), since a timer
tick may preempt the parent in between. `wait` may reap any zombie: the parent relation
is not modelled, so the model has more runs than the kernel, never fewer, and what is
proved of all its runs holds of the kernel's. The parts of `fork`, `exit` and `wait`
that do not touch the scheduling state (memory, files, LWPs) are left out.
-/

set_option autoImplicit false

namespace Xv6

variable {n : Nat}

/-- `allocproc()`: the first `UNUSED` slot becomes `EMBRYO`; its `lev` is whatever the
slot's last process left there. -/
def allocproc (s : Sys n) : Option (ProcId × Sys n) :=
  match (List.finRange nproc).find? (fun p => (s.procs p).state = .unused) with
  | none => none
  | some p => some (p, s.setState p .embryo)

/-- `yield()`: the caller becomes `RUNNABLE` and switches to the scheduler. -/
def yieldProc (s : Sys n) (p : ProcId) : Sys n := s.setState p .runnable

/-- `userinit()`: allocate, level 0, `mlfq_push`, `RUNNABLE`. -/
def userinit (s : Sys n) : Option (Sys n) :=
  match allocproc s with
  | none => none
  | some (p, s) =>
    let s := { s with initproc := some p }.modifyProc p fun pr => { pr with lev := 0, cticks := 0 }
    some ((mlfqPush s p).setState p .runnable)

/-- `set_cpu_share(share)` called by `p`: an MLFQ process joins the stride queue at
`max_pass` and yields; a stride process adjusts the share of the item
`stride_find_item` returns. The model runs the section under `ptable.lock` and the `yield()`
after it as one step; in the kernel the lock is released first, and a timer tick can come in
between (`setCpuShareLocked` and `set_cpu_share_window_exit` in `Xv6.Sched.Race`). -/
def setCpuShare (s : Sys n) (p : ProcId) (share : Int) : Option (Int × Sys n) :=
  if isMlfq (s.procs p) then
    if !strideCanChangeShare s.stride 0 share then some (-1, s)
    else
      let s := s.modifyProc p fun pr => { pr with lev := strideProcLevel, cticks := 0 }
      let (r, sq) := stridePush s.stride (strideItemInit s.stride share (some p) false)
      if r ≠ 0 then none
      else some (0, yieldProc { s with stride := sq } p)
  else if isStride (s.procs p) then
    let (r, sq) := strideAdjust s.stride (strideFindItem s.stride p) share
    some (r, { s with stride := sq })
  else some (-1, s)

/-- `sys_set_cpu_share()`: shares outside `1 … 80` are refused before `set_cpu_share`. -/
def sysSetCpuShare (s : Sys n) (p : ProcId) (share : Int) : Option (Int × Sys n) :=
  if 80 < share ∨ share ≤ 0 then some (-1, s) else setCpuShare s p share

/-- `trap` on a timer interrupt while `p` runs: `stride_has_to_yield(p) || (is_mlfq(p) &&
mlfq_has_to_yield(p))`, then `yield()`. Otherwise `trap` may switch to another runnable LWP of
`p` with `swtchlwp`, which leaves the scheduler's state as it is; the processes of this model
have no LWPs, so that switch is left out. -/
def trapTick (s : Sys n) (p : ProcId) : Sys n :=
  let (y, s) := strideHasToYield s p
  if y then yieldProc s p
  else if isMlfq (s.procs p) then
    let (y, s) := mlfqHasToYield s p
    if y then yieldProc s p else s
  else s

/-- `exit()` of `p`: panics for `initproc`, else `ZOMBIE`. -/
def exitProc (s : Sys n) (p : ProcId) : Option (Sys n) :=
  if s.initproc = some p then none else some (s.setState p .zombie)

/-- `wakeup1` for a process sleeping on the channel. -/
def wakeupProc (s : Sys n) (q : ProcId) : Sys n :=
  if (s.procs q).state = .sleeping then s.setState q .runnable else s

/-- The system calls and traps of a running process. -/
inductive Act where
  | setCpuShare (share : Int)
  | forkAlloc
  | forkFail
  | forkPush
  | forkDone
  | exit
  | sleep
  | yield
  | yield1
  | tick
  | reap (q : ProcId)
  deriving DecidableEq, Repr

/-- `p` does `a`. `set_cpu_share`, `exit` and `wait` are not called from inside `fork`. -/
def doAct (s : Sys n) (p : ProcId) : Act → Option (Sys n)
  | .setCpuShare share =>
    if s.forks p = .none then (sysSetCpuShare s p share).map Prod.snd else none
  | .forkAlloc =>
    match s.forks p with
    | .none =>
      match allocproc s with
      | none => some s
      | some (np, s) => some { s with forks := Function.update s.forks p (.allocated np) }
    | _ => none
  | .forkFail =>
    match s.forks p with
    | .allocated np => some { s.setState np .unused with forks := Function.update s.forks p .none }
    | _ => none
  | .forkPush =>
    match s.forks p with
    | .allocated np =>
      let s := s.modifyProc np fun pr => { pr with lev := 0, cticks := 0 }
      some { mlfqPush s np with forks := Function.update s.forks p (.pushed np) }
    | _ => none
  | .forkDone =>
    match s.forks p with
    | .pushed np => some { s.setState np .runnable with forks := Function.update s.forks p .none }
    | _ => none
  | .exit => if s.forks p = .none then exitProc s p else none
  | .sleep => some (s.setState p .sleeping)
  | .yield => some (yieldProc s p)
  | .yield1 => some (yieldProc (s.modifyProc p fun pr => { pr with cticks := pr.cticks + 1 }) p)
  | .tick => some (trapTick s p)
  | .reap q =>
    if s.forks p = .none ∧ (s.procs q).state = .zombie then some (s.setState q .unused) else none

/-- The events of a kernel with `n` CPUs. -/
inductive Event (n : Nat) where
  | userinit
  | init (c : Fin n)
  | round (c : Fin n)
  | resume (c : Fin n)
  | act (c : Fin n) (a : Act)
  | wakeup (q : ProcId)
  deriving DecidableEq, Repr

/-- The process CPU `c` has dispatched, while it is still `RUNNING`. -/
def runningOn (s : Sys n) (c : Fin n) : Option ProcId :=
  match s.cpus c with
  | .stride _ p | .mlfq _ p => if (s.procs p).state = .running then some p else none
  | _ => none

/-- One step of the kernel. -/
def step (s : Sys n) : Event n → Option (Sys n)
  | .userinit => if s.initproc = none then userinit s else none
  | .init c => if s.cpus c = .boot then some (schedulerInit s c) else none
  | .round c => if s.cpus c = .idle then strideScheduler s c else none
  | .resume c =>
    match s.cpus c with
    | .stride item p => if (s.procs p).state ≠ .running then stridePass s c item else none
    | .mlfq item p => if (s.procs p).state ≠ .running then mlfqResume s c item p else none
    | _ => none
  | .act c a =>
    match runningOn s c with
    | some p => doAct s p a
    | none => none
  | .wakeup q => some (wakeupProc s q)

/-- The states a kernel with `n` CPUs reaches from boot along transitions allowed by `ok`. -/
def Reachable (n : Nat) (ok : Sys n → Sys n → Prop) : Sys n → Prop :=
  Reach.Reachable step ok (Sys.boot n)

/-! ## What one event can do

One lemma for each event and each call: what a transition that is enabled tells of the state
before it and what the state after it is. The invariant proofs take their cases from these and
never unfold `step` or `doAct`. -/

section Inversion

variable {s s' : Sys n} {c : Fin n}

theorem step_userinit (he : step s .userinit = some s') :
    s.initproc = none ∧ userinit s = some s' := by
  simp only [step] at he
  split_ifs at he with h
  exact ⟨h, he⟩

theorem step_init (he : step s (.init c) = some s') :
    s.cpus c = .boot ∧ s' = schedulerInit s c := by
  simp only [step] at he
  split_ifs at he with h
  exact ⟨h, (Option.some.inj he).symm⟩

theorem step_round (he : step s (.round c) = some s') :
    s.cpus c = .idle ∧ strideScheduler s c = some s' := by
  simp only [step] at he
  split_ifs at he with h
  exact ⟨h, he⟩

/-- A CPU goes on with its round only once the process it dispatched has stopped running. -/
theorem step_resume (he : step s (.resume c) = some s') :
    (∃ item p, s.cpus c = .stride item p ∧ (s.procs p).state ≠ .running ∧
      stridePass s c item = some s') ∨
    (∃ item p, s.cpus c = .mlfq item p ∧ (s.procs p).state ≠ .running ∧
      mlfqResume s c item p = some s') := by
  simp only [step] at he
  split at he
  · rename_i item p hc
    split_ifs at he with hr
    exact .inl ⟨item, p, hc, hr, he⟩
  · rename_i item p hc
    split_ifs at he with hr
    exact .inr ⟨item, p, hc, hr, he⟩
  · cases he

theorem step_act {a : Act} (he : step s (.act c a) = some s') :
    ∃ p, runningOn s c = some p ∧ doAct s p a = some s' := by
  simp only [step] at he
  split at he
  · rename_i p hp
    exact ⟨p, hp, he⟩
  · cases he

theorem step_wakeup {q : ProcId} (he : step s (.wakeup q) = some s') : s' = wakeupProc s q :=
  (Option.some.inj he).symm

variable {p : ProcId}

theorem doAct_setCpuShare {share : Int} (he : doAct s p (.setCpuShare share) = some s') :
    s.forks p = .none ∧ (sysSetCpuShare s p share).map Prod.snd = some s' := by
  simp only [doAct] at he
  split_ifs at he with h
  exact ⟨h, he⟩

/-- The allocation of `fork`: nothing when `allocproc` finds no slot, else the slot is
recorded as the parent's child. -/
theorem doAct_forkAlloc (he : doAct s p .forkAlloc = some s') :
    s.forks p = .none ∧ (allocproc s = none ∧ s' = s ∨
      ∃ np s₁, allocproc s = some (np, s₁) ∧
        s' = { s₁ with forks := Function.update s₁.forks p (.allocated np) }) := by
  simp only [doAct] at he
  split at he
  · rename_i hf
    split at he
    · rename_i hal
      exact ⟨hf, .inl ⟨hal, (Option.some.inj he).symm⟩⟩
    · rename_i np s₁ hal
      exact ⟨hf, .inr ⟨np, s₁, hal, (Option.some.inj he).symm⟩⟩
  · cases he

theorem doAct_forkFail (he : doAct s p .forkFail = some s') :
    ∃ np, s.forks p = .allocated np ∧
      s' = { s.setState np .unused with forks := Function.update s.forks p .none } := by
  simp only [doAct] at he
  split at he
  · rename_i np hf
    exact ⟨np, hf, (Option.some.inj he).symm⟩
  · cases he

theorem doAct_forkPush (he : doAct s p .forkPush = some s') :
    ∃ np, s.forks p = .allocated np ∧
      s' = { mlfqPush (s.modifyProc np fun pr => { pr with lev := 0, cticks := 0 }) np with
        forks := Function.update s.forks p (.pushed np) } := by
  simp only [doAct] at he
  split at he
  · rename_i np hf
    exact ⟨np, hf, (Option.some.inj he).symm⟩
  · cases he

theorem doAct_forkDone (he : doAct s p .forkDone = some s') :
    ∃ np, s.forks p = .pushed np ∧
      s' = { s.setState np .runnable with forks := Function.update s.forks p .none } := by
  simp only [doAct] at he
  split at he
  · rename_i np hf
    exact ⟨np, hf, (Option.some.inj he).symm⟩
  · cases he

theorem doAct_exit (he : doAct s p .exit = some s') : s.forks p = .none ∧ exitProc s p = some s' := by
  simp only [doAct] at he
  split_ifs at he with h
  exact ⟨h, he⟩

/-- `exit` of any process but `initproc` leaves a zombie. -/
theorem exitProc_eq (he : exitProc s p = some s') :
    s.initproc ≠ some p ∧ s' = s.setState p .zombie := by
  unfold exitProc at he
  split_ifs at he with h
  exact ⟨h, (Option.some.inj he).symm⟩

/-- Sleeping, yielding and a timer tick always succeed. -/
theorem doAct_sleep (he : doAct s p .sleep = some s') : s' = s.setState p .sleeping :=
  (Option.some.inj he).symm

theorem doAct_yield (he : doAct s p .yield = some s') : s' = yieldProc s p :=
  (Option.some.inj he).symm

theorem doAct_yield1 (he : doAct s p .yield1 = some s') :
    s' = yieldProc (s.modifyProc p fun pr => { pr with cticks := pr.cticks + 1 }) p :=
  (Option.some.inj he).symm

theorem doAct_tick (he : doAct s p .tick = some s') : s' = trapTick s p :=
  (Option.some.inj he).symm

theorem doAct_reap {q : ProcId} (he : doAct s p (.reap q) = some s') :
    s.forks p = .none ∧ (s.procs q).state = .zombie ∧ s' = s.setState q .unused := by
  simp only [doAct] at he
  split_ifs at he with h
  exact ⟨h.1, h.2, (Option.some.inj he).symm⟩

end Inversion

end Xv6
