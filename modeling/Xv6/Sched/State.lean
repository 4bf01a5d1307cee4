import Xv6.Sched.Queue

/-!
# The scheduler's part of the kernel state

`Sys ncpu` is what the two schedulers read and write across the whole kernel: the
process table, the global `stride_queue`, the array `mlfq[NMLFQ]`, the counters
`mlfq_ticks` and the two function-local `static` tick counters of `trap`'s yield
tests, and, per CPU, where that CPU is in `scheduler()`.

A CPU is `boot` before it reaches `scheduler()`, `idle` between two rounds of its
`for(;;)`, and `stride item p` or `mlfq item p` while the process `p` it switched to
runs: `item` is the local copy `stride_scheduler` took of the heap's top before the
dispatch, and `mlfq` means the dispatch came from `mlfq_scheduler`, called from that
round. Everything a round does under `ptable.lock` between two such points is one
step of the model.

Besides the kernel's own data the state keeps three things a step must remember:
the local `np` of a `fork` call in progress (`forks`), and two error flags,
`badLev` for an `mlfq_push` whose `p->lev` indexes past `mlfq[]`, and `pushFull`
for a `queue_push_item` that found its queue full.
-/

set_option autoImplicit false

namespace Xv6

/-- Where a CPU is in `scheduler()`. -/
inductive Phase where
  | boot
  | idle
  | stride (item : StrideItem) (p : ProcId)
  | mlfq (item : StrideItem) (p : ProcId)
  deriving DecidableEq, Repr

/-- How far a `fork` call has got: `np` allocated by `allocproc`, then pushed into the
MLFQ by `mlfq_push(np)`; `RUNNABLE` ends the call. -/
inductive ForkStage where
  | none
  | allocated (np : ProcId)
  | pushed (np : ProcId)
  deriving DecidableEq, Repr

/-- The scheduling state of a kernel with `ncpu` CPUs. -/
structure Sys (ncpu : Nat) where
  procs : ProcId → Proc
  stride : StrideQueue
  mlfq : Fin nmlfq → ProcQueue
  mlfqTicks : Nat
  strideTicksElapsed : Nat
  mlfqTicksElapsed : Nat
  cpus : Fin ncpu → Phase
  forks : ProcId → ForkStage
  initproc : Option ProcId
  badLev : Bool
  pushFull : Bool

/-- CPU `0` of a one-CPU kernel, named once so that every `s.cpus 0` holds the same proof. -/
instance oneCpu_neZero : NeZero (1 : Nat) := ⟨by decide⟩

/-- An unused slot of the zero-filled `ptable`. -/
def Proc.unused : Proc := ⟨.unused, 0, 0, 0⟩

/-- The zero-filled kernel data before any CPU enters `scheduler()`: `max_pass` is `0/0`
until `stride_init` runs. -/
def Sys.boot (ncpu : Nat) : Sys ncpu where
  procs := fun _ => Proc.unused
  stride := ⟨0, ⟨0, 0⟩, ⟨0, fun _ => ⟨⟨0, 0⟩, false, 0, none⟩⟩⟩
  mlfq := fun _ => ProcQueue.empty
  mlfqTicks := 0
  strideTicksElapsed := 0
  mlfqTicksElapsed := 0
  cpus := fun _ => .boot
  forks := fun _ => .none
  initproc := none
  badLev := false
  pushFull := false

variable {n : Nat}

/-- Apply `f` to the entry of `p` in the process table. -/
def Sys.modifyProc (s : Sys n) (p : ProcId) (f : Proc → Proc) : Sys n :=
  { s with procs := Function.update s.procs p (f (s.procs p)) }

/-- Replace queue `lev`. -/
def Sys.setQueue (s : Sys n) (lev : Fin nmlfq) (q : ProcQueue) : Sys n :=
  { s with mlfq := Function.update s.mlfq lev q }

/-- Move CPU `c` to `ph`. -/
def Sys.setCpu (s : Sys n) (c : Fin n) (ph : Phase) : Sys n :=
  { s with cpus := Function.update s.cpus c ph }

/-- `p->state = st`. -/
def Sys.setState (s : Sys n) (p : ProcId) (st : ProcState) : Sys n :=
  s.modifyProc p fun pr => { pr with state := st }

section Lemmas

variable (s : Sys n) (p q : ProcId) (f : Proc → Proc)

@[simp] theorem Sys.modifyProc_procs_self : (s.modifyProc p f).procs p = f (s.procs p) := by
  simp [Sys.modifyProc]

theorem Sys.modifyProc_procs_of_ne {q : ProcId} (h : q ≠ p) :
    (s.modifyProc p f).procs q = s.procs q := by
  simp [Sys.modifyProc, Function.update_of_ne h]

theorem Sys.modifyProc_procs : (s.modifyProc p f).procs q =
    if q = p then f (s.procs p) else s.procs q := by
  by_cases h : q = p
  · subst h; simp
  · simp [h, Sys.modifyProc_procs_of_ne _ _ _ h]

@[simp] theorem Sys.modifyProc_stride : (s.modifyProc p f).stride = s.stride := rfl
@[simp] theorem Sys.modifyProc_mlfq : (s.modifyProc p f).mlfq = s.mlfq := rfl
@[simp] theorem Sys.modifyProc_cpus : (s.modifyProc p f).cpus = s.cpus := rfl
@[simp] theorem Sys.modifyProc_forks : (s.modifyProc p f).forks = s.forks := rfl
@[simp] theorem Sys.modifyProc_badLev : (s.modifyProc p f).badLev = s.badLev := rfl
@[simp] theorem Sys.modifyProc_pushFull : (s.modifyProc p f).pushFull = s.pushFull := rfl
@[simp] theorem Sys.modifyProc_initproc : (s.modifyProc p f).initproc = s.initproc := rfl

variable (lev : Fin nmlfq) (pq : ProcQueue) (c : Fin n) (ph : Phase)

@[simp] theorem Sys.setQueue_procs : (s.setQueue lev pq).procs = s.procs := rfl
@[simp] theorem Sys.setQueue_stride : (s.setQueue lev pq).stride = s.stride := rfl
@[simp] theorem Sys.setQueue_mlfq : (s.setQueue lev pq).mlfq = Function.update s.mlfq lev pq := rfl
@[simp] theorem Sys.setQueue_cpus : (s.setQueue lev pq).cpus = s.cpus := rfl
@[simp] theorem Sys.setQueue_forks : (s.setQueue lev pq).forks = s.forks := rfl
@[simp] theorem Sys.setQueue_badLev : (s.setQueue lev pq).badLev = s.badLev := rfl
@[simp] theorem Sys.setQueue_pushFull : (s.setQueue lev pq).pushFull = s.pushFull := rfl

@[simp] theorem Sys.setCpu_procs : (s.setCpu c ph).procs = s.procs := rfl
@[simp] theorem Sys.setCpu_stride : (s.setCpu c ph).stride = s.stride := rfl
@[simp] theorem Sys.setCpu_mlfq : (s.setCpu c ph).mlfq = s.mlfq := rfl
@[simp] theorem Sys.setCpu_cpus : (s.setCpu c ph).cpus = Function.update s.cpus c ph := rfl
@[simp] theorem Sys.setCpu_forks : (s.setCpu c ph).forks = s.forks := rfl
@[simp] theorem Sys.setCpu_badLev : (s.setCpu c ph).badLev = s.badLev := rfl
@[simp] theorem Sys.setCpu_pushFull : (s.setCpu c ph).pushFull = s.pushFull := rfl

variable (st : ProcState)

@[simp] theorem Sys.setState_procs_self :
    (s.setState p st).procs p = { s.procs p with state := st } := by
  simp [Sys.setState]

theorem Sys.setState_procs_of_ne {q : ProcId} (h : q ≠ p) : (s.setState p st).procs q = s.procs q :=
  Sys.modifyProc_procs_of_ne _ _ _ h

@[simp] theorem Sys.setState_stride : (s.setState p st).stride = s.stride := rfl
@[simp] theorem Sys.setState_mlfq : (s.setState p st).mlfq = s.mlfq := rfl
@[simp] theorem Sys.setState_cpus : (s.setState p st).cpus = s.cpus := rfl
@[simp] theorem Sys.setState_forks : (s.setState p st).forks = s.forks := rfl
@[simp] theorem Sys.setState_badLev : (s.setState p st).badLev = s.badLev := rfl
@[simp] theorem Sys.setState_pushFull : (s.setState p st).pushFull = s.pushFull := rfl

end Lemmas

end Xv6
