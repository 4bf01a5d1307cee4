import Xv6.Lib.CountRing
import Xv6.Lib.Reach

/-!
# `pipe.c`: a pipe and the threads that use it

A pipe is a buffer of `PIPESIZE` bytes with two `uint` counters: `nread` bytes have been
read and `nwrite` written, and byte `x` of the stream is in slot `x % PIPESIZE`. Each of
`pipewrite`, `piperead` and `pipeclose` runs with `p->lock` held, and a thread gives the lock
up only when it returns or sleeps. So a thread's call is a sequence of sections, each one
atomic: a writer copies bytes while the buffer has room (`copyIn`) and, at a full buffer,
returns `-1` or wakes the readers and sleeps on `&p->nwrite`; a reader sleeps on `&p->nread`
while the buffer is empty and the write end open, then copies what is there (`copyOut`) and
wakes the writers. `PipeSys.step` runs any thread's next section, a call, a close or a kill,
so its runs are all the interleavings the lock allows. Each thread is the one LWP of its
process: `kill` sets `p->killed` and makes a `SLEEPING` process `RUNNABLE`, and the scheduler
then resumes the LWP inside `sleep`, so a killed thread's sleep ends. The `kfree` of the page
when both ends are closed is left out.

`QueueSys` is what the pipe is for: a queue of at most `PIPESIZE` bytes, written at the back
and read from the front, with the same threads doing the same things. `PipeSys.abs` reads the
queue off the buffer, and `Xv6.Pipe.Refine` shows that the pipe refines the queue.
-/

set_option autoImplicit false

namespace Xv6.Pipes

/-! ## 1. The code -/

/-- `PIPESIZE`. -/
def pipesize : Nat := 512

/-- `struct pipe` without its lock: the bytes of `data`, the `uint` counters `nread` and
`nwrite`, and whether each end is open. -/
structure Pipe where
  data : Nat → UInt8
  nread : Nat
  nwrite : Nat
  readopen : Bool
  writeopen : Bool

/-- The `for` loop of `pipewrite` from the byte it has got to: while the buffer is not full,
`p->data[p->nwrite++ % PIPESIZE] = addr[i]`. The pipe after the copies, and the bytes still
to copy. -/
def copyIn (p : Pipe) : List UInt8 → Pipe × List UInt8
  | [] => (p, [])
  | b :: bs =>
    if p.nwrite = (p.nread + pipesize) % 2 ^ 32 then (p, b :: bs)
    else
      copyIn
        { p with
          data := Function.update p.data (p.nwrite % pipesize) b
          nwrite := (p.nwrite + 1) % 2 ^ 32 } bs

/-- The `for` loop of `piperead`: up to `n` times, unless the buffer is empty,
`addr[i] = p->data[p->nread++ % PIPESIZE]`. The pipe after it, and the bytes copied. -/
def copyOut (p : Pipe) : Nat → Pipe × List UInt8
  | 0 => (p, [])
  | n + 1 =>
    if p.nread = p.nwrite then (p, [])
    else Prod.map id (List.cons (p.data (p.nread % pipesize)))
      (copyOut { p with nread := (p.nread + 1) % 2 ^ 32 } n)

/-- Where a thread is in the pipe's code. -/
inductive Phase where
  /-- Outside `pipewrite` and `piperead`; `r` and `bytes` are what its last call returned. -/
  | done (r : Int) (bytes : List UInt8)
  /-- In `pipewrite(p, addr, n)`, with the bytes of `addr` it has still to copy. -/
  | write (rest : List UInt8) (n : Nat)
  /-- In `piperead(p, addr, n)`. -/
  | read (n : Nat)
  deriving DecidableEq, Repr

/-- `&p->nread` and `&p->nwrite`, the two channels of the pipe. -/
inductive Chan where
  | nread
  | nwrite
  deriving DecidableEq, Repr

/-- The channel a thread in this phase sleeps on: a writer on `&p->nwrite`, a reader on
`&p->nread`. -/
def Phase.chan : Phase → Option Chan
  | .done _ _ => none
  | .write _ _ => some .nwrite
  | .read _ => some .nread

/-- What a thread in this phase does when it next takes the lock: a section of `pipewrite`,
a section of `piperead`, or nothing outside the pipe's code. -/
def Phase.resume {α : Type} (w : List UInt8 → Nat → α) (r : Nat → α) : Phase → Option α
  | .done _ _ => none
  | .write rest n => some (w rest n)
  | .read n => some (r n)

/-- A thread that uses the pipe: its phase, whether it sleeps (`LWP_SLEEPING` on the channel
of its phase), and `myproc()->killed`. -/
structure Thread where
  phase : Phase
  asleep : Bool
  killed : Bool
  deriving DecidableEq, Repr

section Threads

variable {T : Type} [DecidableEq T]

/-- `wakeup(chan)`: every thread asleep on `chan` becomes runnable. -/
def wakeup (c : Chan) (th : T → Thread) : T → Thread := fun u =>
  if (th u).phase.chan = some c then { th u with asleep := false } else th u

/-- How a section of `pipewrite` ends when its copies leave `rest` to copy: with nothing left,
`wakeup(&p->nread)` and return `n`; at a full buffer, return `-1` if the read end is closed or
the thread killed, else `wakeup(&p->nread)` and `sleep(&p->nwrite)`. -/
def writeEnd (th : T → Thread) (t : T) (readopen : Bool) (rest : List UInt8) (n : Nat) :
    T → Thread :=
  if rest = [] then Function.update (wakeup .nread th) t { th t with phase := .done n [] }
  else if readopen = false ∨ (th t).killed = true then
    Function.update th t { th t with phase := .done (-1) [] }
  else Function.update (wakeup .nread th) t { th t with phase := .write rest n, asleep := true }

/-- A section of `piperead` at an empty buffer with the write end open: return `-1` if the
thread is killed, else `sleep(&p->nread)`. -/
def readWait (th : T → Thread) (t : T) : T → Thread :=
  if (th t).killed = true then Function.update th t { th t with phase := .done (-1) [] }
  else Function.update th t { th t with asleep := true }

/-- The end of `piperead` once it copied `bytes`: `wakeup(&p->nwrite)` and return their
count. -/
def readDone (th : T → Thread) (t : T) (bytes : List UInt8) : T → Thread :=
  Function.update (wakeup .nwrite th) t { th t with phase := .done bytes.length bytes }

/-- A thread outside the pipe's code enters a call of it. -/
def enter (th : T → Thread) (t : T) (ph : Phase) : Option (T → Thread) :=
  if (th t).phase.chan = none then some (Function.update th t { th t with phase := ph }) else none

/-- `kill`: `p->killed = 1`, and a `SLEEPING` process becomes `RUNNABLE`, so that the thread
returns from `sleep` when it is next scheduled. -/
def killThread (th : T → Thread) (t : T) : T → Thread :=
  Function.update th t { th t with killed := true, asleep := false }

end Threads

/-- A pipe and the threads of the system. -/
structure PipeSys (T : Type) where
  pipe : Pipe
  th : T → Thread

/-- What can happen: a thread calls `pipewrite` or `piperead` (through `filewrite` or
`fileread`); a runnable thread in a call takes `p->lock` and runs its next section; an end is
closed (`pipeclose`, from `fileclose`); a thread's process is killed. -/
inductive PipeEv (T : Type) where
  | write (t : T) (src : List UInt8)
  | read (t : T) (n : Nat)
  | run (t : T)
  | close (writable : Bool)
  | kill (t : T)
  deriving DecidableEq, Repr

namespace PipeSys

variable {T : Type} [DecidableEq T]

/-- A section of `pipewrite(p, addr, n)`, with `rest` the bytes of `addr` still to copy. -/
def pipewrite (s : PipeSys T) (t : T) (rest : List UInt8) (n : Nat) : PipeSys T :=
  let c := copyIn s.pipe rest
  ⟨c.1, writeEnd s.th t c.1.readopen c.2 n⟩

/-- A section of `piperead(p, addr, n)`: the `while` loop's test, then the copies. -/
def piperead (s : PipeSys T) (t : T) (n : Nat) : PipeSys T :=
  if s.pipe.nread = s.pipe.nwrite ∧ s.pipe.writeopen = true then ⟨s.pipe, readWait s.th t⟩
  else
    let c := copyOut s.pipe n
    ⟨c.1, readDone s.th t c.2⟩

/-- `pipeclose(p, writable)`: close one end and wake the threads waiting on the other. -/
def pipeclose (s : PipeSys T) (writable : Bool) : PipeSys T :=
  if writable then ⟨{ s.pipe with writeopen := false }, wakeup .nread s.th⟩
  else ⟨{ s.pipe with readopen := false }, wakeup .nwrite s.th⟩

/-- One event; `none` when it cannot happen (a call by a thread already in one, a sleeping
thread or one outside the pipe's code scheduled). -/
def step (s : PipeSys T) : PipeEv T → Option (PipeSys T)
  | .write t src => (enter s.th t (.write src src.length)).map fun th => { s with th }
  | .read t n => (enter s.th t (.read n)).map fun th => { s with th }
  | .run t => if (s.th t).asleep then none else (s.th t).phase.resume (s.pipewrite t) (s.piperead t)
  | .close w => some (s.pipeclose w)
  | .kill t => some { s with th := killThread s.th t }

/-- `pipealloc` on a page whose bytes are `data`, with every thread outside the pipe. -/
def init (data : Nat → UInt8) : PipeSys T :=
  ⟨⟨data, 0, 0, true, true⟩, fun _ => ⟨.done 0 [], false, false⟩⟩

end PipeSys

/-! ## 2. What a pipe is for -/

/-- A queue of at most `PIPESIZE` bytes from the write end to the read end, with the same
threads. -/
structure QueueSys (T : Type) where
  q : List UInt8
  readopen : Bool
  writeopen : Bool
  th : T → Thread

namespace QueueSys

variable {T : Type} [DecidableEq T]

/-- A writer's section: as many bytes of `rest` as there is room for go in at the back. -/
def write (a : QueueSys T) (t : T) (rest : List UInt8) (n : Nat) : QueueSys T :=
  { a with
    q := a.q ++ rest.take (pipesize - a.q.length)
    th := writeEnd a.th t a.readopen (rest.drop (pipesize - a.q.length)) n }

/-- A reader's section: at an empty queue with the write end open it waits; else it takes up
to `n` bytes from the front. -/
def read (a : QueueSys T) (t : T) (n : Nat) : QueueSys T :=
  if a.q = [] ∧ a.writeopen = true then { a with th := readWait a.th t }
  else { a with q := a.q.drop n, th := readDone a.th t (a.q.take n) }

/-- Closing an end wakes the threads waiting on the other. -/
def close (a : QueueSys T) (writable : Bool) : QueueSys T :=
  if writable then { a with writeopen := false, th := wakeup .nread a.th }
  else { a with readopen := false, th := wakeup .nwrite a.th }

/-- One event on the queue. -/
def step (a : QueueSys T) : PipeEv T → Option (QueueSys T)
  | .write t src => (enter a.th t (.write src src.length)).map fun th => { a with th }
  | .read t n => (enter a.th t (.read n)).map fun th => { a with th }
  | .run t => if (a.th t).asleep then none else (a.th t).phase.resume (a.write t) (a.read t)
  | .close w => some (a.close w)
  | .kill t => some { a with th := killThread a.th t }

end QueueSys

/-- The bytes in the pipe, oldest first: slots `nread % PIPESIZE` on to `nwrite`. -/
def Pipe.bytes (p : Pipe) : List UInt8 := CountRing.elems (2 ^ 32) pipesize p.nread p.nwrite p.data

/-- The queue a pipe holds. -/
def PipeSys.abs {T : Type} (s : PipeSys T) : QueueSys T :=
  ⟨s.pipe.bytes, s.pipe.readopen, s.pipe.writeopen, s.th⟩

end Xv6.Pipes
