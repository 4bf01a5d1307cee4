import Xv6.Lib.Reach
import Xv6.Lib.Count

/-!
# The readers-writer lock of `rwlock.c` and the semaphore of `semaphore.c`

One `rwlock_t`, initialised by `rwlock_init`, shared by the threads (LWPs, of one process or
of several) of a finite type `T`. Each thread is at a program counter `Pc`. A step runs one
thread through one section under a spinlock, taken as atomic: the critical sections of
`rwlock->lk` in the four calls, and those of the semaphore's own `lk` in `xem_wait` and
`xem_unlock`. A section that needs `rwlock->lk` waits while another thread holds it (the step
is disabled); `lk` is held across steps only by the first reader at its `xem_wait` and by the
last reader at its `xem_unlock`, which run inside `rwlock->lk`.

`sleep(chan, lk)` releases `lk` and leaves the thread at a sleeping counter; `wakeup(chan)`
(`wakeup1`) sends every thread asleep on `chan` back to the head of its loop, which takes the
lock again and tests again. The two channels are the rwlock and its semaphore `write`.
The counters `num_readers` and `num_writers` are `uint`; they are `Nat` here, which changes
nothing while no decrement finds 0, as the invariant shows.
-/

set_option autoImplicit false

namespace Xv6.Rwlock

/-! ## 1. Threads and state -/

/-- Where a thread is in the calls on the lock. -/
inductive Pc where
  /-- Outside the four calls. -/
  | idle
  /-- In `rwlock_acquire_readlock`, about to take `lk` and test `num_writers`: on entry and
  after each wakeup. -/
  | readEnter
  /-- Asleep on the rwlock in `rwlock_acquire_readlock`'s loop. -/
  | readSleep
  /-- The first reader, holding `lk`, at `xem_wait(&rwlock->write)`. -/
  | readSem
  /-- The first reader asleep in `xem_wait`, still holding `lk`. -/
  | readSemSleep
  /-- Holding the lock for reading. -/
  | reading
  /-- The last reader, holding `lk`, at `xem_unlock(&rwlock->write)`. -/
  | readPost
  /-- In `rwlock_acquire_writelock`, about to take `lk` and count itself. -/
  | writeEnter
  /-- At `xem_wait(&rwlock->write)` in `rwlock_acquire_writelock`: on entry and after each
  wakeup. -/
  | writeSem
  /-- Asleep in that `xem_wait`. -/
  | writeSemSleep
  /-- Holding the lock for writing. -/
  | writing
  /-- In `rwlock_release_writelock`, after its `xem_unlock`, about to take `lk` and
  decrement `num_writers`. -/
  | writeDec
  /-- About to `wakeup(rwlock)`. -/
  | writeWake
  deriving DecidableEq, Repr

/-- The channels a thread sleeps on: the rwlock, and its semaphore `write`. -/
inductive Chan where
  | rwlock
  | write
  deriving DecidableEq, Repr

/-- The lock's fields and where each thread is. -/
structure RwState (T : Type) where
  numReaders : Nat
  numWriters : Nat
  /-- `write.lock_caps`. -/
  lockCaps : Int
  pc : T → Pc

/-- `rwlock_init`: no reader, no writer, `xem_init(&rwlock->write, 1)`; every thread outside
the calls. -/
def rwlockInit (T : Type) : RwState T := ⟨0, 0, 1, fun _ => .idle⟩

variable {T : Type} [DecidableEq T]

/-- Thread `t` moves to `p`. -/
def RwState.setPc (s : RwState T) (t : T) (p : Pc) : RwState T :=
  { s with pc := Function.update s.pc t p }

/-- The thread holds `rwlock->lk` between steps. -/
def Pc.holdsLk : Pc → Bool
  | .readSem | .readSemSleep | .readPost => true
  | _ => false

/-- No thread holds `rwlock->lk`: `acquire(&rwlock->lk)` goes through. -/
def lkFree [Fintype T] (s : RwState T) : Bool := decide (∀ u, (s.pc u).holdsLk = false)

/-! ## 2. `sleep` and `wakeup` -/

/-- The channel a sleeping thread sleeps on. -/
def Pc.sleepsOn : Pc → Option Chan
  | .readSleep => some .rwlock
  | .readSemSleep | .writeSemSleep => some .write
  | _ => none

/-- Where a thread asleep goes when woken: the head of its loop. -/
def Pc.resume : Pc → Pc
  | .readSleep => .readEnter
  | .readSemSleep => .readSem
  | .writeSemSleep => .writeSem
  | p => p

/-- `wakeup(chan)`: every thread asleep on `chan` is runnable again. -/
def wakeup (s : RwState T) (c : Chan) : RwState T :=
  { s with pc := fun u => if (s.pc u).sleepsOn = some c then (s.pc u).resume else s.pc u }

/-! ## 3. The semaphore -/

/-- One pass of `xem_wait`'s loop under the semaphore's lock: while `lock_caps <= 0`, sleep on
the semaphore; else take a unit and go on to `done`. -/
def xemWait (s : RwState T) (t : T) (asleep done : Pc) : RwState T :=
  if s.lockCaps ≤ 0 then s.setPc t asleep
  else { s.setPc t done with lockCaps := s.lockCaps - 1 }

/-- `xem_unlock`: give the unit back and wake the semaphore's sleepers. -/
def xemUnlock (s : RwState T) : RwState T :=
  wakeup { s with lockCaps := s.lockCaps + 1 } .write

/-! ## 4. The sections of `rwlock.c` -/

/-- `rwlock_acquire_readlock` from `acquire(&rwlock->lk)`: sleep while a writer is counted;
else count itself, and the first reader goes on to `xem_wait` still holding `lk`. -/
def acquireReadlockEnter (s : RwState T) (t : T) : RwState T :=
  if 0 < s.numWriters then s.setPc t .readSleep
  else
    let numReaders := s.numReaders + 1
    { s.setPc t (if numReaders = 1 then .readSem else .reading) with numReaders }

/-- `rwlock_release_readlock` up to its test: the last reader goes on to `xem_unlock` still
holding `lk`. -/
def releaseReadlockEnter (s : RwState T) (t : T) : RwState T :=
  let numReaders := s.numReaders - 1
  { s.setPc t (if numReaders = 0 then .readPost else .idle) with numReaders }

/-- `rwlock_acquire_writelock`'s critical section. -/
def acquireWritelockEnter (s : RwState T) (t : T) : RwState T :=
  { s.setPc t .writeSem with numWriters := s.numWriters + 1 }

/-- `rwlock_release_writelock`'s critical section, after its `xem_unlock`. -/
def releaseWritelockDec (s : RwState T) (t : T) : RwState T :=
  { s.setPc t .writeWake with numWriters := s.numWriters - 1 }

/-- The section thread `t` runs next; `none` while it sleeps, is outside the calls, or waits
for `rwlock->lk`. -/
def runThread [Fintype T] (s : RwState T) (t : T) : Option (RwState T) :=
  match s.pc t with
  | .readEnter => if lkFree s then some (acquireReadlockEnter s t) else none
  | .readSem => some (xemWait s t .readSemSleep .reading)
  | .reading => if lkFree s then some (releaseReadlockEnter s t) else none
  | .readPost => some ((xemUnlock s).setPc t .idle)
  | .writeEnter => if lkFree s then some (acquireWritelockEnter s t) else none
  | .writeSem => some (xemWait s t .writeSemSleep .writing)
  | .writing => some ((xemUnlock s).setPc t .writeDec)
  | .writeDec => if lkFree s then some (releaseWritelockDec s t) else none
  | .writeWake => some ((wakeup s .rwlock).setPc t .idle)
  | .idle | .readSleep | .readSemSleep | .writeSemSleep => none

/-- The events: a thread outside the calls calls `rwlock_acquire_readlock` or
`rwlock_acquire_writelock`, or a thread runs its next section (a thread holding the lock
runs the matching release). -/
inductive RwEvent (T : Type) where
  | acquireRead (t : T)
  | acquireWrite (t : T)
  | run (t : T)
  deriving DecidableEq, Repr

def rwStep [Fintype T] (s : RwState T) : RwEvent T → Option (RwState T)
  | .acquireRead t => if s.pc t = .idle then some (s.setPc t .readEnter) else none
  | .acquireWrite t => if s.pc t = .idle then some (s.setPc t .writeEnter) else none
  | .run t => runThread s t

/-- The states of any interleaving of the threads' calls from `rwlock_init`. -/
def RwReachable [Fintype T] (s : RwState T) : Prop :=
  Reach.Reachable rwStep (fun _ _ => True) (rwlockInit T) s

/-! ## 5. Field lemmas -/

section Lemmas

variable (s : RwState T) (t : T) (p : Pc)

@[simp] theorem setPc_pc_self : (s.setPc t p).pc t = p := by simp [RwState.setPc]

theorem setPc_pc_of_ne {u : T} (h : u ≠ t) : (s.setPc t p).pc u = s.pc u := by
  simp [RwState.setPc, Function.update_of_ne h]

@[simp] theorem setPc_numReaders : (s.setPc t p).numReaders = s.numReaders := rfl
@[simp] theorem setPc_numWriters : (s.setPc t p).numWriters = s.numWriters := rfl
@[simp] theorem setPc_lockCaps : (s.setPc t p).lockCaps = s.lockCaps := rfl

omit [DecidableEq T] in
@[simp] theorem wakeup_numReaders (c : Chan) : (wakeup s c).numReaders = s.numReaders := rfl
omit [DecidableEq T] in
@[simp] theorem wakeup_numWriters (c : Chan) : (wakeup s c).numWriters = s.numWriters := rfl
omit [DecidableEq T] in
@[simp] theorem wakeup_lockCaps (c : Chan) : (wakeup s c).lockCaps = s.lockCaps := rfl

end Lemmas

end Xv6.Rwlock
