import Xv6.Lwp.State

/-!
# The LWP calls and the process calls that touch LWPs, as a state machine

`thread_create`, one round of the loops of `thread_join` and `thread_exit`, `exit`,
`growproc`, the LWP part of a successful `exec`, `trap`'s switch to another runnable LWP on
a timer tick, and `allocproc`/`userinit`.

The events are those of one CPU: `userinit`; the scheduler dispatching a `RUNNABLE` process;
the running process yielding; and a call or a tick of the LWP it runs. The scheduler may
dispatch any `RUNNABLE` process here: the stride and MLFQ policy that picks one is the
subject of `Xv6.Sched`. An LWP that went to sleep inside `thread_join`, or stopped inside
`thread_exit`, first finishes that call when it runs again (`Event.resume`), still holding
`ptable.lock`, so nothing else happens on the CPU before. `fork` and `wait` are not events of
this model.
-/

set_option autoImplicit false

namespace Xv6.Lwps

/-! ## `allocproc` and `userinit` -/

/-- `allocproc()` up to its kernel stack: the first `UNUSED` slot becomes `EMBRYO` with
`lwps[0] = alloclwp()` of tid `lwp_cnt++`. If `kalloc` fails the slot goes back to `UNUSED`
and `0` is returned (`some (none, _)`); `none` is the panic of a null `alloclwp`. -/
def allocproc (s : LSys) : Option (Option ProcId × LSys) :=
  match (List.finRange nproc).find? (fun p => (s.procs p).state = .unused) with
  | none => some (none, s)
  | some p =>
    match alloclwp s with
    | none => none
    | some (l, s) =>
      let s := (s.modifyProc p fun pr =>
        { pr with state := .embryo, lwpIdx := 0, lwps := Function.update pr.lwps 0 (some l),
                  lwpCnt := pr.lwpCnt + 1 }).modifyLwp l fun w => { w with tid := (s.procs p).lwpCnt }
      match kalloc s with
      | none => some (none, s.modifyProc p fun pr => { pr with state := .unused })
      | some s => some (some p, s.modifyLwp l fun w => { w with kstack := true })

/-- `userinit()`: `allocproc`, one page of `initcode`, `RUNNABLE` with its LWP. A failure of
`allocproc` or of `inituvm`'s `kalloc` is a panic. -/
def userinit (s : LSys) : Option LSys :=
  match allocproc s with
  | some (some p, s) =>
    match kalloc s, s.mylwp p with
    | some s, some l =>
      let s := (s.modifyProc p fun pr =>
        { pr with sz := pgsize, pages := {0}, state := .runnable }).setLwpState l .runnable
      some { s with initproc := some p }
    | _, _ => none
  | _ => none

/-! ## `thread_create` -/

/-- `thread_create` by `cur`, the running LWP of `p`: the tid it stores through `thread` (and
returns `0`), or `-1`; `none` is a panic (`Bad LWP`, when `allocuvm` fails for the stack).
The `copyout` of the two words of the new stack cannot fail, as it writes into the page that
`allocuvm` has just mapped for the user. -/
def threadCreate (s : LSys) (p : ProcId) (cur : LwpRef) : Option (Int × LSys) :=
  match alloclwp s with
  | none => some (-1, s)
  | some (l, s1) =>
    match kalloc s1 with
    | none => some (-1, dealloclwp s1 l)
    | some s2 =>
      let s3 := (s2.modifyLwp l fun w => { w with kstack := true }).setLwpState l .runnable
      match findEmptyLwp (s3.procs p) with
      | none => some (-1, dealloclwp (kfree s3) l)
      | some i =>
        match allocuvm s3.free (s3.procs p).pages (stackBase i - 2 * pgsize) (stackBase i) with
        | none => none
        | some (0, _, _) => none
        | some (_, free, pages) =>
          let tid := (s3.procs p).lwpCnt
          let s4 := { s3.modifyProc p fun pr => { pr with pages, lwpCnt := pr.lwpCnt + 1 } with free }
          let s5 := s4.modifyLwp l fun w =>
            { w with stackSz := 2 * pgsize, tid, ptid := (s.pool cur).tid }
          some (tid, s5.setSlot p i (some l))

/-! ## `thread_join` -/

/-- The slot holding LWP `t` if it is `LWP_ZOMBIE`: the first slot `thread_join`'s loop reaps. -/
def zombieSlot (s : LSys) (pr : LProc) (t : Nat) : Option Slot :=
  (List.finRange nlwps).find? fun i =>
    (pr.lwps i).any fun l => decide ((s.pool l).tid = t ∧ (s.pool l).state = .zombie)

/-- Whether some slot holds an LWP of tid `t` (`found`). -/
def hasTid (s : LSys) (pr : LProc) (t : Nat) : Bool :=
  decide (∃ i, (pr.lwps i).any fun l => decide ((s.pool l).tid = t))

/-- Reaping the zombie of slot `i`: free its user stack, its kernel stack and its pool entry,
and clear the slot. `none` is the panic of a `deallocuvm` that returns `0`. -/
def reapSlot (s : LSys) (p : ProcId) (i : Slot) (l : LwpRef) : Option LSys :=
  let pr := s.procs p
  match deallocuvm s.free pr.pages (stackBase i) (stackBase i - 2 * pgsize) with
  | (0, _, _) => none
  | (_, free, pages) =>
    let s := { s.modifyProc p fun pr => { pr with pages } with free }
    let s := kfree (s.modifyLwp l fun w => { w with kstack := false })
    some ((dealloclwp s l).setSlot p i none)

/-- One round of `thread_join(t)`'s loop by `cur`, the running LWP of `p`: it returns `0`
having reaped the zombie of tid `t`, returns `-1` if there is no LWP of tid `t` or `p` is
killed, or sleeps on the channel of its own tid (`some (none, _)`). -/
def threadJoin (s : LSys) (p : ProcId) (cur : LwpRef) (t : Nat) : Option (Option Int × LSys) :=
  let pr := s.procs p
  match zombieSlot s pr t with
  | some i =>
    match pr.lwps i with
    | some l => (reapSlot s p i l).map fun s => (some 0, s)
    | none => none
  | none =>
    if !hasTid s pr t || pr.killed then
      some (some (-1), s)
    else
      (sleepLwp s p cur (.tid (s.pool cur).tid) (.join t)).map fun s => (none, s)

/-! ## `thread_exit` and `exit` -/

/-- The loop of `thread_exit` that passes the children of the LWP of tid `tid` to the main
LWP: `ptid = 0`, and `wakeup1(0)` for each such child that is a zombie. -/
def reparentLwps (s : LSys) (p : ProcId) (tid : Nat) : LSys :=
  (List.finRange nlwps).foldl (fun s i =>
    match (s.procs p).lwps i with
    | none => s
    | some l =>
      if (s.pool l).ptid = tid then
        let s := s.modifyLwp l fun w => { w with ptid := 0 }
        if (s.pool l).state = .zombie then wakeupLwps s p (.tid 0) else s
      else s) s

/-- `exit()` of `p`: panics for `initproc`; wakes the parent, passes the children to
`initproc`, and `p` and every LWP of it become zombies as the CPU goes back to the
scheduler. Files and the working directory are not modelled. -/
def exitProc (s : LSys) (p : ProcId) : Option LSys :=
  if s.initproc = some p then none
  else
    let s := match (s.procs p).parent with
      | some q => wakeupAll s (.proc q)
      | none => s
    let s := (List.finRange nproc).foldl (fun s q =>
      if (s.procs q).parent = some p then
        let s := s.modifyProc q fun pr => { pr with parent := s.initproc }
        match (s.procs q).state, s.initproc with
        | .zombie, some i => wakeupAll s (.proc i)
        | _, _ => s
      else s) s
    let pr := s.procs p
    let s := (List.finRange nlwps).foldl (fun s i =>
      match pr.lwps i with
      | some l => s.setLwpState l .zombie
      | none => s) s
    some { s.modifyProc p fun pr => { pr with state := .zombie } with cur := none }

/-- One round of `thread_exit`'s loop by `cur`, the running LWP of `p`: wake the parent LWP,
pass the children on, `exit()` if every LWP is a zombie; else `cur` becomes a zombie and the
CPU goes to another runnable LWP of `p`, or `p` sleeps. -/
def threadExit (s : LSys) (p : ProcId) (cur : LwpRef) : Option LSys :=
  let me := s.pool cur
  let s := wakeupLwps s p (.tid me.ptid)
  let s := reparentLwps s p me.tid
  if allLwp s (s.procs p) .zombie then exitProc s p
  else switchAway (s.modifyLwp cur fun w => { w with state := .zombie, cont := .exit }) p

/-! ## `growproc` and `exec` -/

/-- `sz + n` in `uint` arithmetic. -/
def uintAdd (sz : Nat) (n : Int) : Nat := ((sz + n) % 2 ^ 32).toNat

/-- The slot `growproc` scans down to: the last non-null one, or slot 0. -/
def lastLwpSlot (pr : LProc) : Slot :=
  ((List.finRange nlwps).reverse.find? fun i => pr.lwps i ≠ none).getD 0

/-- `growproc(n)` of `p`, once it holds its sleeplock: `-1` when `sz + n` passes the stack of
the last LWP or `allocuvm`/`deallocuvm` returns `0`, else `0` with the new size; only the
success path releases the lock. `none` is a panic. -/
def growprocLocked (s : LSys) (p : ProcId) (n : Int) : Option (Int × LSys) :=
  let pr := s.procs p
  let fin := fun (sz free : Nat) (pages : Finset Nat) =>
    (0, { s.modifyProc p fun pr => { pr with sz, pages, locked := false } with free })
  if 0 < n then
    match pr.lwps (lastLwpSlot pr) with
    | none => none
    | some l =>
      if stackBase (lastLwpSlot pr) - (s.pool l).stackSz < uintAdd pr.sz n then some (-1, s)
      else
        match allocuvm s.free pr.pages pr.sz (uintAdd pr.sz n) with
        | none => none
        | some (0, free, pages) =>
          some (-1, { s.modifyProc p fun pr => { pr with pages } with free })
        | some (sz, free, pages) => some (fin sz free pages)
  else if n < 0 then
    match deallocuvm s.free pr.pages pr.sz (uintAdd pr.sz n) with
    | (0, free, pages) => some (-1, { s.modifyProc p fun pr => { pr with pages } with free })
    | (sz, free, pages) => some (fin sz free pages)
  else some (fin pr.sz s.free pr.pages)

/-- `growproc(n)`: `acquiresleep(&curproc->lock)`, which waits (the step is disabled here)
while the lock is held, then `growprocLocked`. -/
def growproc (s : LSys) (p : ProcId) (n : Int) : Option (Int × LSys) :=
  if (s.procs p).locked then none
  else growprocLocked (s.modifyProc p fun pr => { pr with locked := true }) p n

/-- The user pages of the image `exec` builds for a program of `sz` bytes: the program from 0
and the two stack pages below `USERTOP`. -/
def execPages (sz : Nat) : List Nat :=
  pageRange 0 sz ++ pageRange (pgrounddown (usertop - 2 * pgsize)) usertop

/-- `exec` of a program of `sz` bytes by the running LWP of `p`, from `acquiresleep` on: load
the image into a new page directory, then the LWP reset — the caller moves to slot 0 keeping
its tid, every other LWP is freed, `lwp_cnt = 1` — and the new image replaces the old one,
whose pages are freed. When the pages run out `exec` returns `-1` through `bad`, which frees
the new image and releases the sleeplock. -/
def execLwps (s : LSys) (p : ProcId) (sz : Nat) : Option (Int × LSys) :=
  if (s.procs p).locked then none
  else
    let s := s.modifyProc p fun pr => { pr with locked := true }
    match allocPages s.free ∅ (execPages sz) with
    | none => none
    | some (false, free, pages) =>
      some (-1, { s.modifyProc p fun pr => { pr with locked := false } with free := freevm free pages })
    | some (true, free, pages) => do
      let pr := s.procs p
      let me ← pr.lwps pr.lwpIdx
      let lwps := Function.update (Function.update pr.lwps pr.lwpIdx (pr.lwps 0)) 0 (some me)
      -- every other LWP loses its kernel stack (`kfree` of a null one panics) and its entry
      let s ← (List.finRange nlwps).foldlM (fun s i =>
        if i = 0 then some s
        else match lwps i with
          | some l => if (s.pool l).kstack then some (dealloclwp (kfree s) l) else none
          | none => some s) { s with free }
      let s := { s with free := freevm s.free pr.pages }
      let s := s.modifyProc p fun pr' =>
        { pr' with lwps := fun i => if i = 0 then some me else none, lwpIdx := 0, lwpCnt := 1,
                   sz, pages, locked := false }
      some (0, s.modifyLwp me fun w => { w with stackSz := 2 * pgsize })

/-! ## The timer tick -/

/-- The end of `trap` on a timer tick of `p`: if `get_runnable_lwp` finds another runnable
LWP, the running one becomes `LWP_RUNNABLE` and `p` switches to it. -/
def tickSwitch (s : LSys) (p : ProcId) : Option LSys :=
  match getRunnableLwp s p with
  | none => none
  | some none => some s
  | some (some i) =>
    if i = (s.procs p).lwpIdx then some s
    else
      match s.mylwp p with
      | some l => swtchlwp1 (s.setLwpState l .runnable) p i
      | none => none

/-! ## Events -/

/-- What the running LWP does. -/
inductive Call where
  | threadCreate
  | threadJoin (t : Nat)
  | threadExit
  | growproc (n : Int)
  | exec (sz : Nat)
  | tick
  | yield
  deriving DecidableEq, Repr

inductive Event where
  | userinit
  | dispatch (p : ProcId)
  /-- The running LWP, back from a sleep or a switch inside a call, goes on with it. -/
  | resume
  | call (c : Call)
  deriving DecidableEq, Repr

/-- The running process and its running LWP, when that LWP is back in user space. -/
def LSys.running (s : LSys) : Option (ProcId × LwpRef) :=
  match s.cur with
  | none => none
  | some p =>
    match s.mylwp p with
    | none => none
    | some l => if (s.pool l).cont = .user then some (p, l) else none

/-- The call `c` of the LWP `l` that process `p` runs. -/
def doCall (s : LSys) (p : ProcId) (l : LwpRef) : Call → Option LSys
  | .threadCreate => (threadCreate s p l).map Prod.snd
  | .threadJoin t => (threadJoin s p l t).map Prod.snd
  | .threadExit => threadExit s p l
  | .growproc n => (growproc s p n).map Prod.snd
  | .exec sz => (execLwps s p sz).map Prod.snd
  | .tick => tickSwitch s p
  | .yield =>
    some { (s.modifyProc p fun pr => { pr with state := .runnable }).setLwpState l .runnable with
      cur := none }

/-- The LWP `l` that `p` runs goes on with the call it was inside: `sleep`'s tidy-up
`lwp->chan = 0`, then another round of `thread_join`'s loop, or of `thread_exit`'s. -/
def resumeCall (s : LSys) (p : ProcId) (l : LwpRef) : Option LSys :=
  match (s.pool l).cont with
  | .user => none
  | .join t =>
    let s := s.modifyLwp l fun w => { w with chan := .tid 0, cont := .user }
    (threadJoin s p l t).map Prod.snd
  | .exit => threadExit s p l

def step (s : LSys) : Event → Option LSys
  | .userinit => if s.initproc = none then userinit s else none
  | .dispatch p =>
    if s.cur = none ∧ (s.procs p).state = .runnable then
      some { s.modifyProc p fun pr => { pr with state := .running } with cur := some p }
    else none
  | .resume =>
    match s.cur with
    | none => none
    | some p =>
      match s.mylwp p with
      | none => none
      | some l => resumeCall s p l
  | .call c =>
    match s.running with
    | none => none
    | some (p, l) => doCall s p l c

/-- The states reached from the zero-filled tables with `free` pages on the free list. -/
def LReachable (free : Nat) (s : LSys) : Prop :=
  Reach.Reachable step (fun _ _ => True) (LSys.boot free) s

end Xv6.Lwps
