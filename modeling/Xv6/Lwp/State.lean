import Xv6.Sched.Queue
import Xv6.Lib.Reach

/-!
# Light-weight processes: `lwp.h`, the LWP fields of `proc.h`, and the pool of `lwp.c`

Each process has a table `lwps[NLWPS]` of pointers into the global pool
`struct lwp lwps[MAX_LWPS]`, whose `used` bitmap `alloclwp` and `dealloclwp` keep; the index
`lwp_idx` of the LWP it runs; and the counter `lwp_cnt` that `thread_create` and `allocproc`
take thread ids from. A pointer into the pool is its index `LwpRef`, a null pointer `none`.

Memory is modelled as far as the LWP calls and `growproc` use it: the number of pages on the
free list, and for each process the set of user pages its page directory maps, by page
number. `allocuvm` and `deallocuvm` are the loops of `vm.c` over those pages; the pages of the
page tables themselves are not modelled, so `mappages` fails only by its `remap` panic.

What a blocked LWP will do once it runs again (go round the loop of `thread_join` or
`thread_exit`) is its continuation `Cont`, kept with the LWP: it is what its kernel stack
holds.
-/

set_option autoImplicit false

namespace Xv6.Lwps

/-- `NLWPS`. -/
def nlwps : Nat := 64

/-- `MAX_LWPS`. -/
def maxLwps : Nat := nlwps * nlwps

/-- `PGSIZE`. -/
def pgsize : Nat := 4096

/-- `USERTOP`. -/
def usertop : Nat := 0x7fffe000

/-- `NPAGESPERLWP`. -/
def npagesPerLwp : Nat := 6

instance : NeZero nlwps := ⟨by decide⟩

instance : NeZero maxLwps := ⟨by decide⟩

/-- `PGROUNDUP(sz)`. -/
def pgroundup (sz : Nat) : Nat := (sz + pgsize - 1) / pgsize * pgsize

/-- `PGROUNDDOWN(a)`. -/
def pgrounddown (a : Nat) : Nat := a / pgsize * pgsize

/-- `enum lwpstate`. -/
inductive LwpState where
  | unused
  | embryo
  | sleeping
  | runnable
  | running
  | zombie
  deriving DecidableEq, Repr

/-- The channel of a sleeping LWP: `(void *)tid` in `thread_join`, and the waiting process in
`wait`. A kernel address is never a small number, so the two kinds never meet. -/
inductive Chan where
  | tid (t : Nat)
  | proc (p : ProcId)
  deriving DecidableEq, Repr

/-- What an LWP that has given up its CPU inside a call does when it runs again. -/
inductive Cont where
  /-- It returns to user space: nothing of the kernel is pending. -/
  | user
  /-- It goes round the loop of `thread_join(t)`. -/
  | join (t : Nat)
  /-- It goes round the loop of `thread_exit`. -/
  | exit
  deriving DecidableEq, Repr

/-- `struct lwp`, with the fields the LWP calls read and write. The trapframe and the context
are left out; `kstack` is whether the kernel stack pointer is set. -/
structure Lwp where
  tid : Nat
  ptid : Nat
  stackSz : Nat
  state : LwpState
  kstack : Bool
  chan : Chan
  cont : Cont
  deriving DecidableEq, Repr

/-- The zero-filled `struct lwp`, as the pool starts and as `dealloclwp`'s `memset` leaves it. -/
def Lwp.zero : Lwp := ⟨0, 0, 0, .unused, false, .tid 0, .user⟩

/-- A pointer into the pool `lwps[MAX_LWPS]`. -/
abbrev LwpRef := Fin maxLwps

/-- A slot of a process's table `lwps[NLWPS]`. -/
abbrev Slot := Fin nlwps

/-- The fields of `struct proc` the LWP calls and `growproc` use. -/
structure LProc where
  state : ProcState
  killed : Bool
  sz : Nat
  /-- The user pages of `pgdir`. -/
  pages : Finset Nat
  lwpIdx : Slot
  lwps : Slot → Option LwpRef
  lwpCnt : Nat
  /-- Whether the sleeplock `lock` is held. -/
  locked : Bool
  parent : Option ProcId

/-- A zero-filled slot of `ptable`. -/
def LProc.unused : LProc := ⟨.unused, false, 0, ∅, 0, fun _ => none, 0, false, none⟩

/-- The kernel state of the LWP calls on one CPU, which runs `cur` (if any). -/
structure LSys where
  procs : ProcId → LProc
  pool : LwpRef → Lwp
  used : LwpRef → Bool
  /-- The pages on `kmem.freelist`. -/
  free : Nat
  cur : Option ProcId
  initproc : Option ProcId

/-- The zero-filled tables before `userinit`, with `free` pages on the free list. -/
def LSys.boot (free : Nat) : LSys :=
  ⟨fun _ => LProc.unused, fun _ => Lwp.zero, fun _ => false, free, none, none⟩

/-! ## Updates -/

/-- Apply `f` to the entry of `p` in `ptable`. -/
def LSys.modifyProc (s : LSys) (p : ProcId) (f : LProc → LProc) : LSys :=
  { s with procs := Function.update s.procs p (f (s.procs p)) }

/-- Apply `f` to the pool entry `l`. -/
def LSys.modifyLwp (s : LSys) (l : LwpRef) (f : Lwp → Lwp) : LSys :=
  { s with pool := Function.update s.pool l (f (s.pool l)) }

/-- `p->lwps[i] = l`. -/
def LSys.setSlot (s : LSys) (p : ProcId) (i : Slot) (l : Option LwpRef) : LSys :=
  s.modifyProc p fun pr => { pr with lwps := Function.update pr.lwps i l }

/-- `l->state = st`. -/
def LSys.setLwpState (s : LSys) (l : LwpRef) (st : LwpState) : LSys :=
  s.modifyLwp l fun w => { w with state := st }

/-- `mylwp(p)`: the LWP in slot `lwp_idx`. -/
def LSys.mylwp (s : LSys) (p : ProcId) : Option LwpRef := (s.procs p).lwps (s.procs p).lwpIdx

/-! ## The pool and the free pages -/

/-- The first index from `k` on, among the next `fuel`, whose `used` bit is clear: the order
in which `alloclwp`'s two loops visit the bits. -/
def firstClear (used : LwpRef → Bool) : Nat → Nat → Option LwpRef
  | _, 0 => none
  | k, fuel + 1 =>
    if h : k < maxLwps then
      if used ⟨k, h⟩ then firstClear used (k + 1) fuel else some ⟨k, h⟩
    else none

/-- `alloclwp()`: mark the first clear bit used and the entry `LWP_EMBRYO`; `none` is its `0`. -/
def alloclwp (s : LSys) : Option (LwpRef × LSys) :=
  match firstClear s.used 0 maxLwps with
  | none => none
  | some l => some (l, { s.setLwpState l .embryo with used := Function.update s.used l true })

/-- `dealloclwp(l)`: clear the bit and zero the entry. -/
def dealloclwp (s : LSys) (l : LwpRef) : LSys :=
  { s with used := Function.update s.used l false, pool := Function.update s.pool l Lwp.zero }

/-- `kalloc()` of one page; `none` is its `0`. -/
def kalloc (s : LSys) : Option LSys :=
  if s.free = 0 then none else some { s with free := s.free - 1 }

/-- `kfree` of one page. -/
def kfree (s : LSys) : LSys := { s with free := s.free + 1 }

/-! ## User memory -/

/-- The pages whose start lies in `[lo, hi)`, from the page of `lo`: the addresses
`a = lo, lo + PGSIZE, …` of the loops of `allocuvm` and `deallocuvm` for `lo` page-aligned. -/
def pageRange (lo hi : Nat) : List Nat :=
  List.range' (lo / pgsize) ((hi + pgsize - 1) / pgsize - lo / pgsize)

/-- The loop of `allocuvm` over `ks`: `kalloc` and map each page, until a `kalloc` fails
(`false`, with what is mapped by then). `none` is the `remap` panic of `mappages`. -/
def allocPages (free : Nat) (pages : Finset Nat) : List Nat → Option (Bool × Nat × Finset Nat)
  | [] => some (true, free, pages)
  | k :: ks =>
    if free = 0 then some (false, free, pages)
    else if k ∈ pages then none
    else allocPages (free - 1) (insert k pages) ks

/-- The loop of `deallocuvm` over `ks`: free each mapped page. -/
def freePages (free : Nat) (pages : Finset Nat) : List Nat → Nat × Finset Nat
  | [] => (free, pages)
  | k :: ks =>
    if k ∈ pages then freePages (free + 1) (pages.erase k) ks else freePages free pages ks

/-- `deallocuvm(pgdir, oldsz, newsz)` on the free count and the pages: the new size, or
`oldsz` if it is not smaller. -/
def deallocuvm (free : Nat) (pages : Finset Nat) (oldsz newsz : Nat) : Nat × Nat × Finset Nat :=
  if oldsz ≤ newsz then (oldsz, free, pages)
  else
    let (free, pages) := freePages free pages (pageRange (pgroundup newsz) oldsz)
    (newsz, free, pages)

/-- `allocuvm(pgdir, oldsz, newsz)`: the new size, `0` on failure, with the free count and the
pages; `none` is a panic. -/
def allocuvm (free : Nat) (pages : Finset Nat) (oldsz newsz : Nat) :
    Option (Nat × Nat × Finset Nat) :=
  if usertop < newsz then some (0, free, pages)
  else if newsz < oldsz then some (oldsz, free, pages)
  else
    match allocPages free pages (pageRange (pgroundup oldsz) newsz) with
    | none => none
    | some (true, free, pages) => some (newsz, free, pages)
    | some (false, free, pages) =>
      -- out of memory: `deallocuvm(pgdir, newsz, oldsz)` unmaps the pages of the range
      let (_, free, pages) := deallocuvm free pages newsz oldsz
      some (0, free, pages)

/-- `freevm(pgdir)`: every user page goes back to the free list. -/
def freevm (free : Nat) (pages : Finset Nat) : Nat := free + pages.card

/-- `stack_base_lwp(&lwps[i])`. -/
def stackBase (i : Slot) : Nat := usertop - i.val * npagesPerLwp * pgsize

/-! ## Scans of a process's table -/

/-- `find_empty_lwp()`: the first null slot. -/
def findEmptyLwp (pr : LProc) : Option Slot := (List.finRange nlwps).find? fun i => pr.lwps i = none

/-- `all_lwp(lwps, st)`: every non-null slot is in state `st`. -/
def allLwp (s : LSys) (pr : LProc) (st : LwpState) : Bool :=
  decide (∀ i : Slot, (pr.lwps i).all fun l => (s.pool l).state = st)

/-- The slots `lwp_idx + 1, lwp_idx + 2, …` modulo `NLWPS`, up to and without `lwp_idx`: the
indices `get_runnable_lwp`'s loop tests. -/
def probeOrder (idx : Slot) : List Slot :=
  (List.range (nlwps - 1)).map fun k => ⟨(idx.val + 1 + k) % nlwps, Nat.mod_lt _ (by decide)⟩

/-- The test of `get_runnable_lwp`'s loop at a slot. -/
def runnableOther (s : LSys) (pr : LProc) (i : Slot) : Bool :=
  match pr.lwps i with
  | none => false
  | some l => decide (some l ≠ pr.lwps pr.lwpIdx ∧ (s.pool l).state = .runnable)

/-- `get_runnable_lwp(p)`: the slot the loop stops at is the first other slot holding a
runnable LWP, or `lwp_idx` itself. `none` is a panic (a null slot there, or no kernel stack);
`some none` is its `0`. -/
def getRunnableLwp (s : LSys) (p : ProcId) : Option (Option Slot) :=
  let pr := s.procs p
  let i := ((probeOrder pr.lwpIdx).find? (runnableOther s pr)).getD pr.lwpIdx
  match pr.lwps i with
  | none => none
  | some l =>
    if (s.pool l).kstack = false then none
    else if (s.pool l).state ≠ .runnable then some none
    else some (some i)

/-! ## Switching and sleeping -/

/-- `swtchlwp1(&p->lwps[i])` from `p`'s current LWP: nothing if it is that LWP; else `p` now
runs slot `i`, which becomes `LWP_RUNNING`. `none` is a panic of `switchlwpkm`. -/
def swtchlwp1 (s : LSys) (p : ProcId) (i : Slot) : Option LSys :=
  match (s.procs p).lwps i with
  | none => none
  | some l =>
    if s.mylwp p = some l then some s
    else if (s.pool l).kstack = false then none
    else some ((s.modifyProc p fun pr => { pr with lwpIdx := i }).setLwpState l .running)

/-- `p->state = SLEEPING; sched()`: the CPU goes back to the scheduler. -/
def parkProc (s : LSys) (p : ProcId) : LSys :=
  { s.modifyProc p fun pr => { pr with state := .sleeping } with cur := none }

/-- After the current LWP of `p` has stopped running (asleep or a zombie): switch to another
runnable LWP of `p` if `get_runnable_lwp` finds one, else park the process. -/
def switchAway (s : LSys) (p : ProcId) : Option LSys :=
  match getRunnableLwp s p with
  | none => none
  | some (some i) => if i = (s.procs p).lwpIdx then some (parkProc s p) else swtchlwp1 s p i
  | some none => some (parkProc s p)

/-- `sleep(chan, &ptable.lock)` of the current LWP `l` of `p`, which will go on with `k`. -/
def sleepLwp (s : LSys) (p : ProcId) (l : LwpRef) (c : Chan) (k : Cont) : Option LSys :=
  switchAway (s.modifyLwp l fun w => { w with chan := c, state := .sleeping, cont := k }) p

/-- `wakeup1(chan)` of `lwp.c`: the LWPs of `p` asleep on `chan` become runnable, and so does
`p` if it sleeps. -/
def wakeupLwps (s : LSys) (p : ProcId) (c : Chan) : LSys :=
  let pr := s.procs p
  let asleep : LwpRef → Bool := fun l => decide ((s.pool l).state = .sleeping ∧ (s.pool l).chan = c)
  let anyHit := decide (∃ i, (pr.lwps i).any asleep = true)
  { s with
    pool := fun l =>
      if decide (∃ i, pr.lwps i = some l) && asleep l then { s.pool l with state := .runnable }
      else s.pool l
    procs := if anyHit ∧ pr.state = .sleeping then
        Function.update s.procs p { pr with state := .runnable } else s.procs }

/-- `wakeup1(chan)` of `proc.c`: the same in every process. -/
def wakeupAll (s : LSys) (c : Chan) : LSys :=
  (List.finRange nproc).foldl (fun s p => wakeupLwps s p c) s

end Xv6.Lwps
