import Xv6.Fs.File
import Xv6.Lib.DList
import Xv6.Lib.Reach

/-!
# `bio.c`: the buffer cache

`bcache` holds `NBUF` buffers, each a copy of one disk block, on a circular doubly linked list
through `prev` and `next` around `bcache.head`, most recently used first. `bread(dev, blockno)`
calls `bget`, which under `bcache.lock` looks for a buffer of the block from the front, and
otherwise recycles the least recently used buffer that no one references and that the log has
not pinned (`B_DIRTY`), from the back; it panics with `bget: no buffers` when there is none.
`bget` then takes the buffer's sleep lock, and `bread` reads the block from the disk unless the
buffer is `B_VALID`. The holder changes `b->data`, and either writes it back (`bwrite`) or has
`log_write` pin it with `B_DIRTY`, which also keeps `bget` from recycling it. `brelse` gives up
the sleep lock and then, under `bcache.lock`, drops the reference, and moves the buffer to the
front of the list when it was the last.

Here a thread is one use of one buffer, from `bread` to `brelse`: a process that holds two
buffers at once, as `write_log` does, is two threads. A thread's place in that use is a
`Phase`, and `BCache.step` runs one thread's next atomic section: `bget`'s section under
`bcache.lock`; `acquiresleep` with `bread`'s read, which no other thread can observe since
it holds the sleep lock; the holder's write to `b->data`, its `bwrite` or its `log_write` pin;
and the two sections of `brelse`. An `acquiresleep` that would sleep is a step that cannot
happen yet. The list is kept as the source keeps it, as the `next` and `prev` fields of every
node (`Xv6.Lib.DList`); `iderw` reads and writes the disk at once, its queue and interrupt
left out.

What the cache is for is `BlockStore`: a disk whose blocks a thread locks, changes, writes
back and unlocks, the contents a `bread` returns being those of the last change.
`Xv6.Bio.Refine` shows that the cache refines it, as long as the file system keeps the rule of
`bio.c`'s header: a buffer is written or pinned before it is released, once changed.
-/

set_option autoImplicit false

namespace Xv6.Bio

open Xv6.Fs

/-! ## 1. The code -/

/-- `NBUF`, the number of buffers: `MAXOPBLOCKS*3`. -/
def nbuf : Nat := maxopblocks * 3

/-- `FSSIZE`: `idestart` panics with `incorrect blockno` at or past it. -/
def fssize : Nat := 40000

/-- `struct buf` without its links: its `flags` as the two bits `B_VALID` and `B_DIRTY`, the
block, the sleep lock as the thread that holds it (`lk->locked` with `lk->pid`), `refcnt`
and `data`. -/
structure Buf (T : Type) where
  valid : Bool
  dirty : Bool
  dev : Nat
  blockno : Nat
  lock : Option T
  refcnt : Nat
  data : Block

/-- What `binit` leaves in each buffer of the zeroed `bcache`. -/
def Buf.zero {T : Type} : Buf T := ⟨false, false, 0, 0, none, 0, Block.zero⟩

/-- The block the buffer caches. -/
def Buf.key {T : Type} (b : Buf T) : Nat × Nat := (b.dev, b.blockno)

@[simp] theorem Buf.key_eq {T : Type} (b : Buf T) : b.key = (b.dev, b.blockno) := rfl

/-- The test of `bget`'s first loop: `b->dev == dev && b->blockno == blockno`. -/
def Buf.isFor {T : Type} (b : Buf T) (dev blockno : Nat) : Bool := b.dev == dev && b.blockno == blockno

/-- The test of its second loop: `b->refcnt == 0 && (b->flags & B_DIRTY) == 0`. -/
def Buf.free {T : Type} (b : Buf T) : Bool := b.refcnt == 0 && !b.dirty

/-- Where a thread is in its use of a buffer. -/
inductive Phase where
  /-- Not using a buffer. -/
  | idle
  /-- `bget` returned buffer `i` from its section under `bcache.lock`; `acquiresleep` next. -/
  | locking (i : Fin nbuf)
  /-- It holds the sleep lock of buffer `i`. -/
  | holding (i : Fin nbuf)
  /-- In `brelse(i)`, after `releasesleep`. -/
  | releasing (i : Fin nbuf)
  deriving DecidableEq, Repr

/-- The buffer a thread in this phase holds a reference to. -/
def Phase.buf? : Phase → Option (Fin nbuf)
  | .idle => none
  | .locking i | .holding i | .releasing i => some i

/-- `bcache`, the disk, and the threads. A node of the list is a buffer, or `none` for
`bcache.head`. The disk is indexed by device and block number. -/
structure BCache (T : Type) where
  buf : Fin nbuf → Buf T
  links : DList.Ptrs (Option (Fin nbuf))
  disk : Nat × Nat → Block
  th : T → Phase

/-- What can happen: a thread calls `bread` and runs `bget`'s locked section; it takes the
sleep lock and reads the block if need be; the holder changes `b->data`, calls `bwrite`, or
has `log_write` set `B_DIRTY`; it calls `brelse`, which gives up the sleep lock and then runs
its locked section. -/
inductive BioEv (T : Type) where
  | bget (t : T) (dev blockno : Nat)
  | acquire (t : T)
  | write (t : T) (blk : Block)
  | bwrite (t : T)
  | pin (t : T)
  | release (t : T)
  | brelse (t : T)

/-- `iderw(b)` on a locked buffer, at once: with `B_DIRTY` it writes `b->data` to the disk,
else it reads the block into it, and either way leaves `B_VALID` and not `B_DIRTY`. Its panics
are `iderw: nothing to do` for a valid clean buffer and `idestart`'s `incorrect blockno`. -/
def iderw {T : Type} (b : Buf T) (disk : Nat × Nat → Block) :
    Except String (Buf T × (Nat × Nat → Block)) :=
  if b.valid = true ∧ b.dirty = false then .error "iderw: nothing to do"
  else if fssize ≤ b.blockno then .error "incorrect blockno"
  else if b.dirty = true then
    .ok ({ b with valid := true, dirty := false }, Function.update disk b.key b.data)
  else .ok ({ b with valid := true, data := disk b.key }, disk)

namespace BCache

variable {T : Type}

def setBuf (s : BCache T) (i : Fin nbuf) (b : Buf T) : BCache T :=
  { s with buf := Function.update s.buf i b }

/-- A test of buffers, on the nodes of the list: the head fails it. -/
def onBuf (s : BCache T) (test : Buf T → Bool) : Option (Fin nbuf) → Bool
  | some i => test (s.buf i)
  | none => false

/-- `bget`'s section under `bcache.lock`: the buffer it returns, with `refcnt` counting the
caller. -/
def bget (s : BCache T) (dev blockno : Nat) : Except String (Fin nbuf × BCache T) :=
  -- Is the block already cached?
  match DList.scan none s.links.next (s.onBuf fun b => b.isFor dev blockno) (nbuf + 1)
      (s.links.next none) with
  | some (some i) => .ok (i, s.setBuf i { s.buf i with refcnt := (s.buf i).refcnt + 1 })
  | _ =>
    -- Not cached; recycle an unused buffer, from the least recently used end.
    match DList.scan none s.links.prev (s.onBuf Buf.free) (nbuf + 1) (s.links.prev none) with
    | some (some i) =>
      .ok (i, s.setBuf i { s.buf i with dev, blockno, valid := false, dirty := false, refcnt := 1 })
    | _ => .error "bget: no buffers"

/-- `bwrite(b)`: `b->flags |= B_DIRTY; iderw(b);`. -/
def bwrite (s : BCache T) (i : Fin nbuf) : Except String (BCache T) :=
  (iderw { s.buf i with dirty := true } s.disk).map fun r => { s.setBuf i r.1 with disk := r.2 }

variable [DecidableEq T]

def setTh (s : BCache T) (t : T) (p : Phase) : BCache T :=
  { s with th := Function.update s.th t p }

/-- `acquiresleep(&b->lock)` at the end of `bget`, then `bread`'s
`if((b->flags & B_VALID) == 0) iderw(b);`. -/
def bread (s : BCache T) (t : T) (i : Fin nbuf) : Except String (BCache T) :=
  let b := { s.buf i with lock := some t }
  let s' := s.setTh t (.holding i)
  if b.valid = true then .ok (s'.setBuf i b)
  else (iderw b s.disk).map fun r => { s'.setBuf i r.1 with disk := r.2 }

/-- `brelse`'s `releasesleep(&b->lock)`. -/
def releasesleep (s : BCache T) (t : T) (i : Fin nbuf) : BCache T :=
  (s.setBuf i { s.buf i with lock := none }).setTh t (.releasing i)

/-- The rest of `brelse`, under `bcache.lock`: `b->refcnt--`, and when no one is waiting for
the buffer, move it to the front of the list. -/
def brelse (s : BCache T) (t : T) (i : Fin nbuf) : BCache T :=
  let s' := (s.setBuf i { s.buf i with refcnt := (s.buf i).refcnt - 1 }).setTh t .idle
  if (s.buf i).refcnt - 1 = 0 then
    { s' with links := (s.links.unlink (some i)).pushFront none (some i) }
  else s'

/-- One event; `none` when the thread is not at that point of its use of a buffer, when
`acquiresleep` would sleep, and at a panic. -/
def step (s : BCache T) : BioEv T → Option (BCache T)
  | .bget t dev blockno =>
    if s.th t = .idle then (s.bget dev blockno).toOption.map fun r => r.2.setTh t (.locking r.1)
    else none
  | .acquire t =>
    match s.th t with
    | .locking i => if (s.buf i).lock = none then (s.bread t i).toOption else none
    | _ => none
  | .write t blk =>
    match s.th t with
    | .holding i => some (s.setBuf i { s.buf i with data := blk })
    | _ => none
  | .bwrite t =>
    match s.th t with
    | .holding i => (s.bwrite i).toOption
    | _ => none
  | .pin t =>
    match s.th t with
    | .holding i => some (s.setBuf i { s.buf i with dirty := true })
    | _ => none
  | .release t =>
    match s.th t with
    | .holding i => some (s.releasesleep t i)
    | _ => none
  | .brelse t =>
    match s.th t with
    | .releasing i => some (s.brelse t i)
    | _ => none

end BCache

/-- `binit()` on the zeroed `bcache`, over the disk `disk`: the head points at itself, and
then each buffer in turn goes to the front of the list. -/
def binit {T : Type} (disk : Nat × Nat → Block) : BCache T :=
  ⟨fun _ => Buf.zero, ((List.finRange nbuf).map some).foldl (DList.Ptrs.pushFront none)
    ⟨fun _ => none, fun _ => none⟩, disk, fun _ => .idle⟩

namespace BCache

variable {T : Type}

/-- The rule of `bio.c`'s header, as far as the cache depends on it: once changed, a buffer
is written or pinned before it is released. -/
def Synced (s : BCache T) (i : Fin nbuf) : Prop :=
  (s.buf i).dirty = true ∨ (s.buf i).data = s.disk (s.buf i).key

/-- A step keeps the rule: a thread that gives up a buffer's sleep lock leaves it synced. -/
def Releases (s s' : BCache T) : Prop :=
  ∀ t i, s.th t = .holding i → s'.th t = .releasing i → s'.Synced i

instance releasesDecidable [Fintype T] (s s' : BCache T) : Decidable (Releases s s') :=
  inferInstanceAs (Decidable (∀ t i, s.th t = .holding i → s'.th t = .releasing i →
    (s'.buf i).dirty = true ∨ (s'.buf i).data = s'.disk (s'.buf i).key))

variable [DecidableEq T]

/-- The states that runs from `s₀` reach along steps that keep the rule. -/
def Reaches [Fintype T] (s₀ s : BCache T) : Prop := Reach.Reachable step Releases s₀ s

end BCache

/-! ## 2. What the cache is for -/

/-- A disk whose blocks threads lock: what a `bread` of each block returns, what is on the
disk, and who holds each block. -/
structure BlockStore (T : Type) where
  data : Nat × Nat → Block
  disk : Nat × Nat → Block
  holder : Nat × Nat → Option T

/-- A thread locks a block, changes it, writes it back, unlocks it. -/
inductive StoreEv (T : Type) where
  | lock (t : T) (x : Nat × Nat)
  | put (t : T) (x : Nat × Nat) (blk : Block)
  | flush (t : T) (x : Nat × Nat)
  | unlock (t : T) (x : Nat × Nat)

namespace BlockStore

variable {T : Type} [DecidableEq T]

/-- Only one thread at a time holds a block, and only the holder uses it. -/
def step (a : BlockStore T) : StoreEv T → Option (BlockStore T)
  | .lock t x =>
    if a.holder x = none then some { a with holder := Function.update a.holder x (some t) } else none
  | .put t x blk =>
    if a.holder x = some t then some { a with data := Function.update a.data x blk } else none
  | .flush t x =>
    if a.holder x = some t then some { a with disk := Function.update a.disk x (a.data x) }
    else none
  | .unlock t x =>
    if a.holder x = some t then some { a with holder := Function.update a.holder x none } else none

end BlockStore

namespace BCache

variable {T : Type}

/-- The buffers in list order, read off the pointers from `bcache.head.next`. -/
def mru (s : BCache T) : List (Option (Fin nbuf)) := DList.walk s.links.next nbuf (s.links.next none)

/-- The buffer `bget`'s first loop finds for the block. -/
def cached (s : BCache T) (x : Nat × Nat) : Option (Fin nbuf) :=
  (s.mru.find? (s.onBuf fun b => b.isFor x.1 x.2)).join

/-- What a `bread` of the block returns: the buffer's data when the cache has it, else the
disk's. -/
def view (s : BCache T) (x : Nat × Nat) : Block :=
  match s.cached x with
  | some i => if (s.buf i).valid = true then (s.buf i).data else s.disk x
  | none => s.disk x

/-- The store the cache implements. -/
def abs (s : BCache T) : BlockStore T :=
  ⟨s.view, s.disk, fun x => (s.cached x).bind fun i => (s.buf i).lock⟩

end BCache

/-! ## 3. What each step does -/

namespace BCache

variable {T : Type} {s : BCache T}

@[simp] theorem setBuf_buf (i : Fin nbuf) (b : Buf T) : (s.setBuf i b).buf = Function.update s.buf i b :=
  rfl
@[simp] theorem setBuf_links (i : Fin nbuf) (b : Buf T) : (s.setBuf i b).links = s.links := rfl
@[simp] theorem setBuf_disk (i : Fin nbuf) (b : Buf T) : (s.setBuf i b).disk = s.disk := rfl
@[simp] theorem setBuf_th (i : Fin nbuf) (b : Buf T) : (s.setBuf i b).th = s.th := rfl
@[simp] theorem mru_setBuf (i : Fin nbuf) (b : Buf T) : (s.setBuf i b).mru = s.mru := rfl

theorem isFor_iff {b : Buf T} {dev blockno : Nat} : b.isFor dev blockno = true ↔ b.key = (dev, blockno) := by
  simp [Buf.isFor, Buf.key]

/-- `cached` reads the blocks of the buffers only. -/
theorem cached_setBuf {i : Fin nbuf} {b : Buf T} (h : b.key = (s.buf i).key) :
    (s.setBuf i b).cached = s.cached := by
  funext x
  unfold cached
  congr 1
  refine List.find?_congr fun n _ => ?_
  cases n with
  | none => rfl
  | some j =>
    by_cases hj : j = i
    · subst hj
      simp only [onBuf, setBuf_buf, Function.update_self]
      exact Bool.eq_iff_iff.mpr (by rw [isFor_iff, isFor_iff, h])
    · simp [onBuf, hj]

/-- The data of the buffer that caches a block, where it is valid. -/
theorem view_setBuf {i : Fin nbuf} {b : Buf T} (h : b.key = (s.buf i).key) (x : Nat × Nat) :
    (s.setBuf i b).view x =
      if s.cached x = some i then (if b.valid = true then b.data else s.disk x) else s.view x := by
  unfold view
  rw [cached_setBuf h]
  cases hc : s.cached x with
  | none => rfl
  | some j =>
    by_cases hj : j = i
    · subst hj; simp
    · simp [hj]

/-- The found buffer passes the test of the list search. -/
theorem cached_isFor {x : Nat × Nat} {i : Fin nbuf} (h : s.cached x = some i) :
    (s.buf i).key = x ∧ some i ∈ s.mru := by
  unfold cached at h
  cases hf : s.mru.find? (s.onBuf fun b => b.isFor x.1 x.2) with
  | none => rw [hf] at h; cases h
  | some n =>
    rw [hf] at h
    cases h
    have htest := List.find?_some hf
    simp only [onBuf] at htest
    exact ⟨isFor_iff.mp htest, List.mem_of_find?_eq_some hf⟩

/-- `iderw` either writes a dirty buffer out or reads a clean one in. -/
theorem iderw_ok {b b' : Buf T} {d d' : Nat × Nat → Block} (h : iderw b d = .ok (b', d')) :
    b.blockno < fssize ∧
      ((b.dirty = true ∧ b' = { b with valid := true, dirty := false } ∧
          d' = Function.update d b.key b.data) ∨
        (b.valid = false ∧ b.dirty = false ∧ b' = { b with valid := true, data := d b.key } ∧
          d' = d)) := by
  unfold iderw at h
  split_ifs at h with h₁ h₂ h₃
  · cases h
    exact ⟨by omega, .inl ⟨h₃, rfl, rfl⟩⟩
  · cases h
    refine ⟨by omega, .inr ⟨?_, by simpa using h₃, rfl, rfl⟩⟩
    cases hv : b.valid
    · rfl
    · exact absurd ⟨hv, by simpa using h₃⟩ h₁

variable [DecidableEq T]

@[simp] theorem setTh_buf (t : T) (p : Phase) : (s.setTh t p).buf = s.buf := rfl
@[simp] theorem setTh_links (t : T) (p : Phase) : (s.setTh t p).links = s.links := rfl
@[simp] theorem setTh_disk (t : T) (p : Phase) : (s.setTh t p).disk = s.disk := rfl
@[simp] theorem setTh_th (t : T) (p : Phase) : (s.setTh t p).th = Function.update s.th t p := rfl

@[simp] theorem mru_setTh (t : T) (p : Phase) : (s.setTh t p).mru = s.mru := rfl
@[simp] theorem cached_setTh (t : T) (p : Phase) : (s.setTh t p).cached = s.cached := rfl
@[simp] theorem view_setTh (t : T) (p : Phase) : (s.setTh t p).view = s.view := rfl
@[simp] theorem abs_setTh (t : T) (p : Phase) : (s.setTh t p).abs = s.abs := rfl

@[simp] theorem brelse_buf (t : T) (i : Fin nbuf) :
    (s.brelse t i).buf = Function.update s.buf i { s.buf i with refcnt := (s.buf i).refcnt - 1 } := by
  unfold brelse; split_ifs <;> rfl

@[simp] theorem brelse_th (t : T) (i : Fin nbuf) : (s.brelse t i).th = Function.update s.th t .idle := by
  unfold brelse; split_ifs <;> rfl

@[simp] theorem brelse_disk (t : T) (i : Fin nbuf) : (s.brelse t i).disk = s.disk := by
  unfold brelse; split_ifs <;> rfl

/-- **The inversion lemma of `step`.** -/
theorem step_cases {e : BioEv T} {s' : BCache T} (h : s.step e = some s') :
    (∃ t dev blockno i s₁, s.th t = .idle ∧ s.bget dev blockno = .ok (i, s₁) ∧
      s' = s₁.setTh t (.locking i)) ∨
    (∃ t i, s.th t = .locking i ∧ (s.buf i).lock = none ∧ s.bread t i = .ok s') ∨
    (∃ t i blk, s.th t = .holding i ∧ s' = s.setBuf i { s.buf i with data := blk }) ∨
    (∃ t i, s.th t = .holding i ∧ s.bwrite i = .ok s') ∨
    (∃ t i, s.th t = .holding i ∧ s' = s.setBuf i { s.buf i with dirty := true }) ∨
    (∃ t i, s.th t = .holding i ∧ s' = s.releasesleep t i) ∨
    (∃ t i, s.th t = .releasing i ∧ s' = s.brelse t i) := by
  cases e with
  | bget t dev blockno =>
    simp only [step] at h
    split_ifs at h with ht
    obtain ⟨⟨i, s₁⟩, hb, rfl⟩ := Option.map_eq_some_iff.mp h
    exact .inl ⟨t, dev, blockno, i, s₁, ht, Reach.toOption_eq_some hb, rfl⟩
  | acquire t =>
    simp only [step] at h
    split at h <;> try cases h
    rename_i i ht
    split_ifs at h with hl
    exact .inr (.inl ⟨t, i, ht, hl, Reach.toOption_eq_some h⟩)
  | write t blk =>
    simp only [step] at h
    split at h <;> try cases h
    rename_i i ht
    exact .inr (.inr (.inl ⟨t, i, blk, ht, rfl⟩))
  | bwrite t =>
    simp only [step] at h
    split at h <;> try cases h
    rename_i i ht
    exact .inr (.inr (.inr (.inl ⟨t, i, ht, Reach.toOption_eq_some h⟩)))
  | pin t =>
    simp only [step] at h
    split at h <;> try cases h
    rename_i i ht
    exact .inr (.inr (.inr (.inr (.inl ⟨t, i, ht, rfl⟩))))
  | release t =>
    simp only [step] at h
    split at h <;> try cases h
    rename_i i ht
    exact .inr (.inr (.inr (.inr (.inr (.inl ⟨t, i, ht, rfl⟩)))))
  | brelse t =>
    simp only [step] at h
    split at h <;> try cases h
    rename_i i ht
    exact .inr (.inr (.inr (.inr (.inr (.inr ⟨t, i, ht, rfl⟩)))))

end BCache

end Xv6.Bio
