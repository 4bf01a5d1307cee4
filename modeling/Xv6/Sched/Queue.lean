import Xv6.Sched.Stride
import Xv6.Lib.Ring

/-!
# `proc.h` and `mlfq_scheduler.c` — processes and the MLFQ ring queues

A process is the part of `struct proc` the schedulers read and write: its state,
the ticks it has used at its level (`cticks`), who made it yield (`yield_by`),
and its level `lev` (0 … 2 in the MLFQ, `STRIDE_PROC_LEVEL` under stride).

Each MLFQ level is a `struct proc_queue`: a ring of `NPROC + 1` pointers with a
front index `f` and a rear index `r`. `queue_size`, `queue_push_item`,
`queue_pop_item`, `queue_front` and `queue_rear` are embedded as the C computes
them (`BEGIN`, `END` and `NEXT` are `+ 1` modulo `NPROC + 1`), and the lemmas
below read them through `Ring` (`Xv6/Lib/Ring.lean`): the live pointers are
`ProcQueue.elems`, a push appends, a pop drops the head.
-/

set_option autoImplicit false

namespace Xv6

/-- `enum procstate`. -/
inductive ProcState where
  | unused
  | embryo
  | sleeping
  | runnable
  | running
  | zombie
  deriving DecidableEq, Repr

/-- The fields of `struct proc` the schedulers use. `lev` and `yield_by` are bit-fields
of 28 and 4 bits; they only ever hold 0 … 2, 100 and 0 … 2. -/
structure Proc where
  state : ProcState
  cticks : Nat
  yieldBy : Nat
  lev : Nat
  deriving DecidableEq, Repr

/-- `NMLFQ`. -/
def nmlfq : Nat := 3

instance : NeZero nmlfq := ⟨by decide⟩

/-- `MLFQ_BOOSTING_TICKS`. -/
def mlfqBoostingTicks : Nat := 200

/-- `MLFQ_MAX_TICKS[lev]`. -/
def mlfqMaxTicks : Nat → Nat
  | 0 => 5
  | 1 => 10
  | _ => 20

/-- `MLFQ_TIME_ALLOTS[lev]`. -/
def mlfqTimeAllots : Nat → Nat
  | 0 => 20
  | 1 => 40
  | _ => 2 ^ 31

/-- `is_mlfq(p)`. -/
def isMlfq (p : Proc) : Bool := decide (p.lev < nmlfq)

/-- `is_stride(p)`. -/
def isStride (p : Proc) : Bool := decide (p.lev = strideProcLevel)

/-- The number of slots of a queue, `NPROC + 1`. -/
def queueCap : Nat := nproc + 1

/-- `struct proc_queue`; a null pointer is `none`. -/
structure ProcQueue where
  f : Nat
  r : Nat
  items : Nat → Option ProcId

/-- A zero-initialised queue, as the global `mlfq[]` starts. -/
def ProcQueue.empty : ProcQueue := ⟨0, 0, fun _ => none⟩

/-- `NEXT(iter)`. -/
def next (i : Nat) : Nat := (i + 1) % queueCap

/-- `BEGIN(q)`. -/
def ProcQueue.begin (q : ProcQueue) : Nat := next q.f

/-- `END(q)`. -/
def ProcQueue.end (q : ProcQueue) : Nat := next q.r

/-- `queue_size(q)`. -/
def queueSize (q : ProcQueue) : Nat :=
  if q.f ≤ q.r then q.r - q.f else queueCap + q.r - q.f

/-- `queue_is_full(q)`: `END(q) == q->f`. -/
def queueIsFull (q : ProcQueue) : Bool := decide (q.end = q.f)

/-- `queue_push_item(q, item)`: `none` is the `-1` of a full queue. -/
def queuePushItem (q : ProcQueue) (item : ProcId) : Option ProcQueue :=
  if queueIsFull q then none
  else some ⟨q.f, next q.r, Function.update q.items (next q.r) (some item)⟩

/-- `queue_pop_item(q)`: `none` is the `-1` of an empty queue. -/
def queuePopItem (q : ProcQueue) : Option ProcQueue :=
  if queueSize q = 0 then none
  else some ⟨next q.f, q.r, Function.update q.items (next q.f) none⟩

/-- `queue_front(q)`. -/
def queueFront (q : ProcQueue) : Option ProcId := q.items q.begin

/-- `queue_rear(q)`. -/
def queueRear (q : ProcQueue) : Option ProcId := q.items q.r

/-! ## The queue as a list -/

/-- The pointers in the live slots `f + 1 … r`, front first. -/
def ProcQueue.elems (q : ProcQueue) : List (Option ProcId) := Ring.elems queueCap q.f q.r q.items

/-- The indices are slots of the ring. -/
def ProcQueue.WF (q : ProcQueue) : Prop := q.f < queueCap ∧ q.r < queueCap

theorem queueSize_eq {q : ProcQueue} (hq : q.WF) : queueSize q = q.elems.length := by
  rw [ProcQueue.elems, Ring.length_elems, Ring.size_eq_ite hq.1 hq.2]; rfl

theorem queueIsFull_iff {q : ProcQueue} (hq : q.WF) :
    queueIsFull q = true ↔ q.elems.length + 1 = queueCap := by
  rw [← queueSize_eq hq]
  have h1 : q.f < 65 := hq.1
  have h2 : q.r < 65 := hq.2
  show decide ((q.r + 1) % 65 = q.f) = true ↔
    (if q.f ≤ q.r then q.r - q.f else 65 + q.r - q.f) + 1 = 65
  rw [decide_eq_true_iff]
  by_cases hr : q.r + 1 < 65
  · rw [Nat.mod_eq_of_lt hr]; split_ifs <;> omega
  · rw [show q.r + 1 = 65 by omega, Nat.mod_self]; split_ifs <;> omega

/-- **`queue_push_item`** with room appends the item. -/
theorem queuePushItem_spec {q : ProcQueue} (hq : q.WF) (x : ProcId)
    (hroom : q.elems.length + 1 < queueCap) :
    ∃ q', queuePushItem q x = some q' ∧ q'.WF ∧ q'.elems = q.elems ++ [some x] ∧ q'.f = q.f ∧
      ∀ j, j ≠ next q.r → q'.items j = q.items j := by
  have hfull : queueIsFull q = false := by
    cases h : queueIsFull q
    · rfl
    · have := (queueIsFull_iff hq).mp h; omega
  have hl : Ring.size queueCap q.f q.r + 1 < queueCap := by
    rw [← Ring.length_elems queueCap q.f q.r q.items]; exact hroom
  refine ⟨⟨q.f, next q.r, Function.update q.items (next q.r) (some x)⟩, by simp [queuePushItem, hfull],
    ⟨hq.1, Nat.mod_lt _ (by decide)⟩, (Ring.elems_push q.items (some x) hq.1 hq.2 hl).2, rfl,
    fun j hj => Function.update_of_ne hj _ _⟩

theorem queuePushItem_full {q : ProcQueue} (hq : q.WF) (x : ProcId)
    (hfull : q.elems.length + 1 = queueCap) : queuePushItem q x = none := by
  simp [queuePushItem, (queueIsFull_iff hq).mpr hfull]

/-- **`queue_pop_item`** on a non-empty queue drops the head, `queue_front`, and clears
its slot. -/
theorem queuePopItem_spec {q : ProcQueue} (hq : q.WF) (hne : q.elems ≠ []) :
    ∃ q', queuePopItem q = some q' ∧ q'.WF ∧ q.elems = queueFront q :: q'.elems ∧ q'.r = q.r ∧
      q'.f = next q.f ∧ q'.items (next q.f) = none ∧ ∀ j, j ≠ next q.f → q'.items j = q.items j := by
  have hlen : 0 < q.elems.length := List.length_pos_iff.mpr hne
  have hsz : queueSize q ≠ 0 := by rw [queueSize_eq hq]; omega
  have hpos : 0 < Ring.size queueCap q.f q.r := by
    rw [← Ring.length_elems queueCap q.f q.r q.items]; exact hlen
  refine ⟨⟨next q.f, q.r, Function.update q.items (next q.f) none⟩, by simp [queuePopItem, hsz],
    ⟨Nat.mod_lt _ (by decide), hq.2⟩, (Ring.elems_pop q.items none hq.1 hq.2 hpos).2, rfl, rfl,
    Function.update_self _ _ _, fun j hj => Function.update_of_ne hj _ _⟩

theorem queuePopItem_empty {q : ProcQueue} (hq : q.WF) (he : q.elems = []) :
    queuePopItem q = none := by
  have : queueSize q = 0 := by rw [queueSize_eq hq, he]; rfl
  simp [queuePopItem, this]

/-- In a non-empty queue `queue_rear` is the last live pointer. -/
theorem queueRear_eq_getLast {q : ProcQueue} (hq : q.WF) (hne : q.elems ≠ []) :
    queueRear q = q.elems.getLast hne := by
  have hpos : 0 < Ring.size queueCap q.f q.r := by
    rw [← Ring.length_elems queueCap q.f q.r q.items]; exact List.length_pos_iff.mpr hne
  simp only [queueRear, ProcQueue.elems, Ring.elems, List.getLast_map]
  rw [Ring.getLast_live hq.1 hq.2 hpos]

/-! ## A queue holding a list of processes -/

/-- `q` holds the processes `L`, front first: its indices are slots of the ring, the slot
`f` the last pop cleared is null, and the live slots hold exactly `L`. -/
def ProcQueue.Holds (q : ProcQueue) (L : List ProcId) : Prop :=
  q.WF ∧ q.items q.f = none ∧ q.elems = L.map some

theorem ProcQueue.empty_holds : ProcQueue.empty.Holds [] := ⟨⟨by decide, by decide⟩, rfl, rfl⟩

namespace ProcQueue.Holds

variable {q : ProcQueue} {L : List ProcId}

theorem size (h : q.Holds L) : queueSize q = L.length := by
  rw [queueSize_eq h.1, h.2.2, List.length_map]

/-- Popping the front of a queue that holds `p :: L` returns `p` and leaves `L`. -/
theorem pop {p : ProcId} (h : q.Holds (p :: L)) :
    queueFront q = some p ∧ ∃ q', queuePopItem q = some q' ∧ q'.Holds L := by
  obtain ⟨hwf, -, he⟩ := h
  obtain ⟨q', hq', hwf', hsplit, -, hf, hclear, -⟩ :=
    queuePopItem_spec hwf (by rw [he]; simp)
  rw [he, List.map_cons] at hsplit
  obtain ⟨hfront, hrest⟩ := List.cons.inj hsplit
  exact ⟨hfront.symm, q', hq', hwf', by rw [hf]; exact hclear, hrest.symm⟩

theorem pop_nil (h : q.Holds []) : queuePopItem q = none :=
  queuePopItem_empty h.1 (by rw [h.2.2]; rfl)

/-- Pushing onto a queue with room appends, and keeps the cleared slot cleared. -/
theorem push (h : q.Holds L) (hroom : L.length + 1 < queueCap) (x : ProcId) :
    ∃ q', queuePushItem q x = some q' ∧ q'.Holds (L ++ [x]) := by
  obtain ⟨hwf, hclear, he⟩ := h
  have hlen : q.elems.length + 1 < queueCap := by rw [he, List.length_map]; exact hroom
  obtain ⟨q', hq', hwf', hel, hf, hframe⟩ := queuePushItem_spec hwf x hlen
  -- the slot written is not the cleared one, or the queue would be full
  have hne : q.f ≠ next q.r := by
    intro heq
    have hfull : queueIsFull q = true := by
      simp only [queueIsFull, ProcQueue.end]; exact decide_eq_true heq.symm
    have := (queueIsFull_iff hwf).mp hfull
    omega
  refine ⟨q', hq', hwf', ?_, by rw [hel, he, List.map_append]; rfl⟩
  rw [hf, hframe _ hne, hclear]

/-- The rear of a queue is not a process the queue does not hold: `mlfq_push`'s duplicate
test never fires for it. -/
theorem rear_ne (h : q.Holds L) {x : ProcId} (hx : x ∉ L) : queueRear q ≠ some x := by
  obtain ⟨hwf, hclear, he⟩ := h
  cases L with
  | nil =>
    -- an empty queue has `r = f`, whose slot is clear
    have hsize : queueSize q = 0 := by rw [queueSize_eq hwf, he]; rfl
    have hr : q.r = q.f := by
      have h1 := hwf.1; have h2 := hwf.2
      simp only [queueSize, queueCap, nproc] at hsize h1 h2
      split_ifs at hsize <;> omega
    simp [queueRear, hr, hclear]
  | cons y L =>
    have hne : q.elems ≠ [] := by rw [he]; simp
    rw [queueRear_eq_getLast hwf hne]
    simp only [he, List.getLast_map, ne_eq, Option.some.injEq]
    intro hl
    exact hx (hl ▸ List.getLast_mem _)

end ProcQueue.Holds

end Xv6
