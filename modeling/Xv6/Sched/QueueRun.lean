import Xv6.Sched.Queue
import Xv6.Lib.Fifo

/-!
# The ring queue is a bounded FIFO

A `struct proc_queue` that starts zero-filled and then sees any sequence of `queue_push_item`
and `queue_pop_item` calls is the bounded FIFO of `Xv6/Lib/Fifo.lean`, with capacity `NPROC`.
Every call returns what the FIFO's call returns. The ring holds the FIFO's list in its live
slots `f + 1 … r`, and every other slot is null (`Represents`). `queueCall_sim` is the
one-call step and `Fifo.run_sim` carries it over runs. `Represents.observe` says what
`queue_size`, `queue_front`, `queue_rear` and the two failure tests read.
-/

set_option autoImplicit false

namespace Xv6

/-- One call on a queue and its return value. A failed call returns `-1` before it writes. -/
def queueCall (q : ProcQueue) : Fifo.Op ProcId → ProcQueue × Int
  | .push p =>
    match queuePushItem q p with
    | some q' => (q', 0)
    | none => (q, -1)
  | .pop =>
    match queuePopItem q with
    | some q' => (q', 0)
    | none => (q, -1)

/-- A push onto a queue with room writes slot `r + 1` and moves `r` there. -/
theorem queuePushItem_eq {q : ProcQueue} (hq : q.WF) (x : ProcId)
    (hroom : q.elems.length + 1 < queueCap) :
    queuePushItem q x = some ⟨q.f, next q.r, Function.update q.items (next q.r) (some x)⟩ := by
  have hfull : queueIsFull q = false := by
    cases h : queueIsFull q
    · rfl
    · have := (queueIsFull_iff hq).mp h; omega
  simp [queuePushItem, hfull]

/-- A pop from a non-empty queue clears slot `f + 1` and moves `f` there. -/
theorem queuePopItem_eq {q : ProcQueue} (hne : queueSize q ≠ 0) :
    queuePopItem q = some ⟨next q.f, q.r, Function.update q.items (next q.f) none⟩ := by
  simp [queuePopItem, hne]

/-- The ring holds `L` in its live slots `f + 1 … r`, and every other slot is null. -/
def ProcQueue.Represents (q : ProcQueue) (L : List ProcId) : Prop :=
  q.WF ∧ q.elems = L.map some ∧ ∀ j, j ∉ Ring.live queueCap q.f q.r → q.items j = none

theorem ProcQueue.empty_represents : ProcQueue.empty.Represents [] :=
  ⟨⟨by decide, by decide⟩, rfl, fun _ _ => rfl⟩

namespace ProcQueue.Represents

variable {q : ProcQueue} {L : List ProcId}

theorem size_eq (h : q.Represents L) : Ring.size queueCap q.f q.r = L.length := by
  rw [← Ring.length_elems queueCap q.f q.r q.items]
  show q.elems.length = L.length
  rw [h.2.1, List.length_map]

theorem length_lt (h : q.Represents L) : L.length < queueCap := by
  rw [← h.size_eq]
  exact Ring.size_lt (by decide)

/-- An empty FIFO is a ring of null slots. -/
theorem items_of_nil (h : q.Represents []) (j : Nat) : q.items j = none := by
  apply h.2.2
  rw [List.map_eq_nil_iff.mp (show (Ring.live queueCap q.f q.r).map q.items = [] from h.2.1)]
  exact List.not_mem_nil

theorem size_pos {x : ProcId} (h : q.Represents (x :: L)) : 0 < Ring.size queueCap q.f q.r := by
  rw [h.size_eq]
  simp

/-- **`queue_push_item`**: a full ring refuses, any other appends. -/
theorem push (h : q.Represents L) (x : ProcId) :
    (queueCall q (.push x)).1.Represents (Fifo.step nproc L (.push x)).1 ∧
      (queueCall q (.push x)).2 = (Fifo.step nproc L (.push x)).2 := by
  obtain ⟨hwf, he, hnull⟩ := h
  have hlen : q.elems.length = L.length := by rw [he, List.length_map]
  by_cases hfull : L.length = nproc
  · -- `queue_is_full`: nothing is written
    have hnone := queuePushItem_full hwf x (by rw [hlen, hfull]; rfl)
    simp only [queueCall, hnone, Fifo.step, hfull, if_true]
    exact ⟨⟨hwf, he, hnull⟩, trivial⟩
  · have hroom : q.elems.length + 1 < queueCap := by
      have := length_lt ⟨hwf, he, hnull⟩
      simp only [queueCap] at this ⊢
      omega
    have hroom' : Ring.size queueCap q.f q.r + 1 < queueCap := by
      rwa [← Ring.length_elems queueCap q.f q.r q.items]
    simp only [queueCall, queuePushItem_eq hwf x hroom, Fifo.step, hfull, if_false]
    refine ⟨⟨⟨hwf.1, Nat.mod_lt _ (by decide)⟩, ?_, ?_⟩, trivial⟩
    · show Ring.elems queueCap q.f ((q.r + 1) % queueCap)
        (Function.update q.items ((q.r + 1) % queueCap) (some x)) = _
      rw [(Ring.elems_push q.items (some x) hwf.1 hwf.2 hroom').2]
      show q.elems ++ [some x] = _
      rw [he, List.map_append, List.map_singleton]
    · -- the slot written is live now, and no other slot changed
      intro j hj
      show Function.update q.items ((q.r + 1) % queueCap) (some x) j = none
      rw [show next q.r = (q.r + 1) % queueCap from rfl, Ring.live_advance hwf.1 hwf.2 hroom',
        List.mem_append, not_or, List.mem_singleton] at hj
      rw [Function.update_of_ne hj.2]
      exact hnull j hj.1

/-- **`queue_pop_item`**: an empty ring refuses, any other drops its head and clears its slot. -/
theorem pop (h : q.Represents L) :
    (queueCall q .pop).1.Represents (Fifo.step nproc L .pop).1 ∧
      (queueCall q .pop).2 = (Fifo.step nproc L .pop).2 := by
  obtain ⟨hwf, he, hnull⟩ := h
  cases L with
  | nil =>
    have hnone := queuePopItem_empty hwf he
    simp only [queueCall, hnone, Fifo.step]
    exact ⟨⟨hwf, he, hnull⟩, trivial⟩
  | cons x L =>
    have hpos := size_pos ⟨hwf, he, hnull⟩
    have hne : queueSize q ≠ 0 := by
      rw [queueSize_eq hwf, he]; simp
    simp only [queueCall, queuePopItem_eq hne, Fifo.step]
    refine ⟨⟨⟨Nat.mod_lt _ (by decide), hwf.2⟩, ?_, ?_⟩, trivial⟩
    · have hsplit := (Ring.elems_pop q.items none hwf.1 hwf.2 hpos).2
      rw [show Ring.elems queueCap q.f q.r q.items = q.elems from rfl, he, List.map_cons] at hsplit
      exact (List.cons.inj hsplit).2.symm
    · -- the slot cleared is null, and the others stay as they were
      intro j (hj : j ∉ Ring.live queueCap (next q.f) q.r)
      show Function.update q.items (next q.f) none j = none
      by_cases hjf : j = next q.f
      · rw [hjf, Function.update_self]
      · rw [Function.update_of_ne hjf]
        apply hnull j
        rw [Ring.live_pop hwf.1 hwf.2 hpos, List.mem_cons, not_or]
        exact ⟨hjf, hj⟩

/-- **What the reads see**: `queue_size` is the length, `queue_front` the head, `queue_rear`
the last element, a push fails exactly on `NPROC` elements and a pop exactly on none. -/
theorem observe (h : q.Represents L) :
    queueSize q = L.length ∧ queueFront q = L.head? ∧ queueRear q = L.getLast? ∧
      (∀ x, queuePushItem q x = none ↔ L.length = nproc) ∧
      (queuePopItem q = none ↔ L.length = 0) := by
  obtain ⟨hwf, he, hnull⟩ := h
  have hsize : queueSize q = L.length := by rw [queueSize_eq hwf, he, List.length_map]
  refine ⟨hsize, ?_, ?_, fun x => ?_, ?_⟩
  · -- the front is slot `f + 1`, the first live one when there is one
    cases L with
    | nil => exact items_of_nil ⟨hwf, he, hnull⟩ _
    | cons x L =>
      have hpos := size_pos ⟨hwf, he, hnull⟩
      have hsplit : q.elems = q.items (next q.f) :: _ :=
        (Ring.elems_pop q.items none hwf.1 hwf.2 hpos).2
      rw [he, List.map_cons] at hsplit
      exact (List.cons.inj hsplit).1.symm
  · -- the rear is slot `r`, the last live one when there is one
    cases L with
    | nil => exact items_of_nil ⟨hwf, he, hnull⟩ _
    | cons x L =>
      have hne : q.elems ≠ [] := by rw [he]; simp
      rw [queueRear_eq_getLast hwf hne]
      simp only [he, List.getLast_map, List.getLast?_eq_some_getLast (List.cons_ne_nil x L)]
  · have hiff : queuePushItem q x = none ↔ queueIsFull q = true := by
      cases hfull : queueIsFull q <;> simp [queuePushItem, hfull]
    rw [hiff, queueIsFull_iff hwf, he, List.length_map]
    simp only [queueCap, nproc]
    omega
  · rw [← hsize]
    by_cases h0 : queueSize q = 0 <;> simp [queuePopItem, h0]

end ProcQueue.Represents

/-- One call keeps the ring and the FIFO together. -/
theorem queueCall_sim (q : ProcQueue) (L : List ProcId) (op : Fifo.Op ProcId)
    (h : q.Represents L) :
    (queueCall q op).1.Represents (Fifo.step nproc L op).1 ∧
      (queueCall q op).2 = (Fifo.step nproc L op).2 := by
  cases op with
  | push x => exact h.push x
  | pop => exact h.pop

theorem queue_fifo (ops : List (Fifo.Op ProcId)) :
    let q := (Fifo.run queueCall ProcQueue.empty ops).1
    let L := (Fifo.run (Fifo.step nproc) [] ops).1
    (Fifo.run queueCall ProcQueue.empty ops).2 = (Fifo.run (Fifo.step nproc) [] ops).2 ∧
      queueSize q = L.length ∧ queueFront q = L.head? ∧ queueRear q = L.getLast? ∧
      (∀ x, queuePushItem q x = none ↔ L.length = nproc) ∧
      (queuePopItem q = none ↔ L.length = 0) ∧
      ∀ j, j ∉ Ring.live queueCap q.f q.r → q.items j = none := by
  intro q L
  obtain ⟨hrep, hret⟩ := Fifo.run_sim queueCall_sim ops _ _ ProcQueue.empty_represents
  exact ⟨hret, hrep.observe.1, hrep.observe.2.1, hrep.observe.2.2.1, hrep.observe.2.2.2.1,
    hrep.observe.2.2.2.2, hrep.2.2⟩

end Xv6
