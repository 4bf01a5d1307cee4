import Xv6.Fraction
import Xv6.Lib.Heap
import Xv6.Lib.WeakHeap

/-!
# `stride_scheduler.c` — the stride queue

`StrideQueue` is the global `stride_queue`: the total of the shares handed out
(`all_share`), the largest pass any item has reached (`max_pass`), and a binary
min-heap of `StrideItem`s on pass, stored from slot 1 of a 65-slot array. The
heap's two loops are the library's `siftUp` and `siftDown`
(`Xv6/Lib/Heap.lean`) at the comparison the C macro `HEAP_LESS_THAN` negates:
`heap_push_item` moves up while `frac_is_less_than(item, parent)`, and
`heap_pop_item` stops as soon as `frac_is_less_than(temp, child)`.

Pointers into the heap (`stride_top`, `stride_find_item`, the argument of
`stride_adjust`) are slot numbers here. The array is a function on all of `Nat`;
the code only ever touches slots `0 … NPROC`, slot 0 never after `heap_init`.

The spec lemmas at the end say what each operation does to the heap's multiset
of items and to its order, under `PassesFit`: the comparisons between the
passes involved do not wrap.
-/

set_option autoImplicit false

namespace Xv6

open ImplicitHeap

/-- `NPROC`, the size of the process table. -/
def nproc : Nat := 64

instance : NeZero nproc := ⟨by decide⟩

/-- A process is named by its slot in `ptable.proc`. -/
abbrev ProcId := Fin nproc

/-- `STRIDE_MAX_TICKS`. -/
def strideMaxTicks : Nat := 5
/-- `STRIDE_PROC_LEVEL`: the `lev` of a process scheduled by stride. -/
def strideProcLevel : Nat := 100
/-- `STRIDE_MLFQ_SHARE`: the share of the item standing for the whole MLFQ. -/
def strideMlfqShare : Int := 22
/-- `STRIDE_MAX_SHARE`. -/
def strideMaxShare : Int := 102

/-- `struct StrideItem`. `proc` is the `void *proc`, null for the MLFQ item. The
shares the code stores (22, and 1 … 80 from `sys_set_cpu_share`) fit the 31-bit
field, so it is an `Int`. -/
structure StrideItem where
  pass : Frac
  isMLFQ : Bool
  share : Int
  proc : Option ProcId
  deriving DecidableEq, Repr

/-- `struct StrideHeap`: `size` and the item array, used from slot 1. -/
structure StrideHeap where
  size : Nat
  items : Nat → StrideItem

/-- `struct StrideQueue`. -/
structure StrideQueue where
  allShare : Int
  maxPass : Frac
  q : StrideHeap

/-- The order of the heap: `frac_is_less_than` on passes. `HEAP_LESS_THAN` is its
negation, and the loops test `!HEAP_LESS_THAN`. -/
def passLt (x y : StrideItem) : Bool := fracIsLessThan x.pass y.pass

/-- `stride_item_init(item, share, proc, isMLFQ)`: a new item starts at `max_pass`. -/
def strideItemInit (sq : StrideQueue) (share : Int) (proc : Option ProcId) (isMLFQ : Bool) :
    StrideItem :=
  ⟨sq.maxPass, isMLFQ, share, proc⟩

/-- `heap_init`: every slot gets `stride_item_init(it, 0, 0, 0)`, at the current
`max_pass`. -/
def heapInit (maxPass : Frac) : StrideHeap :=
  ⟨0, fun _ => ⟨maxPass, false, 0, none⟩⟩

/-- `heap_full`: `size >= NELEM(items) - 1`. -/
def heapFull (h : StrideHeap) : Bool := decide (nproc ≤ h.size)

/-- `heap_empty`. -/
def heapEmpty (h : StrideHeap) : Bool := decide (h.size = 0)

/-- `heap_push_item`: `none` is the `-1` of a full heap, which is left unchanged. The
sift loop halves `idx` from `size + 1`, so `size + 1` turns suffice. -/
def heapPushItem (h : StrideHeap) (item : StrideItem) : Option StrideHeap :=
  if heapFull h then none
  else some ⟨h.size + 1, siftUp passLt (h.size + 1) h.items (h.size + 1) item⟩

/-- `heap_pop_item`: `none` is the `-1` of an empty heap. `temp` is the old last
slot, which the loop never writes; `child` is always `2 * parent` at the loop's
head, so the loop is `siftDown` from the root, given `size` turns. -/
def heapPopItem (h : StrideHeap) : Option StrideHeap :=
  if heapEmpty h then none
  else some ⟨h.size - 1, siftDown passLt (h.size - 1) (h.size - 1) h.items 1 (h.items h.size)⟩

/-- `heap_top_item`: the item in slot 1, if any. -/
def heapTopItem (h : StrideHeap) : Option StrideItem :=
  if heapEmpty h then none else some (h.items 1)

/-- `stride_init`: no share handed out, `max_pass` zero, an empty heap. -/
def strideInit : StrideQueue := ⟨0, fracZero, heapInit fracZero⟩

/-- `stride_push`: `all_share` grows by the item's share even when the heap is full
and `heap_push_item` returns `-1`. -/
def stridePush (sq : StrideQueue) (item : StrideItem) : Int × StrideQueue :=
  let sq := { sq with allShare := sq.allShare + item.share }
  match heapPushItem sq.q item with
  | some q => (0, { sq with q := q })
  | none => (-1, sq)

/-- `stride_top`. -/
def strideTop (sq : StrideQueue) : Option StrideItem := heapTopItem sq.q

/-- `stride_pop`: take the top's share off `all_share` and pop. -/
def stridePop (sq : StrideQueue) : Int × StrideQueue :=
  match strideTop sq with
  | none => (-1, sq)
  | some top =>
    let sq := { sq with allShare := sq.allShare - top.share }
    match heapPopItem sq.q with
    | some q => (0, { sq with q := q })
    | none => (-1, sq)

/-- `stride_can_change_share(old_share, new_share)`. -/
def strideCanChangeShare (sq : StrideQueue) (oldShare newShare : Int) : Bool :=
  decide (sq.allShare - oldShare + newShare ≤ strideMaxShare)

/-- `stride_adjust(item, new_share)` on the item in slot `slot` (`none` is a null
pointer). -/
def strideAdjust (sq : StrideQueue) (slot : Option Nat) (newShare : Int) : Int × StrideQueue :=
  match slot with
  | none => (-1, sq)
  | some i =>
    if heapEmpty sq.q then (-1, sq)
    else if !strideCanChangeShare sq (sq.q.items i).share newShare then (-1, sq)
    else
      let it := sq.q.items i
      let q : StrideHeap := ⟨sq.q.size, Function.update sq.q.items i { it with share := newShare }⟩
      (0, { sq with allShare := sq.allShare - it.share + newShare, q := q })

/-- `stride_find_item(p)`: the first of the slots `items[0 … size - 1]` whose item
belongs to `p` (the loop runs from `begin = items` to `end = items + size`). -/
def strideFindItem (sq : StrideQueue) (p : ProcId) : Option Nat :=
  (List.range sq.q.size).find? fun i => (sq.q.items i).proc == some p

/-! ## What the operations do to the heap -/

/-- The items in slots `1 … size`. -/
def StrideHeap.contents (h : StrideHeap) : Multiset StrideItem := ImplicitHeap.contents h.items h.size

/-- A min-heap on the value of the passes. -/
def StrideHeap.Ordered (h : StrideHeap) : Prop :=
  ImplicitHeap.Ordered (fun x : StrideItem => x.pass.val) h.items h.size

/-- No comparison between passes of items of `M` wraps. -/
def PassesFit (M : Multiset StrideItem) : Prop := ∀ x ∈ M, ∀ y ∈ M, CmpFits x.pass y.pass

instance passesFit_decidable (M : Multiset StrideItem) : Decidable (PassesFit M) :=
  inferInstanceAs (Decidable (∀ x ∈ M, ∀ y ∈ M, CmpFits x.pass y.pass))

theorem PassesFit.agree {M : Multiset StrideItem} (h : PassesFit M) :
    Agree (fun x : StrideItem => x.pass.val) passLt M :=
  fun x hx y hy => fracIsLessThan_iff (h x hx y hy)

/-- `heap_push_item` on a heap with room sifts the item up from the new last slot. -/
theorem heapPushItem_of_room {h : StrideHeap} (item : StrideItem) (hn : h.size < nproc) :
    heapPushItem h item =
      some ⟨h.size + 1, siftUp passLt (h.size + 1) h.items (h.size + 1) item⟩ := by
  have hnf : heapFull h = false := by simp [heapFull]; omega
  simp [heapPushItem, hnf]

/-- `heap_pop_item` on a non-empty heap sifts the last item down from the root. -/
theorem heapPopItem_of_pos {h : StrideHeap} (hn : 0 < h.size) :
    heapPopItem h =
      some ⟨h.size - 1, siftDown passLt (h.size - 1) (h.size - 1) h.items 1 (h.items h.size)⟩ := by
  have hne : heapEmpty h = false := by simp [heapEmpty]; omega
  simp [heapPopItem, hne]

/-- **`heap_push_item`** on a heap with room: one more item, still a min-heap, and only
slots `1 … size + 1` written. -/
theorem heapPushItem_spec {h : StrideHeap} {item : StrideItem} (ho : h.Ordered)
    (hfit : PassesFit (item ::ₘ h.contents)) (hn : h.size < nproc) :
    ∃ h', heapPushItem h item = some h' ∧ h'.size = h.size + 1 ∧ h'.Ordered ∧
      h'.contents = item ::ₘ h.contents ∧ ∀ j, (j = 0 ∨ h.size + 1 < j) → h'.items j = h.items j := by
  obtain ⟨hord, hcont⟩ := push_spec item ho hfit.agree (h.size + 1) le_rfl
  exact ⟨⟨h.size + 1, siftUp passLt (h.size + 1) h.items (h.size + 1) item⟩,
    heapPushItem_of_room item hn, rfl, hord, hcont, fun j hj => siftUp_frame _ _ _ (by omega) j hj⟩

theorem heapPushItem_full {h : StrideHeap} {item : StrideItem} (hn : nproc ≤ h.size) :
    heapPushItem h item = none := by
  simp [heapPushItem, heapFull, hn]

/-- **`heap_pop_item`** on a non-empty heap: exactly one copy of the top is gone, the rest
is still a min-heap, and slot 0 and the slots past the old last one are untouched. -/
theorem heapPopItem_spec {h : StrideHeap} (ho : h.Ordered) (hfit : PassesFit h.contents)
    (hn : 0 < h.size) :
    ∃ h', heapPopItem h = some h' ∧ h'.size = h.size - 1 ∧ h'.Ordered ∧
      h.items 1 ::ₘ h'.contents = h.contents ∧
      ∀ j, (j = 0 ∨ h.size < j) → h'.items j = h.items j := by
  obtain ⟨m, hm⟩ : ∃ m, h.size = m + 1 := ⟨h.size - 1, by omega⟩
  have ho' : ImplicitHeap.Ordered (fun x : StrideItem => x.pass.val) h.items (m + 1) := by
    rw [← hm]; exact ho
  have hA : Agree (fun x : StrideItem => x.pass.val) passLt (ImplicitHeap.contents h.items (m + 1)) := by
    rw [← hm]; exact hfit.agree
  obtain ⟨hord, hcont⟩ := pop_spec ho' hA m le_rfl
  refine ⟨⟨h.size - 1, siftDown passLt (h.size - 1) (h.size - 1) h.items 1 (h.items h.size)⟩,
    heapPopItem_of_pos hn, rfl, ?_, ?_, ?_⟩
  · simpa [StrideHeap.Ordered, hm] using hord
  · simpa [StrideHeap.contents, hm] using hcont
  · intro j hj
    exact siftDown_frame _ _ _ le_rfl j (by omega)

theorem heapPopItem_empty {h : StrideHeap} (hn : h.size = 0) : heapPopItem h = none := by
  simp [heapPopItem, heapEmpty, hn]

theorem heapTopItem_eq {h : StrideHeap} (hn : 0 < h.size) : heapTopItem h = some (h.items 1) := by
  simp [heapTopItem, heapEmpty]; omega

/-- The top of an ordered heap has the least pass. -/
theorem StrideHeap.Ordered.top_le {h : StrideHeap} (ho : h.Ordered) {y : StrideItem}
    (hy : y ∈ h.contents) : (h.items 1).pass.val ≤ y.pass.val :=
  ImplicitHeap.Ordered.le_of_mem ho hy

theorem StrideHeap.top_mem {h : StrideHeap} (hn : 0 < h.size) : h.items 1 ∈ h.contents :=
  mem_contents_of le_rfl hn

/-- A heap of one item holds it in slot 1. -/
theorem StrideHeap.eq_singleton {h : StrideHeap} {x : StrideItem} (hc : h.contents = {x}) :
    h.size = 1 ∧ h.items 1 = x := by
  have hsize : h.size = 1 := by
    simpa [StrideHeap.contents] using congrArg Multiset.card hc
  refine ⟨hsize, ?_⟩
  unfold StrideHeap.contents at hc
  rw [hsize, contents_succ, contents_zero, Multiset.cons_zero] at hc
  exact Multiset.singleton_inj.mp hc

/-! ## Ordered by `frac_is_less_than` itself

The same two operations for a heap ordered by `frac_is_less_than` and not by the value of the
passes, with `frac_is_less_than` a strict weak order on the items at hand
(`Xv6/Lib/WeakHeap.lean`). -/

/-- A min-heap under `frac_is_less_than`: no item of slots `2 … size` is before its parent. -/
def StrideHeap.LtOrdered (h : StrideHeap) : Prop := ImplicitHeap.LtOrdered passLt h.items h.size

theorem heapPushItem_weak {h : StrideHeap} {item : StrideItem} (ho : h.LtOrdered)
    (hw : StrictWeakOn passLt (item ::ₘ h.contents)) (hn : h.size < nproc) :
    ∃ h', heapPushItem h item = some h' ∧ h'.size = h.size + 1 ∧ h'.LtOrdered ∧
      h'.contents = item ::ₘ h.contents := by
  obtain ⟨hord, hcont⟩ := push_spec_weak item ho hw (h.size + 1) le_rfl
  exact ⟨⟨h.size + 1, siftUp passLt (h.size + 1) h.items (h.size + 1) item⟩,
    heapPushItem_of_room item hn, rfl, hord, hcont⟩

theorem heapPopItem_weak {h : StrideHeap} (ho : h.LtOrdered) (hw : StrictWeakOn passLt h.contents)
    (hn : 0 < h.size) :
    ∃ h', heapPopItem h = some h' ∧ h'.size = h.size - 1 ∧ h'.LtOrdered ∧
      h.items 1 ::ₘ h'.contents = h.contents ∧ ∀ y ∈ h.contents, passLt y (h.items 1) = false := by
  obtain ⟨m, hm⟩ : ∃ m, h.size = m + 1 := ⟨h.size - 1, by omega⟩
  have ho' : ImplicitHeap.LtOrdered passLt h.items (m + 1) := by rw [← hm]; exact ho
  have hw' : StrictWeakOn passLt (contents h.items (m + 1)) := by rw [← hm]; exact hw
  obtain ⟨hord, hcont, hmin⟩ := pop_spec_weak ho' hw' m le_rfl
  refine ⟨⟨h.size - 1, siftDown passLt (h.size - 1) (h.size - 1) h.items 1 (h.items h.size)⟩,
    heapPopItem_of_pos hn, rfl, ?_, ?_, ?_⟩
  · simpa [StrideHeap.LtOrdered, hm] using hord
  · simpa [StrideHeap.contents, hm] using hcont
  · simpa [StrideHeap.contents, hm] using hmin

theorem heap_primitives (h : StrideHeap) (item : StrideItem) (ho : h.LtOrdered) :
    (h.size < nproc → StrictWeakOn passLt (item ::ₘ h.contents) →
      ∃ h', heapPushItem h item = some h' ∧ h'.LtOrdered ∧ h'.contents = item ::ₘ h.contents) ∧
    (h.size = nproc → heapPushItem h item = none) ∧
    (0 < h.size → StrictWeakOn passLt h.contents →
      ∃ h', heapPopItem h = some h' ∧ h'.LtOrdered ∧ h.items 1 ::ₘ h'.contents = h.contents ∧
        ∀ y ∈ h.contents, passLt y (h.items 1) = false) ∧
    (h.size = 0 → heapPopItem h = none) := by
  refine ⟨fun hn hw => ?_, fun hn => heapPushItem_full hn.ge, fun hn hw => ?_, heapPopItem_empty⟩
  · obtain ⟨h', hpush, -, hord, hcont⟩ := heapPushItem_weak ho hw hn
    exact ⟨h', hpush, hord, hcont⟩
  · obtain ⟨h', hpop, -, hord, hcont, hmin⟩ := heapPopItem_weak ho hw hn
    exact ⟨h', hpop, hord, hcont, hmin⟩

/-- A heap of three items at passes 1, 3 and 2. -/
def siftHeap : StrideHeap :=
  ⟨3, fun i => if i = 1 then ⟨⟨1, 1⟩, false, 10, some 1⟩ else if i = 2 then ⟨⟨3, 1⟩, false, 10, some 2⟩
    else if i = 3 then ⟨⟨2, 1⟩, false, 10, some 3⟩ else ⟨fracZero, false, 0, none⟩⟩

/-- An item at pass 1/2, before all of `siftHeap`'s. -/
def siftItem : StrideItem := ⟨⟨1, 2⟩, false, 20, some 4⟩

/-- A push of `siftItem` onto `siftHeap` sifts it from slot 4 past the items at 3 and at 1 to
the root, and a pop of `siftHeap` moves the item at 2 up from slot 3; both leave a min-heap of
the items they should hold. -/
theorem heap_primitives_sift :
    siftHeap.LtOrdered ∧ StrictWeakOn passLt (siftItem ::ₘ siftHeap.contents) ∧
      StrictWeakOn passLt siftHeap.contents ∧
      (heapPushItem siftHeap siftItem).map (fun h => (h.items 1).pass) = some siftItem.pass ∧
      (heapPopItem siftHeap).map (fun h => (h.items 1).pass) = some ⟨2, 1⟩ ∧
      (∃ h', heapPushItem siftHeap siftItem = some h' ∧ h'.LtOrdered ∧
        h'.contents = siftItem ::ₘ siftHeap.contents) ∧
      ∃ h', heapPopItem siftHeap = some h' ∧ h'.LtOrdered ∧
        siftHeap.items 1 ::ₘ h'.contents = siftHeap.contents ∧
        ∀ y ∈ siftHeap.contents, passLt y (siftHeap.items 1) = false := by
  have ho : siftHeap.LtOrdered := fun i h2 hi => by
    have hi3 : i ≤ 3 := hi
    interval_cases i <;> decide
  -- no comparison between these passes wraps, so `frac_is_less_than` is the order of their values
  have hw : StrictWeakOn passLt (siftItem ::ₘ siftHeap.contents) :=
    ImplicitHeap.StrictWeakOn.of_agree (PassesFit.agree (by decide))
  have hw' : StrictWeakOn passLt siftHeap.contents :=
    ImplicitHeap.StrictWeakOn.of_agree (PassesFit.agree (by decide))
  obtain ⟨hpush, -, hpop, -⟩ := heap_primitives siftHeap siftItem ho
  exact ⟨ho, hw, hw', by decide, by decide, hpush (by decide) hw, hpop (by decide) hw'⟩

/-! ## The same, whatever the comparisons answer

A push adds its item and a pop removes the item of slot 1 even when `frac_is_less_than`
wraps: the sift loops only move items. These are the facts the share accounting rests on. -/

theorem heapPushItem_contents {h : StrideHeap} (item : StrideItem) (hn : h.size < nproc) :
    ∃ h', heapPushItem h item = some h' ∧ h'.size = h.size + 1 ∧
      h'.contents = item ::ₘ h.contents ∧ h'.items 0 = h.items 0 := by
  refine ⟨⟨h.size + 1, siftUp passLt (h.size + 1) h.items (h.size + 1) item⟩,
    heapPushItem_of_room item hn, rfl, ?_, siftUp_frame _ _ _ (by omega) 0 (Or.inl rfl)⟩
  show contents (siftUp passLt (h.size + 1) h.items (h.size + 1) item) (h.size + 1) = _
  rw [siftUp_contents _ _ _ (by omega) le_rfl, contents_succ, Function.update_self,
    contents_update_of_lt _ (Or.inl (by omega))]
  rfl

theorem heapPopItem_contents {h : StrideHeap} (hn : 0 < h.size) :
    ∃ h', heapPopItem h = some h' ∧ h'.size = h.size - 1 ∧
      h.items 1 ::ₘ h'.contents = h.contents ∧ h'.items 0 = h.items 0 := by
  obtain ⟨m, hm⟩ : ∃ m, h.size = m + 1 := ⟨h.size - 1, by omega⟩
  refine ⟨⟨h.size - 1, siftDown passLt (h.size - 1) (h.size - 1) h.items 1 (h.items h.size)⟩,
    heapPopItem_of_pos hn, rfl, ?_, siftDown_frame _ _ _ le_rfl 0 (Or.inl (by omega))⟩
  show h.items 1 ::ₘ contents (siftDown passLt (h.size - 1) (h.size - 1) h.items 1
    (h.items h.size)) (h.size - 1) = contents h.items h.size
  rw [hm, Nat.add_sub_cancel, contents_succ]
  rcases Nat.eq_zero_or_pos m with rfl | hm1
  · rfl
  · -- the last item fills the root's hole
    rw [siftDown_contents _ _ _ le_rfl hm1, ← Multiset.singleton_add, add_comm,
      contents_update _ le_rfl hm1, ← Multiset.singleton_add, add_comm]

/-- A push whose item is not before the parent of the new slot writes that slot only. -/
theorem heapPushItem_of_not_lt {h : StrideHeap} {item : StrideItem} (hn : h.size < nproc)
    (hlt : passLt item (h.items ((h.size + 1) / 2)) = false) :
    heapPushItem h item = some ⟨h.size + 1, Function.update h.items (h.size + 1) item⟩ := by
  rw [heapPushItem_of_room item hn, siftUp_of_not_lt _ hlt]

/-! ## The queue operations -/

theorem stridePush_ok {sq : StrideQueue} (item : StrideItem) (hn : sq.q.size < nproc) :
    ∃ q', heapPushItem sq.q item = some q' ∧
      stridePush sq item = (0, { sq with allShare := sq.allShare + item.share, q := q' }) := by
  obtain ⟨q', hq', -⟩ := heapPushItem_contents (h := sq.q) item hn
  exact ⟨q', hq', by simp [stridePush, hq']⟩

theorem stridePush_full {sq : StrideQueue} (item : StrideItem) (hn : nproc ≤ sq.q.size) :
    (stridePush sq item).1 = -1 := by
  simp [stridePush, heapPushItem_full hn]

theorem stridePop_ok {sq : StrideQueue} (hn : 0 < sq.q.size) :
    ∃ q', heapPopItem sq.q = some q' ∧
      stridePop sq = (0, { sq with allShare := sq.allShare - (sq.q.items 1).share, q := q' }) := by
  obtain ⟨q', hq', -⟩ := heapPopItem_contents hn
  exact ⟨q', hq', by simp [stridePop, strideTop, heapTopItem_eq hn, hq']⟩

theorem stridePop_empty {sq : StrideQueue} (hn : sq.q.size = 0) : stridePop sq = (-1, sq) := by
  simp [stridePop, strideTop, heapTopItem, heapEmpty, hn]

/-- A push of an item that is not before the top leaves the top in slot 1. -/
theorem heapPushItem_top {h h' : StrideHeap} {item : StrideItem} (hn : 0 < h.size)
    (hlt : passLt item (h.items 1) = false) (hp : heapPushItem h item = some h') :
    h'.items 1 = h.items 1 := by
  unfold heapPushItem at hp
  split at hp
  · cases hp
  · cases hp
    exact siftUp_one _ _ _ (by omega) hlt

/-- `stride_adjust` rewrites one share and nothing else: the size, `max_pass`, and the pass,
the flag and the process of every slot stay. -/
theorem strideAdjust_keys (sq : StrideQueue) (slot : Option Nat) (share : Int) :
    (strideAdjust sq slot share).2.q.size = sq.q.size ∧
      (strideAdjust sq slot share).2.maxPass = sq.maxPass ∧
      ∀ j, ((strideAdjust sq slot share).2.q.items j).pass = (sq.q.items j).pass ∧
        ((strideAdjust sq slot share).2.q.items j).isMLFQ = (sq.q.items j).isMLFQ ∧
        ((strideAdjust sq slot share).2.q.items j).proc = (sq.q.items j).proc := by
  rcases slot with _ | i
  · exact ⟨rfl, rfl, fun _ => ⟨rfl, rfl, rfl⟩⟩
  · simp only [strideAdjust]
    split_ifs
    · exact ⟨rfl, rfl, fun _ => ⟨rfl, rfl, rfl⟩⟩
    · exact ⟨rfl, rfl, fun _ => ⟨rfl, rfl, rfl⟩⟩
    · refine ⟨rfl, rfl, fun j => ?_⟩
      by_cases hj : j = i
      · subst hj; simp
      · simp [Function.update_of_ne hj]

/-- `stride_adjust` on a slot of the heap: the share is replaced when the new total stays
within `STRIDE_MAX_SHARE`, and nothing changes otherwise. -/
theorem strideAdjust_slot {sq : StrideQueue} {i : Nat} (share : Int) (hn : 0 < sq.q.size) :
    strideAdjust sq (some i) share =
      if sq.allShare - (sq.q.items i).share + share ≤ strideMaxShare then
        (0, { sq with allShare := sq.allShare - (sq.q.items i).share + share,
                      q := ⟨sq.q.size, Function.update sq.q.items i
                        { sq.q.items i with share := share }⟩ })
      else (-1, sq) := by
  have hne : heapEmpty sq.q = false := by simp [heapEmpty]; omega
  simp only [strideAdjust, hne, strideCanChangeShare, Bool.false_eq_true, if_false]
  split_ifs <;> simp_all

/-- What `stride_find_item` returns is a slot below `size` holding an item of `p`. -/
theorem strideFindItem_spec {sq : StrideQueue} {p : ProcId} {i : Nat}
    (h : strideFindItem sq p = some i) : i < sq.q.size ∧ (sq.q.items i).proc = some p := by
  have hmem := List.mem_of_find?_eq_some h
  have hp := List.find?_some h
  exact ⟨List.mem_range.mp hmem, by simpa using hp⟩

/-- With slot 0 not `p`'s, an item of `p` in slot 1 is found there, as long as the heap
holds a second item: the loop stops before slot `size`. -/
theorem strideFindItem_eq_one {sq : StrideQueue} {p : ProcId}
    (h0 : (sq.q.items 0).proc ≠ some p) (h1 : (sq.q.items 1).proc = some p)
    (hn : 2 ≤ sq.q.size) : strideFindItem sq p = some 1 := by
  obtain ⟨k, hk⟩ : ∃ k, sq.q.size = k + 2 := ⟨sq.q.size - 2, by omega⟩
  simp [strideFindItem, hk, List.range_succ_eq_map, h0, h1]

/-- `stride_find_item` returns nothing exactly when none of the slots `0 … size - 1` holds an
item of `p`; slot `size` is never looked at. -/
theorem strideFindItem_eq_none_iff {sq : StrideQueue} {p : ProcId} :
    strideFindItem sq p = none ↔ ∀ i, i < sq.q.size → (sq.q.items i).proc ≠ some p := by
  simp only [strideFindItem, List.find?_eq_none, List.mem_range, beq_iff_eq]

/-- A push whose item is not before the parent of the new slot, on a heap with room, writes
the new slot only. -/
theorem stridePush_of_not_lt {sq : StrideQueue} {item : StrideItem} (hn : sq.q.size < nproc)
    (hlt : passLt item (sq.q.items ((sq.q.size + 1) / 2)) = false) :
    (stridePush sq item).2.q =
      ⟨sq.q.size + 1, Function.update sq.q.items (sq.q.size + 1) item⟩ ∧
    (stridePush sq item).2.maxPass = sq.maxPass := by
  simp only [stridePush]
  rw [heapPushItem_of_not_lt hn hlt]
  exact ⟨rfl, rfl⟩

/-- The queue `scheduler()` sets up, with the MLFQ item, after an MLFQ process `p` has joined
with `set_cpu_share(share)`: `p`'s item is the last of two, in slot `size`, and
`stride_find_item(p)` does not find it. -/
theorem findItem_misses_last (p : ProcId) (share : Int) :
    let sq₁ := (stridePush strideInit (strideItemInit strideInit strideMlfqShare none true)).2
    let sq := (stridePush sq₁ (strideItemInit sq₁ share (some p) false)).2
    sq.q.size = 2 ∧ (sq.q.items 2).proc = some p ∧ strideFindItem sq p = none := by
  intro sq₁ sq
  -- both items start at `max_pass = 0/1`, so neither push moves up
  obtain ⟨hq₁, -⟩ := @stridePush_of_not_lt strideInit
    (strideItemInit strideInit strideMlfqShare none true) (by decide) (by decide)
  have hlt : passLt (strideItemInit sq₁ share (some p) false) (sq₁.q.items ((sq₁.q.size + 1) / 2))
      = false := by
    simp only [sq₁, passLt, strideItemInit]
    decide
  obtain ⟨hq, -⟩ := @stridePush_of_not_lt sq₁
    (strideItemInit sq₁ share (some p) false) (by rw [hq₁]; decide) hlt
  have hsq : sq.q = ⟨2, Function.update (Function.update strideInit.q.items 1
      (strideItemInit strideInit strideMlfqShare none true)) 2
        (strideItemInit sq₁ share (some p) false)⟩ := by
    rw [show sq = (stridePush sq₁ (strideItemInit sq₁ share (some p) false)).2 from rfl, hq]
    simp only [sq₁, hq₁]
    rfl
  rw [strideFindItem_eq_none_iff, hsq]
  refine ⟨rfl, by simp [strideItemInit], fun i (hi : i < 2) => ?_⟩
  interval_cases i <;> simp [strideItemInit, strideInit, heapInit]

end Xv6
