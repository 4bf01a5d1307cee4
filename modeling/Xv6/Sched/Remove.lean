import Xv6.Sched.Stride

/-!
# `stride_remove`

`stride_remove(s)` takes the item in slot `idx = s - items` out of the stride heap. It sets the
item's share to 0 through `stride_adjust`, copies the last item into slot `idx`, decrements
`size`, and then runs one bottom-up pass over the parents `n = size / 2, …, 1`. The pass picks a
child of `n` and swaps it with `n`, and both tests are written with `HEAP_LESS_THAN`, which is
`!frac_is_less_than`:

* the right child is picked when it is *not* before the left one, so the pass picks the
  larger child, and
* the swap happens when the child is *not* before its parent.

So the removal keeps the items (`strideRemove_contents`), but in a min-heap the pass moves
larger items up (`strideRemove_breaks_heap`). The function is not called anywhere in the
kernel.
-/

set_option autoImplicit false

namespace Xv6

open ImplicitHeap

/-- The loop body at parent `n`, as the C writes it: `child` is `2n`, or `2n + 1` when that
slot is in the heap and `HEAP_LESS_THAN(right, left)`; then child and parent swap when
`HEAP_LESS_THAN(child, parent)`. -/
def removeStep (size : Nat) (items : Nat → StrideItem) (n : Nat) : Nat → StrideItem :=
  let c := if 2 * n + 1 ≤ size ∧ passLt (items (2 * n + 1)) (items (2 * n)) = false then 2 * n + 1
    else 2 * n
  if passLt (items c) (items n) = false then
    Function.update (Function.update items c (items n)) n (items c)
  else items

/-- `for(int n = size / 2; n >= 1; n--)`, from parent `n` down to `1`. -/
def removeLoop (size : Nat) (items : Nat → StrideItem) : Nat → (Nat → StrideItem)
  | 0 => items
  | n + 1 => removeLoop size (removeStep size items (n + 1)) n

/-- `stride_remove(s)` on the item in slot `slot`, where `none` is a null `s`. On an empty heap
the result is `none`: `size--` wraps and the loop runs off the array. -/
def strideRemove (sq : StrideQueue) (slot : Option Nat) : Option (Int × StrideQueue) :=
  match slot with
  | none => some (-1, sq)
  | some idx =>
    if sq.q.size = 0 then none
    else
      let sq := (strideAdjust sq (some idx) 0).2
      let size := sq.q.size - 1
      let items := Function.update sq.q.items idx (sq.q.items sq.q.size)
      some (0, { sq with q := ⟨size, removeLoop size items (size / 2)⟩ })

/-! ## What the pass keeps -/

/-- One turn swaps two slots of the heap, or does nothing. -/
theorem contents_removeStep {size n : Nat} (items : Nat → StrideItem) (h1 : 1 ≤ n)
    (h2 : 2 * n ≤ size) : contents (removeStep size items n) size = contents items size := by
  unfold removeStep
  dsimp only
  split_ifs with hc hswap hswap
  · -- the right child and the parent swap
    rw [contents_move (items (2 * n + 1)) (by omega) hc.1 h1 (by omega) (by omega),
      Function.update_eq_self]
  · rfl
  · -- the left child and the parent swap
    rw [contents_move (items (2 * n)) (by omega) h2 h1 (by omega) (by omega),
      Function.update_eq_self]
  · rfl

theorem contents_removeLoop {size : Nat} :
    ∀ (n : Nat) (items : Nat → StrideItem), 2 * n ≤ size →
      contents (removeLoop size items n) size = contents items size
  | 0, _, _ => rfl
  | n + 1, items, h => by
    rw [removeLoop, contents_removeLoop n _ (by omega), contents_removeStep items (by omega) h]

/-- **What `stride_remove` keeps**: the heap loses exactly the item of slot `k`, and within the
cap `all_share` loses its share. -/
theorem strideRemove_contents {sq : StrideQueue} {k : Nat} (h1 : 1 ≤ k) (h2 : k ≤ sq.q.size)
    (hcap : sq.allShare - (sq.q.items k).share ≤ strideMaxShare) :
    ∃ sq', strideRemove sq (some k) = some (0, sq') ∧ sq'.q.size = sq.q.size - 1 ∧
      sq'.q.contents + {sq.q.items k} = sq.q.contents ∧
      sq'.allShare = sq.allShare - (sq.q.items k).share := by
  have hn : sq.q.size ≠ 0 := by omega
  have hadj := @strideAdjust_slot sq k 0 (by omega)
  rw [if_pos (by rw [add_zero]; exact hcap)] at hadj
  obtain ⟨m, hm⟩ : ∃ m, sq.q.size = m + 1 := ⟨sq.q.size - 1, by omega⟩
  refine ⟨_, by simp only [strideRemove, if_neg hn]; rfl, ?_, ?_, ?_⟩
  · rw [hadj]
  · -- the last item fills slot `k`; the pass only swaps slots of the heap
    simp only [hadj, StrideHeap.contents]
    rw [contents_removeLoop _ _ (Nat.mul_div_le _ _), hm, Nat.add_sub_cancel]
    rcases Nat.lt_or_ge k (m + 1) with hk | hk
    · -- slot `k` is in the smaller heap and gets the old last item
      rw [Function.update_idem, Function.update_of_ne (show m + 1 ≠ k by omega),
        contents_update _ h1 (show k ≤ m by omega), contents_succ, ← Multiset.singleton_add]
      exact add_comm _ _
    · -- `k` is the last slot, which leaves the heap
      obtain rfl : k = m + 1 := by omega
      rw [Function.update_eq_self, contents_update_of_lt _ (Or.inl (Nat.lt_succ_self m)),
        contents_succ, ← Multiset.singleton_add]
      exact add_comm _ _
  · rw [hadj]
    simp

/-! ## What the pass breaks -/

/-- Three items in slots `1 … 3` with passes `1/1`, `2/1` and `3/1`, share 1 each. -/
def threeItems (i : Nat) : StrideItem := ⟨⟨UInt32.ofNat i, 1⟩, false, 1, none⟩

/-- **`stride_remove` breaks the heap order**: on the min-heap of passes `1, 2, 3`, removing
the last item leaves `2` above `1`. The pass swaps the root with its child because the child
is not before it. -/
theorem strideRemove_breaks_heap :
    let sq : StrideQueue := ⟨3, fracZero, ⟨3, threeItems⟩⟩
    sq.q.Ordered ∧ ∃ sq', strideRemove sq (some 3) = some (0, sq') ∧ sq'.q.size = 2 ∧
      sq'.q.contents + {threeItems 3} = sq.q.contents ∧ ¬ sq'.q.Ordered := by
  intro sq
  obtain ⟨sq', hrem, hsize, hcont, -⟩ :=
    @strideRemove_contents sq 3 (by decide) (by decide) (by decide)
  have t1 : (1 : UInt32).toNat = 1 := rfl
  have t2 : (2 : UInt32).toNat = 2 := rfl
  have t3 : (3 : UInt32).toNat = 3 := rfl
  refine ⟨?_, sq', hrem, hsize, hcont, ?_⟩
  · -- passes `1, 2, 3` are a min-heap
    intro i h1 (h2 : i ≤ 3)
    interval_cases i <;> norm_num [sq, threeItems, Frac.val, t1, t2, t3]
  · -- after the removal slot 1 holds pass `2` and slot 2 pass `1`
    simp only [strideRemove, if_neg (show sq.q.size ≠ 0 by decide), Option.some.injEq,
      Prod.mk.injEq, true_and] at hrem
    have hp1 : (sq'.q.items 1).pass = ⟨2, 1⟩ := by rw [← hrem]; decide
    have hp2 : (sq'.q.items 2).pass = ⟨1, 1⟩ := by rw [← hrem]; decide
    intro hord
    have h : (sq'.q.items 1).pass.val ≤ (sq'.q.items 2).pass.val := hord 2 le_rfl (by rw [hsize]; decide)
    rw [hp1, hp2] at h
    norm_num [Frac.val, t1, t2] at h

end Xv6
