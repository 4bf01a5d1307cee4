import Mathlib

/-!
# Ring buffers with free-running counters

A buffer of `C` slots with a read counter `r` and a write counter `w` that only ever
increase, each kept modulo `M` (a machine word), and slot `x % C` for counter value `x`.
When `C` divides `M` the slot of a counter does not jump when the counter wraps, so the
buffer holds the `count M r w = (w - r) mod M` slots from `r` on, in order (`elems`), and
the counters alone tell an empty buffer (`r = w`) from a full one (`w = r + C` modulo `M`).

Writing slot `w % C` and moving `w` appends (`elems_push`); moving `r` drops the slot
`r % C` from the front (`elems_pop`). These are the two facts a FIFO built on such a buffer
rests on.
-/

set_option autoImplicit false

namespace CountRing

variable {β : Type*}

/-- The number of slots from `r` to `w`, counters taken modulo `M`. -/
def count (M r w : Nat) : Nat := (w + M - r) % M

/-- The contents of the slots from `r` to `w`, oldest first. -/
def elems (M C r w : Nat) (items : Nat → β) : List β :=
  (List.range (count M r w)).map fun k => items ((r + k) % C)

section

variable {M C r w : Nat}

@[simp] theorem length_elems (items : Nat → β) : (elems M C r w items).length = count M r w := by
  simp [elems]

theorem count_lt (hM : 0 < M) : count M r w < M := Nat.mod_lt _ hM

/-- The count by cases, as unsigned subtraction computes it. -/
theorem count_eq_ite (hr : r < M) (hw : w < M) : count M r w = if r ≤ w then w - r else w + M - r := by
  unfold count
  split_ifs with hle
  · rw [show w + M - r = (w - r) + M by omega, Nat.add_mod_right, Nat.mod_eq_of_lt (by omega)]
  · exact Nat.mod_eq_of_lt (by omega)

/-- The counter `w` is `count` slots past `r`. -/
theorem add_count_mod (hr : r < M) (hw : w < M) : (r + count M r w) % M = w := by
  rw [count_eq_ite hr hw]
  split_ifs
  · rw [show r + (w - r) = w by omega, Nat.mod_eq_of_lt hw]
  · rw [show r + (w + M - r) = w + M by omega, Nat.add_mod_right, Nat.mod_eq_of_lt hw]

/-- A counter modulo `M` has the slot of the counter itself. -/
theorem mod_mod_slot (hCM : C ∣ M) (x : Nat) : x % M % C = x % C := Nat.mod_mod_of_dvd x hCM

/-- `count` is the distance from `r` to `w`: full is `w = r + C` modulo `M`, empty is
`w = r`. -/
theorem count_eq_iff (hr : r < M) (hw : w < M) {c : Nat} (hc : c < M) :
    count M r w = c ↔ w = (r + c) % M := by
  constructor
  · rintro rfl
    exact (add_count_mod hr hw).symm
  · intro h
    rw [count_eq_ite hr hw]
    by_cases hrc : r + c < M
    · rw [Nat.mod_eq_of_lt hrc] at h
      split_ifs <;> omega
    · rw [Nat.mod_eq_sub_mod (by omega), Nat.mod_eq_of_lt (by omega)] at h
      split_ifs <;> omega

theorem count_eq_zero (hr : r < M) (hw : w < M) : count M r w = 0 ↔ r = w := by
  rw [count_eq_iff hr hw (by omega), Nat.add_zero, Nat.mod_eq_of_lt hr, eq_comm]

/-- Moving `w` makes one slot more, while that is below `M`. -/
theorem count_push (hr : r < M) (hw : w < M) (h : count M r w + 1 < M) :
    count M r ((w + 1) % M) = count M r w + 1 := by
  rw [count_eq_iff hr (Nat.mod_lt _ (by omega)) h]
  conv_lhs => rw [← add_count_mod hr hw]
  rw [Nat.mod_add_mod, Nat.add_assoc]

/-- Moving `r` past a slot makes one slot fewer. -/
theorem count_pop (hr : r < M) (hw : w < M) (hne : 0 < count M r w) :
    count M ((r + 1) % M) w = count M r w - 1 := by
  have hlt := count_lt (r := r) (w := w) (show 0 < M by omega)
  rw [count_eq_iff (Nat.mod_lt _ (by omega)) hw (by omega), Nat.mod_add_mod,
    show r + 1 + (count M r w - 1) = r + count M r w by omega, add_count_mod hr hw]

/-- **Push.** With a free slot, writing slot `w % C` and moving `w` appends. -/
theorem elems_push (hCM : C ∣ M) (hCM' : C < M) (hr : r < M) (hw : w < M)
    (hroom : count M r w < C) (items : Nat → β) (x : β) :
    elems M C r ((w + 1) % M) (Function.update items (w % C) x) = elems M C r w items ++ [x] := by
  have hw' : (r + count M r w) % C = w % C := by
    rw [← mod_mod_slot hCM, add_count_mod hr hw]
  rw [elems, count_push hr hw (by omega), List.range_succ, List.map_append, List.map_singleton,
    hw', Function.update_self]
  congr 1
  -- the slot written is none of the slots of the buffer before
  refine List.map_congr_left fun k hk => Function.update_of_ne ?_ _ _
  rw [List.mem_range] at hk
  intro heq
  rw [← hw'] at heq
  have := Nat.ModEq.add_left_cancel' r heq
  rw [Nat.ModEq, Nat.mod_eq_of_lt (by omega), Nat.mod_eq_of_lt (by omega)] at this
  omega

/-- **Pop.** A nonempty buffer holds the slot `r % C`, then the slots from `r + 1`. -/
theorem elems_pop (hCM : C ∣ M) (hr : r < M) (hw : w < M) (hne : 0 < count M r w)
    (items : Nat → β) :
    elems M C r w items = items (r % C) :: elems M C ((r + 1) % M) w items := by
  rw [elems, elems, count_pop hr hw hne]
  obtain ⟨c, hc⟩ : ∃ c, count M r w = c + 1 := ⟨count M r w - 1, by omega⟩
  rw [hc, List.range_succ_eq_map, List.map_cons, List.map_map, Nat.add_sub_cancel, Nat.add_zero]
  congr 1
  refine List.map_congr_left fun k _ => ?_
  -- the slot `k` after `r + 1` is the slot `k + 1` after `r`, across a wrap of `r + 1`
  simp only [Function.comp_apply]
  rw [Nat.add_mod ((r + 1) % M) k C, mod_mod_slot hCM, ← Nat.add_mod]
  congr 2
  omega

end

end CountRing
