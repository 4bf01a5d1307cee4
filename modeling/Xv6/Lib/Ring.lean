import Mathlib

/-!
# Ring buffers with a front and a rear index

A ring of `cap` slots `items 0 … items (cap - 1)` with indices `f` and `r` below `cap`
holds the slots `f + 1, f + 2, …, r`, counted modulo `cap`: `r` is the last slot
written and `f` the last slot read. So at most `cap - 1` slots are live, and the
ring is full when `r + 1 ≡ f`.

`Ring.live` lists the live slots in order and `Ring.elems` their contents. Writing
after `r` appends (`elems_push`), clearing after `f` drops the head (`elems_pop`);
these are the two facts a FIFO built on such a ring rests on.
-/

set_option autoImplicit false

namespace Ring

variable {β : Type*}

/-- The number of live slots. -/
def size (cap f r : Nat) : Nat := (r + cap - f) % cap

/-- The live slots, front first. -/
def live (cap f r : Nat) : List Nat :=
  (List.range (size cap f r)).map fun k => (f + 1 + k) % cap

/-- The contents of the live slots, front first. -/
def elems (cap f r : Nat) (items : Nat → β) : List β := (live cap f r).map items

theorem size_lt {cap f r : Nat} (hc : 0 < cap) : size cap f r < cap := Nat.mod_lt _ hc

theorem length_elems (cap f r : Nat) (items : Nat → β) :
    (elems cap f r items).length = size cap f r := by
  simp [elems, live]

/-- The size by cases, as C code computes it. -/
theorem size_eq_ite {cap f r : Nat} (hf : f < cap) (hr : r < cap) :
    size cap f r = if f ≤ r then r - f else cap + r - f := by
  unfold size
  split
  · rw [show r + cap - f = (r - f) + cap by omega, Nat.add_mod_right, Nat.mod_eq_of_lt (by omega)]
  · rw [Nat.mod_eq_of_lt (by omega)]; omega

theorem mem_live {cap f r j : Nat} :
    j ∈ live cap f r ↔ ∃ k, k < size cap f r ∧ j = (f + 1 + k) % cap := by
  simp only [live, List.mem_map, List.mem_range]
  constructor
  · rintro ⟨k, hk, rfl⟩; exact ⟨k, hk, rfl⟩
  · rintro ⟨k, hk, rfl⟩; exact ⟨k, hk, rfl⟩

/-- Two live slots are the same slot only at the same distance from the front. -/
theorem slot_inj {cap f k l : Nat} (hk : k < cap) (hl : l < cap)
    (h : (f + 1 + k) % cap = (f + 1 + l) % cap) : k = l := by
  have := Nat.ModEq.add_left_cancel' (f + 1) h
  rwa [Nat.ModEq, Nat.mod_eq_of_lt hk, Nat.mod_eq_of_lt hl] at this

/-- No slot is live twice. -/
theorem nodup_live {cap f r : Nat} (hc : 0 < cap) : (live cap f r).Nodup := by
  refine List.Nodup.map_on (fun k hk l hl h => ?_) List.nodup_range
  have hsz := size_lt (f := f) (r := r) hc
  exact slot_inj (by simp at hk; omega) (by simp at hl; omega) h

/-- The slot after the last live one is `r + 1`. -/
theorem next_rear {cap f r : Nat} (hf : f < cap) (hr : r < cap) :
    (f + 1 + size cap f r) % cap = (r + 1) % cap := by
  rw [size_eq_ite hf hr]
  split
  · congr 1; omega
  · rw [show f + 1 + (cap + r - f) = (r + 1) + cap by omega, Nat.add_mod_right]

/-- With room left, moving `r` to `r + 1` makes one more slot live. -/
theorem size_succ {cap f r : Nat} (hf : f < cap) (hr : r < cap) (hroom : size cap f r + 1 < cap) :
    size cap f ((r + 1) % cap) = size cap f r + 1 := by
  have hr' : (r + 1) % cap < cap := Nat.mod_lt _ (by omega)
  rw [size_eq_ite hf hr', size_eq_ite hf hr]
  rw [size_eq_ite hf hr] at hroom
  by_cases hrc : r + 1 < cap
  · rw [Nat.mod_eq_of_lt hrc]
    split_ifs at hroom ⊢ <;> omega
  · rw [show r + 1 = cap by omega, Nat.mod_self]
    split_ifs at hroom ⊢ <;> omega

/-- With room left, moving `r` to `r + 1` makes the slot `r + 1` the last live one. -/
theorem live_advance {cap f r : Nat} (hf : f < cap) (hr : r < cap)
    (hroom : size cap f r + 1 < cap) :
    live cap f ((r + 1) % cap) = live cap f r ++ [(r + 1) % cap] := by
  simp only [live, size_succ hf hr hroom, List.range_succ, List.map_append, List.map_cons,
    List.map_nil, next_rear hf hr]

/-- **Advancing the rear**: with room left, moving `r` to `r + 1` without writing the slot
makes whatever the slot holds the last live element. -/
theorem elems_advance {cap f r : Nat} (items : Nat → β) (hf : f < cap) (hr : r < cap)
    (hroom : size cap f r + 1 < cap) :
    elems cap f ((r + 1) % cap) items = elems cap f r items ++ [items ((r + 1) % cap)] := by
  simp only [elems, live_advance hf hr hroom, List.map_append, List.map_cons, List.map_nil]

/-- **Push**: with room left, writing slot `r + 1` and moving `r` there appends. -/
theorem elems_push {cap f r : Nat} (items : Nat → β) (x : β) (hf : f < cap) (hr : r < cap)
    (hroom : size cap f r + 1 < cap) :
    size cap f ((r + 1) % cap) = size cap f r + 1 ∧
      elems cap f ((r + 1) % cap) (Function.update items ((r + 1) % cap) x) =
        elems cap f r items ++ [x] := by
  refine ⟨size_succ hf hr hroom, ?_⟩
  rw [elems_advance _ hf hr hroom, Function.update_self]
  congr 1
  -- the slot written is not one of the live slots before the push
  refine List.map_congr_left fun j hj => ?_
  obtain ⟨k, hk, rfl⟩ := List.mem_map.mp hj
  rw [List.mem_range] at hk
  rw [Function.update_of_ne]
  intro heq
  rw [← next_rear hf hr] at heq
  have := slot_inj (f := f) (by omega) (by omega) heq
  omega

/-- With a live slot, moving `f` to `f + 1` makes one slot fewer live. -/
theorem size_pop {cap f r : Nat} (hf : f < cap) (hr : r < cap) (hne : 0 < size cap f r) :
    size cap ((f + 1) % cap) r = size cap f r - 1 := by
  have hc : 0 < cap := by omega
  have hf' : (f + 1) % cap < cap := Nat.mod_lt _ hc
  rw [size_eq_ite hf' hr, size_eq_ite hf hr]
  rw [size_eq_ite hf hr] at hne
  by_cases hfc : f + 1 < cap
  · rw [Nat.mod_eq_of_lt hfc]
    split_ifs at hne ⊢ <;> omega
  · rw [show f + 1 = cap by omega, Nat.mod_self]
    split_ifs at hne ⊢ <;> omega

/-- With a live slot, the first live slot is `f + 1`, and the others are the live slots once
`f` has moved there. -/
theorem live_pop {cap f r : Nat} (hf : f < cap) (hr : r < cap) (hne : 0 < size cap f r) :
    live cap f r = (f + 1) % cap :: live cap ((f + 1) % cap) r := by
  obtain ⟨n, hn⟩ : ∃ n, size cap f r = n + 1 := ⟨size cap f r - 1, by omega⟩
  simp only [live, size_pop hf hr hne, hn, Nat.add_sub_cancel, List.range_succ_eq_map,
    List.map_cons, List.map_map, Nat.add_zero]
  congr 1
  refine List.map_congr_left fun k _ => ?_
  simp only [Function.comp_apply]
  rw [Nat.add_assoc ((f + 1) % cap), Nat.mod_add_mod]
  congr 1
  omega

/-- **Pop**: with a live slot, moving `f` to `f + 1` and writing `z` there drops the
head, which is `items (f + 1)`. -/
theorem elems_pop {cap f r : Nat} (items : Nat → β) (z : β) (hf : f < cap) (hr : r < cap)
    (hne : 0 < size cap f r) :
    size cap ((f + 1) % cap) r = size cap f r - 1 ∧
      elems cap f r items = items ((f + 1) % cap) ::
        elems cap ((f + 1) % cap) r (Function.update items ((f + 1) % cap) z) := by
  refine ⟨size_pop hf hr hne, ?_⟩
  simp only [elems, live_pop hf hr hne, List.map_cons]
  congr 1
  -- the slot cleared is not live any more
  refine List.map_congr_left fun j hj => (Function.update_of_ne ?_ _ _).symm
  rintro rfl
  have hnd := (live_pop hf hr hne ▸ @nodup_live cap f r (by omega))
  exact (List.nodup_cons.mp hnd).1 hj

/-- The last live slot is `r`. -/
theorem getLast_live {cap f r : Nat} (hf : f < cap) (hr : r < cap) (hne : 0 < size cap f r) :
    (live cap f r).getLast (by simp [live]; omega) = r := by
  obtain ⟨n, hn⟩ : ∃ n, size cap f r = n + 1 := ⟨size cap f r - 1, by omega⟩
  have h := next_rear hf hr
  rw [hn] at h
  simp only [live, hn, List.range_succ, List.map_append, List.map_cons, List.map_nil,
    List.getLast_concat]
  have h2 : (f + 1 + n + 1) % cap = (r + 1) % cap := by rw [← h]; congr 1
  have := Nat.ModEq.add_right_cancel' 1 h2
  rwa [Nat.ModEq, Nat.mod_eq_of_lt hr] at this

end Ring
