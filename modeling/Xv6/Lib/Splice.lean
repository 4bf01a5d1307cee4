import Mathlib

/-!
# Writing a segment of a list

`Splice.overwrite l off src` is `l` with the elements from index `off` on replaced by those of
`src`, longer than `l` where `src` runs past its end: the array that a write of `src` at offset
`off` leaves, for an offset within the array. Writing two consecutive pieces is writing the
whole (`overwrite_append`), and the length is the larger of the old length and the end of the
write (`length_overwrite`).
-/

set_option autoImplicit false

namespace Splice

variable {α : Type*}

/-- `l` with `src` written from index `off`. -/
def overwrite (l : List α) (off : Nat) (src : List α) : List α :=
  l.take off ++ src ++ l.drop (off + src.length)

@[simp] theorem overwrite_nil (l : List α) (off : Nat) : overwrite l off [] = l := by
  simp [overwrite]

theorem length_overwrite {l : List α} {off : Nat} (h : off ≤ l.length) (src : List α) :
    (overwrite l off src).length = max l.length (off + src.length) := by
  simp only [overwrite, List.length_append, List.length_take, List.length_drop]
  omega

/-- A write never shortens the list, wherever it starts. -/
theorem length_le_overwrite (l : List α) (off : Nat) (src : List α) :
    l.length ≤ (overwrite l off src).length := by
  simp only [overwrite, List.length_append, List.length_take, List.length_drop]
  omega

theorem le_length_overwrite {l : List α} {off : Nat} (h : off ≤ l.length) (src : List α) :
    off + src.length ≤ (overwrite l off src).length := by
  rw [length_overwrite h]
  exact le_max_right _ _

/-- Element `i` after the write: from `src` inside the written segment, from `l` outside it. -/
theorem getElem?_overwrite {l : List α} {off : Nat} (h : off ≤ l.length) (src : List α)
    (i : Nat) :
    (overwrite l off src)[i]? =
      if off ≤ i ∧ i < off + src.length then src[i - off]? else l[i]? := by
  have htake : (l.take off).length = off := by simp [h]
  unfold overwrite
  rw [List.append_assoc]
  split_ifs with hi
  · rw [List.getElem?_append_right (by omega), List.getElem?_append_left (by omega), htake]
  · by_cases hlt : i < off
    · rw [List.getElem?_append_left (by omega), List.getElem?_take_of_lt hlt]
    · -- past the segment: the tail of `l`, shifted back to index `i`
      rw [List.getElem?_append_right (by omega), List.getElem?_append_right (by omega),
        List.getElem?_drop, htake]
      congr 1
      omega

/-- Element `i` after the write, read with a default. -/
theorem getD_overwrite {l : List α} {off : Nat} (h : off ≤ l.length) (src : List α) (i : Nat)
    (d : α) :
    (overwrite l off src).getD i d =
      if off ≤ i ∧ i < off + src.length then src.getD (i - off) d else l.getD i d := by
  rw [List.getD_eq_getElem?_getD, getElem?_overwrite h]
  split_ifs <;> rw [List.getD_eq_getElem?_getD]

/-- **Two consecutive writes are one**: `s` at `off`, then `t` right after it. -/
theorem overwrite_append {l : List α} {off : Nat} (h : off ≤ l.length) (s t : List α) :
    overwrite l off (s ++ t) = overwrite (overwrite l off s) (off + s.length) t := by
  apply List.ext_getElem?
  intro i
  rw [getElem?_overwrite h, getElem?_overwrite (le_length_overwrite h s),
    getElem?_overwrite h, List.length_append]
  by_cases hs : i < off + s.length
  · -- inside `s`, or before the write
    have hs' : ¬ (off + s.length ≤ i ∧ i < off + s.length + t.length) := by omega
    rw [if_neg hs']
    by_cases ho : off ≤ i
    · rw [if_pos ⟨ho, by omega⟩, if_pos ⟨ho, hs⟩, List.getElem?_append_left (by omega)]
    · rw [if_neg (by omega), if_neg (by omega)]
  · -- inside `t`, or past both
    have ho : off ≤ i := by omega
    by_cases ht : i < off + s.length + t.length
    · rw [if_pos ⟨ho, by omega⟩, if_pos ⟨by omega, ht⟩, List.getElem?_append_right (by omega)]
      congr 1
      omega
    · rw [if_neg (by omega), if_neg (by omega), if_neg (by omega)]

end Splice
