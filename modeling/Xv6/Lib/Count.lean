import Mathlib

/-!
# Counting the indices at which a family holds

`Count.count g` is the number of indices of a finite type at which `g` is true. In a model
whose state gives each thread a program counter, `count fun t => cat (pc t)` is the number of
threads in the phases `cat` selects: the value a shared counter of the threads in those phases
should have. A step that moves one thread changes the number by what `count_update` says; a
step that moves many threads, each within or each outside the phases, keeps it.
-/

set_option autoImplicit false

namespace Count

variable {ι : Type*} [Fintype ι]

/-- The number of indices at which `g` is true. -/
def count (g : ι → Bool) : Nat := (Finset.univ.filter fun i => g i = true).card

theorem count_eq_sum (g : ι → Bool) : count g = ∑ i, (g i).toNat := by
  rw [count, Finset.card_filter]
  exact Finset.sum_congr rfl fun i _ => by cases g i <;> rfl

theorem count_eq_zero {g : ι → Bool} : count g = 0 ↔ ∀ i, g i = false := by
  simp [count, Finset.card_eq_zero, Finset.filter_eq_empty_iff]

theorem count_pos {g : ι → Bool} : 0 < count g ↔ ∃ i, g i = true := by
  simp [count, Finset.card_pos, Finset.filter_nonempty_iff]

/-- All indices pass exactly when the count is the number of indices. -/
theorem count_eq_card {g : ι → Bool} : count g = Fintype.card ι ↔ ∀ i, g i = true := by
  rw [count, Finset.card_eq_iff_eq_univ, Finset.filter_eq_self]
  simp

/-- Where fewer than all indices pass, one fails. -/
theorem exists_false_of_count_lt {g : ι → Bool} (h : count g < Fintype.card ι) : ∃ i, g i = false := by
  by_contra hall
  simp only [not_exists, Bool.not_eq_false] at hall
  exact absurd (count_eq_card.mpr hall) (Nat.ne_of_lt h)

/-- Moving index `i` from `g i` to `b`. -/
theorem count_update [DecidableEq ι] (g : ι → Bool) (i : ι) (b : Bool) :
    count (Function.update g i b) + (g i).toNat = count g + b.toNat := by
  -- both sides split off the term at `i` from the sum over the other indices
  have hnew := Finset.sum_update_of_mem (Finset.mem_univ i) (fun j => (g j).toNat) b.toNat
  have hold := Finset.add_sum_erase Finset.univ (fun j => (g j).toNat) (Finset.mem_univ i)
  have hcomp : ∑ j, (Function.update g i b j).toNat =
      ∑ j, Function.update (fun j => (g j).toNat) i b.toNat j :=
    Finset.sum_congr rfl fun j _ => by by_cases hj : j = i <;> simp [Function.update, hj]
  rw [count_eq_sum, count_eq_sum, hcomp, hnew, ← hold, Finset.sdiff_singleton_eq_erase]
  omega

/-- Moving index `i` to `x`, in a sum of a function of the family. -/
theorem sum_update_add [DecidableEq ι] {α : Type*} (f : α → Nat) (g : ι → α) (i : ι) (x : α) :
    ∑ j, f (Function.update g i x j) + f (g i) = ∑ j, f (g j) + f x := by
  have hnew := Finset.sum_update_of_mem (Finset.mem_univ i) (fun j => f (g j)) (f x)
  have hold := Finset.add_sum_erase Finset.univ (fun j => f (g j)) (Finset.mem_univ i)
  have hcomp : ∑ j, f (Function.update g i x j) =
      ∑ j, Function.update (fun j => f (g j)) i (f x) j :=
    Finset.sum_congr rfl fun j _ => Function.apply_update (fun _ => f) g i x j
  rw [hcomp, hnew, ← hold, Finset.sdiff_singleton_eq_erase]
  omega

/-- A sum of terms each at most `M`, and zero where `p` fails, is at most `M` times the
number of indices where `p` holds. -/
theorem sum_le_mul_count {α : Type*} (f : α → Nat) (p : α → Bool) (M : Nat)
    (hf : ∀ a, f a ≤ if p a then M else 0) (g : ι → α) :
    ∑ j, f (g j) ≤ M * count fun j => p (g j) := by
  rw [count_eq_sum, Finset.mul_sum]
  refine Finset.sum_le_sum fun j _ => ?_
  have hj := hf (g j)
  cases hp : p (g j)
  · rw [hp] at hj
    simp only [Bool.false_eq_true, if_false, Nat.le_zero] at hj
    simp [hj]
  · rw [hp, if_pos rfl] at hj
    simpa using hj

end Count
