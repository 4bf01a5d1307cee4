import Mathlib

/-!
# Stride scheduling

Clients `A` hold shares `w i` of a total `S`, and each carries a pass. A round charges one
client of least pass its stride `S / w i`, and `max` follows the largest pass reached. This is
the scheduler of Waldspurger and Weihl over `ℚ`, with any choice among the clients of least
pass.

Three facts, each proved for one round and then for every run by induction on it:

* **the passes stay close**: a bound `D` on the spread of the passes, which every stride stays
  within, holds after every run (`Run.spread`);
* **`max` bounds every pass** once it does (`Run.maxBounds`);
* **proportional share**: each pass grows by its stride per charge (`Run.pass_eq`), so a
  client charged `c` times in a run of `k` rounds has `|c - k * w i / S| ≤ w i / S * (D₀ + D₁)`,
  where `D₀` and `D₁` bound the spread before and after the run (`Run.count_sub_le`); with
  `Run.spread`, a bound that does not grow with `k`.
-/

set_option autoImplicit false

namespace StrideSched

variable {ι : Type*}

/-- The passes of the clients and the largest pass reached. -/
structure State (ι : Type*) where
  pass : ι → ℚ
  max : ℚ

variable [DecidableEq ι] (A : Finset ι) (w : ι → ℚ) (S : ℚ)

/-- **One round charges client `i`**: a client of least pass, which moves on by its stride;
`max` follows it. -/
structure Step (σ : State ι) (i : ι) (σ' : State ι) : Prop where
  mem : i ∈ A
  least : ∀ j ∈ A, σ.pass i ≤ σ.pass j
  pass : σ'.pass = Function.update σ.pass i (σ.pass i + S / w i)
  max : σ'.max = max σ.max (σ.pass i + S / w i)

/-- A run of rounds, with the clients charged in order. -/
inductive Run : State ι → List ι → State ι → Prop
  | nil (σ : State ι) : Run σ [] σ
  | cons {σ σ' σ'' : State ι} {i : ι} {l : List ι} :
      Step A w S σ i σ' → Run σ' l σ'' → Run σ (i :: l) σ''

/-- The passes of the clients lie within `D` of each other. -/
def Spread (p : ι → ℚ) (D : ℚ) : Prop := ∀ i ∈ A, ∀ j ∈ A, p i - p j ≤ D

/-- `max` is at least the pass of every client. -/
def MaxBounds (σ : State ι) : Prop := ∀ i ∈ A, σ.pass i ≤ σ.max

variable {A w S}

/-! ## One round -/

section Round

variable {σ σ' : State ι} {i : ι}

theorem Step.pass_self (h : Step A w S σ i σ') : σ'.pass i = σ.pass i + S / w i := by
  rw [h.pass, Function.update_self]

theorem Step.pass_of_ne (h : Step A w S σ i σ') {j : ι} (hj : j ≠ i) :
    σ'.pass j = σ.pass j := by
  rw [h.pass, Function.update_of_ne hj]

/-- **One round keeps the spread** within a bound that the stride charged stays within: the
client charged was the last, and ends at most its stride ahead of any other. -/
theorem Step.spread {D : ℚ} (h : Step A w S σ i σ') (hD : Spread A σ.pass D)
    (hs0 : 0 ≤ S / w i) (hs : S / w i ≤ D) : Spread A σ'.pass D := by
  intro j hj k hk
  have hD0 : 0 ≤ D := by simpa using hD i h.mem i h.mem
  by_cases hji : j = i
  · by_cases hki : k = i
    · rw [hji, hki, sub_self]
      exact hD0
    · rw [hji, h.pass_self, h.pass_of_ne hki]
      linarith [h.least k hk]
  · by_cases hki : k = i
    · rw [hki, h.pass_of_ne hji, h.pass_self]
      linarith [hD j hj i h.mem]
    · rw [h.pass_of_ne hji, h.pass_of_ne hki]
      exact hD j hj k hk

/-- One round keeps every pass at most `max`. -/
theorem Step.maxBounds (h : Step A w S σ i σ') (hb : MaxBounds A σ) : MaxBounds A σ' := by
  intro j hj
  rw [h.max]
  by_cases hji : j = i
  · rw [hji, h.pass_self]
    exact le_max_right _ _
  · rw [h.pass_of_ne hji]
    exact (hb j hj).trans (le_max_left _ _)

end Round

/-! ## Runs -/

section Runs

variable {σ σ' : State ι} {l : List ι}

theorem Run.mem (h : Run A w S σ l σ') : ∀ i ∈ l, i ∈ A := by
  induction h with
  | nil => simp
  | cons hs _ ih =>
    intro j hj
    rcases List.mem_cons.mp hj with rfl | hj
    · exact hs.mem
    · exact ih j hj

/-- **The spread stays within `D`** over every run, when every stride does. -/
theorem Run.spread {D : ℚ} (h : Run A w S σ l σ') (hD : Spread A σ.pass D)
    (hs : ∀ i ∈ A, 0 ≤ S / w i ∧ S / w i ≤ D) : Spread A σ'.pass D := by
  induction h with
  | nil => exact hD
  | cons hstep _ ih => exact ih (hstep.spread hD (hs _ hstep.mem).1 (hs _ hstep.mem).2)

/-- **`max` bounds every pass** over every run, once it does. -/
theorem Run.maxBounds (h : Run A w S σ l σ') (hb : MaxBounds A σ) : MaxBounds A σ' := by
  induction h with
  | nil => exact hb
  | cons hstep _ ih => exact ih (hstep.maxBounds hb)

/-- **Each pass grows by its stride once per charge.** -/
theorem Run.pass_eq (h : Run A w S σ l σ') (j : ι) :
    σ'.pass j = σ.pass j + l.count j * (S / w j) := by
  induction h with
  | nil => simp
  | @cons σ σ' σ'' i l hstep _ ih =>
    rw [ih, List.count_cons]
    by_cases hji : j = i
    · rw [hji, hstep.pass_self]
      simp only [beq_self_eq_true, if_true, Nat.cast_add, Nat.cast_one]
      ring
    · rw [hstep.pass_of_ne hji]
      simp [Ne.symm hji]

/-- The charges of a run add up to its length. -/
theorem Run.sum_count (h : Run A w S σ l σ') : ∑ j ∈ A, (l.count j : ℚ) = l.length := by
  have hc := Multiset.sum_count_eq_card (s := A) (m := (l : Multiset ι)) h.mem
  simp only [Multiset.coe_count, Multiset.coe_card] at hc
  exact_mod_cast hc

end Runs

omit [DecidableEq ι] in
/-- Two clients' gains between passes within `D₀` and passes within `D₁` differ by at most
`D₀ + D₁`. -/
theorem gain_sub_le {p p' : ι → ℚ} {D₀ D₁ : ℚ} (h0 : Spread A p D₀) (h1 : Spread A p' D₁)
    {i j : ι} (hi : i ∈ A) (hj : j ∈ A) : |(p' i - p i) - (p' j - p j)| ≤ D₀ + D₁ := by
  rw [abs_le]
  constructor
  · linarith [h0 i hi j hj, h1 j hj i hi]
  · linarith [h0 j hj i hi, h1 i hi j hj]

/-- **Proportional share over any run**: with `S` the total of the shares, the charges of a
client differ from its part `w i / S` of the rounds by at most `w i / S * (D₀ + D₁)`. -/
theorem Run.count_sub_le {σ σ' : State ι} {l : List ι} {D₀ D₁ : ℚ} (h : Run A w S σ l σ')
    (hS : S = ∑ j ∈ A, w j) (hw : ∀ j ∈ A, 0 < w j) (h0 : Spread A σ.pass D₀)
    (h1 : Spread A σ'.pass D₁) {i : ι} (hi : i ∈ A) :
    |(l.count i : ℚ) - l.length * (w i / S)| ≤ w i / S * (D₀ + D₁) := by
  have hSpos : 0 < S := hS ▸ Finset.sum_pos hw ⟨i, hi⟩
  -- the gain of client `j` over the run is its charges times its stride
  set t : ι → ℚ := fun j => σ'.pass j - σ.pass j with ht
  have hcount : ∀ j ∈ A, (l.count j : ℚ) = w j / S * t j := by
    intro j hj
    have hwj : w j ≠ 0 := (hw j hj).ne'
    have hS0 : S ≠ 0 := hSpos.ne'
    simp only [ht]
    rw [h.pass_eq j]
    field_simp
    ring
  have hsum1 : ∑ j ∈ A, w j / S = 1 := by
    rw [← Finset.sum_div, ← hS, div_self hSpos.ne']
  -- the deviation is `w i / S` times a weighted mean of differences of gains
  have hmean : ∑ j ∈ A, w j / S * (t i - t j) = t i - ∑ j ∈ A, w j / S * t j := by
    rw [Finset.sum_congr rfl (fun j _ => mul_sub (w j / S) (t i) (t j)), Finset.sum_sub_distrib,
      ← Finset.sum_mul, hsum1, one_mul]
  have hdev : (l.count i : ℚ) - l.length * (w i / S) =
      w i / S * ∑ j ∈ A, w j / S * (t i - t j) := by
    rw [← h.sum_count, Finset.sum_congr rfl hcount, hcount i hi, hmean]
    ring
  rw [hdev, abs_mul, abs_of_pos (div_pos (hw i hi) hSpos)]
  apply mul_le_mul_of_nonneg_left _ (div_pos (hw i hi) hSpos).le
  calc |∑ j ∈ A, w j / S * (t i - t j)|
      ≤ ∑ j ∈ A, |w j / S * (t i - t j)| := Finset.abs_sum_le_sum_abs _ _
    _ ≤ ∑ j ∈ A, w j / S * (D₀ + D₁) := by
      apply Finset.sum_le_sum
      intro j hj
      rw [abs_mul, abs_of_pos (div_pos (hw j hj) hSpos)]
      exact mul_le_mul_of_nonneg_left (gain_sub_le h0 h1 hi hj) (div_pos (hw j hj) hSpos).le
    _ = D₀ + D₁ := by rw [← Finset.sum_mul, hsum1, one_mul]

end StrideSched
