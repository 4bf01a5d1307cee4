import Mathlib

/-!
# `fraction.c` — passes as pairs of `uint`s

The stride scheduler keeps every pass, and the running maximum `max_pass`, as a
`struct frac { uint num; uint denom; }`. Nothing in `fraction.c` checks for
overflow: `_lcm` multiplies, `frac_add` multiplies and adds, `frac_is_less_than`
cross-multiplies, all in 32-bit unsigned arithmetic. This module embeds the four
functions the scheduler calls with `UInt32` arithmetic, so a product that passes
`2^32` wraps here exactly as it does in the kernel.

The second half says when the arithmetic is *exact*. `CmpFits a b` and
`AddFits a b` name the side conditions (the lcm of the denominators, the two
scaled numerators and, for the sum, their total stay below `2^32`), and under
them

* `frac_is_less_than a b` is the order of `ℚ` (`fracIsLessThan_iff`), and
* `frac_add a b` returns a fraction of value `a + b` (`fracAdd_val`).

`frac_sub` is not used by any function this development models and is left out.
-/

set_option autoImplicit false

namespace Xv6

/-- `struct frac`. -/
structure Frac where
  num : UInt32
  denom : UInt32
  deriving DecidableEq, Repr

/-- `_gcd`'s loop, `while((r = a % b)) { a = b; b = r; }`, given `fuel` turns. -/
def gcdLoop : Nat → UInt32 → UInt32 → UInt32
  | 0, _, b => b
  | fuel + 1, a, b =>
    let r := a % b
    if r = 0 then b else gcdLoop fuel b r

/-- `_gcd(a, b)`. The remainder strictly decreases, so `b` turns of the loop always
suffice (`gcdLoop_toNat`); the callers never pass `b = 0`, where the C `%` would be
undefined. -/
def gcd (a b : UInt32) : UInt32 := gcdLoop b.toNat a b

/-- `_lcm(a, b)`: `a / _gcd(a, b) * b`, in `uint`. -/
def lcm (a b : UInt32) : UInt32 := a / gcd a b * b

/-- `frac_init(self, num, denom)`: fails on a zero denominator, else stores the
fraction divided by the gcd. (`self` is never null at a call site.) -/
def fracInit (num denom : UInt32) : Option Frac :=
  if denom = 0 then none
  else
    let g := gcd num denom
    some ⟨num / g, denom / g⟩

/-- `frac_add(self, a, b)`: scale both numerators to `_lcm` of the denominators, add,
and reduce through `frac_init`. -/
def fracAdd (a b : Frac) : Option Frac :=
  let denom := lcm a.denom b.denom
  let num := a.num * (denom / a.denom) + b.num * (denom / b.denom)
  fracInit num denom

/-- `frac_zero(self)`, which is `frac_init(self, 0, 1)` and cannot fail. -/
def fracZero : Frac := ⟨0, 1⟩

example : fracInit 0 1 = some fracZero := by decide

/-- `frac_is_less_than(a, b)`: cross-multiplication against `_lcm` of the denominators. -/
def fracIsLessThan (a b : Frac) : Bool :=
  let denom := lcm a.denom b.denom
  decide (a.num * (denom / a.denom) < b.num * (denom / b.denom))

/-! ## Values -/

/-- The rational number a fraction stands for. -/
def Frac.val (a : Frac) : ℚ := (a.num.toNat : ℚ) / a.denom.toNat

/-- The lcm `frac_add` and `frac_is_less_than` compute, over `Nat`. -/
def Frac.lcmN (a b : Frac) : Nat := Nat.lcm a.denom.toNat b.denom.toNat

/-- `a.num` scaled to the common denominator with `b`. -/
def Frac.scaleN (a b : Frac) : Nat := a.num.toNat * (Frac.lcmN a b / a.denom.toNat)

/-- Comparing `a` with `b` does not wrap: both denominators are positive and the lcm
and both scaled numerators stay below `2^32`. -/
structure CmpFits (a b : Frac) : Prop where
  left_pos : 0 < a.denom.toNat
  right_pos : 0 < b.denom.toNat
  lcm_lt : Frac.lcmN a b < 2 ^ 32
  left_lt : Frac.scaleN a b < 2 ^ 32
  right_lt : Frac.scaleN b a < 2 ^ 32

/-- Adding `a` and `b` does not wrap: the comparison does not, and neither does the sum
of the scaled numerators. -/
structure AddFits (a b : Frac) : Prop extends CmpFits a b where
  sum_lt : Frac.scaleN a b + Frac.scaleN b a < 2 ^ 32

instance cmpFits_decidable (a b : Frac) : Decidable (CmpFits a b) :=
  decidable_of_iff (0 < a.denom.toNat ∧ 0 < b.denom.toNat ∧ Frac.lcmN a b < 2 ^ 32 ∧
      Frac.scaleN a b < 2 ^ 32 ∧ Frac.scaleN b a < 2 ^ 32)
    ⟨fun ⟨h1, h2, h3, h4, h5⟩ => ⟨h1, h2, h3, h4, h5⟩,
      fun h => ⟨h.left_pos, h.right_pos, h.lcm_lt, h.left_lt, h.right_lt⟩⟩

instance addFits_decidable (a b : Frac) : Decidable (AddFits a b) :=
  decidable_of_iff (CmpFits a b ∧ Frac.scaleN a b + Frac.scaleN b a < 2 ^ 32)
    ⟨fun ⟨h1, h2⟩ => ⟨h1, h2⟩, fun h => ⟨h.toCmpFits, h.sum_lt⟩⟩


/-! ## The loops, over `Nat` -/

theorem UInt32.eq_zero_iff_toNat {a : UInt32} : a = 0 ↔ a.toNat = 0 := by
  rw [← UInt32.toNat_inj]; rfl

/-- Euclid's loop computes `Nat.gcd` once it has at least `b` turns. -/
theorem gcdLoop_toNat : ∀ (fuel : Nat) (a b : UInt32), 0 < b.toNat → b.toNat ≤ fuel →
    (gcdLoop fuel a b).toNat = Nat.gcd a.toNat b.toNat
  | 0, _, _, hb, hf => absurd hf (by omega)
  | fuel + 1, a, b, hb, hf => by
    simp only [gcdLoop]
    split
    · rename_i hr
      -- `b` divides `a`: the loop stops with `b`.
      have hmod : a.toNat % b.toNat = 0 := by
        simpa using (UInt32.eq_zero_iff_toNat.mp hr)
      rw [Nat.gcd_comm, Nat.gcd_eq_left_iff_dvd.mpr (Nat.dvd_of_mod_eq_zero hmod)]
    · rename_i hr
      have hr' : 0 < (a % b).toNat := by
        have := mt UInt32.eq_zero_iff_toNat.mpr hr
        omega
      have hlt : (a % b).toNat < b.toNat := by
        simpa using Nat.mod_lt a.toNat hb
      rw [gcdLoop_toNat fuel b (a % b) hr' (by omega), UInt32.toNat_mod,
        Nat.gcd_comm a.toNat, Nat.gcd_rec b.toNat a.toNat, Nat.gcd_comm]

theorem gcd_toNat {a b : UInt32} (hb : 0 < b.toNat) :
    (gcd a b).toNat = Nat.gcd a.toNat b.toNat :=
  gcdLoop_toNat b.toNat a b hb le_rfl

/-- Without wrapping, `_lcm` is `Nat.lcm`. -/
theorem lcm_toNat {a b : UInt32} (hb : 0 < b.toNat)
    (hl : Nat.lcm a.toNat b.toNat < 2 ^ 32) : (lcm a b).toNat = Nat.lcm a.toNat b.toNat := by
  have hg : (gcd a b).toNat = Nat.gcd a.toNat b.toNat := gcd_toNat hb
  have hq : (a / gcd a b).toNat = a.toNat / Nat.gcd a.toNat b.toNat := by
    rw [UInt32.toNat_div, hg]
  have hdiv : a.toNat / Nat.gcd a.toNat b.toNat * b.toNat = Nat.lcm a.toNat b.toNat := by
    rw [Nat.lcm, Nat.div_mul_right_comm (Nat.gcd_dvd_left _ _)]
  rw [lcm, UInt32.toNat_mul, hq, hdiv, Nat.mod_eq_of_lt hl]

/-! ## `frac_init` -/

theorem fracInit_eq {num denom : UInt32} (hd : 0 < denom.toNat) :
    fracInit num denom = some ⟨num / gcd num denom, denom / gcd num denom⟩ := by
  have : denom ≠ 0 := fun h => by simp [h] at hd
  simp [fracInit, this]

/-- `frac_init` on a positive denominator keeps the value, leaves a positive denominator
and reduces to lowest terms. -/
theorem fracInit_spec {num denom : UInt32} (hd : 0 < denom.toNat) :
    ∃ c, fracInit num denom = some c ∧
      c.val = (num.toNat : ℚ) / denom.toNat ∧ 0 < c.denom.toNat ∧
      Nat.Coprime c.num.toNat c.denom.toNat := by
  refine ⟨_, fracInit_eq hd, ?_, ?_, ?_⟩ <;>
    simp only [Frac.val, UInt32.toNat_div, gcd_toNat hd]
  · have hg : 0 < Nat.gcd num.toNat denom.toNat := Nat.gcd_pos_of_pos_right _ hd
    rw [Nat.cast_div (Nat.gcd_dvd_left _ _) (by exact_mod_cast hg.ne'),
      Nat.cast_div (Nat.gcd_dvd_right _ _) (by exact_mod_cast hg.ne')]
    have : (Nat.gcd num.toNat denom.toNat : ℚ) ≠ 0 := by exact_mod_cast hg.ne'
    field_simp
  · exact Nat.div_pos (Nat.gcd_le_right _ hd) (Nat.gcd_pos_of_pos_right _ hd)
  · exact Nat.coprime_div_gcd_div_gcd (Nat.gcd_pos_of_pos_right _ hd)

/-- What `frac_init` returns is in lowest terms, with a positive denominator. -/
theorem fracInit_reduced {num denom : UInt32} {c : Frac} (h : fracInit num denom = some c) :
    Nat.Coprime c.num.toNat c.denom.toNat ∧ 0 < c.denom.toNat := by
  have hd : 0 < denom.toNat := by
    rcases Nat.eq_zero_or_pos denom.toNat with h0 | h0
    · have : denom = 0 := UInt32.eq_zero_iff_toNat.mpr h0
      simp [fracInit, this] at h
    · exact h0
  obtain ⟨c', hc', -, hpos, hcop⟩ := @fracInit_spec num denom hd
  obtain rfl : c' = c := Option.some.inj (hc'.symm.trans h)
  exact ⟨hcop, hpos⟩

/-- On a fraction in lowest terms `frac_init` gives the fraction back. -/
theorem fracInit_self {c : Frac} (hc : Nat.Coprime c.num.toNat c.denom.toNat)
    (hd : 0 < c.denom.toNat) : fracInit c.num c.denom = some c := by
  have hg : gcd c.num c.denom = 1 := by
    apply UInt32.toNat_inj.mp
    rw [gcd_toNat hd]
    exact hc
  rw [fracInit_eq hd, hg, UInt32.div_one, UInt32.div_one]

theorem CmpFits.symm {a b : Frac} (h : CmpFits a b) : CmpFits b a where
  left_pos := h.right_pos
  right_pos := h.left_pos
  lcm_lt := by rw [Frac.lcmN, Nat.lcm_comm]; exact h.lcm_lt
  left_lt := h.right_lt
  right_lt := h.left_lt

/-! ## Exactness -/

theorem Frac.lcmN_comm (a b : Frac) : Frac.lcmN b a = Frac.lcmN a b := Nat.lcm_comm _ _

/-- Over the common denominator, a fraction is its scaled numerator. -/
theorem Frac.val_eq_scaleN {a b : Frac} (ha : 0 < a.denom.toNat) (hb : 0 < b.denom.toNat) :
    a.val = (Frac.scaleN a b : ℚ) / Frac.lcmN a b := by
  obtain ⟨k, hk⟩ : a.denom.toNat ∣ Frac.lcmN a b := Nat.dvd_lcm_left _ _
  have hkpos : 0 < k := by
    have := Nat.lcm_pos ha hb
    rw [Frac.lcmN] at hk
    rcases Nat.eq_zero_or_pos k with h0 | h0
    · rw [h0, Nat.mul_zero] at hk; omega
    · exact h0
  have hq : Frac.lcmN a b / a.denom.toNat = k := by
    rw [hk, Nat.mul_div_cancel_left _ ha]
  rw [Frac.val, Frac.scaleN, hq, hk]
  have : (a.denom.toNat : ℚ) ≠ 0 := by exact_mod_cast ha.ne'
  have : (k : ℚ) ≠ 0 := by exact_mod_cast hkpos.ne'
  push_cast
  field_simp

/-- The three `uint` values `frac_is_less_than` and `frac_add` compute, when nothing
wraps: the lcm and the two scaled numerators. -/
theorem CmpFits.toNat {a b : Frac} (h : CmpFits a b) :
    (lcm a.denom b.denom).toNat = Frac.lcmN a b ∧
      (a.num * (lcm a.denom b.denom / a.denom)).toNat = Frac.scaleN a b ∧
      (b.num * (lcm a.denom b.denom / b.denom)).toNat = Frac.scaleN b a := by
  have hl : (lcm a.denom b.denom).toNat = Frac.lcmN a b := lcm_toNat h.right_pos h.lcm_lt
  refine ⟨hl, ?_, ?_⟩
  · rw [UInt32.toNat_mul, UInt32.toNat_div, hl]
    exact Nat.mod_eq_of_lt h.left_lt
  · rw [UInt32.toNat_mul, UInt32.toNat_div, hl, ← Frac.lcmN_comm a b]
    exact Nat.mod_eq_of_lt h.right_lt

/-- **`frac_is_less_than` is the order of `ℚ`** on every pair whose comparison does not
wrap. -/
theorem fracIsLessThan_iff {a b : Frac} (h : CmpFits a b) :
    fracIsLessThan a b = true ↔ a.val < b.val := by
  obtain ⟨-, hx, hy⟩ := h.toNat
  have hL : (0 : ℚ) < Frac.lcmN a b := by exact_mod_cast Nat.lcm_pos h.left_pos h.right_pos
  rw [Frac.val_eq_scaleN h.left_pos h.right_pos, Frac.val_eq_scaleN h.right_pos h.left_pos,
    Frac.lcmN_comm a b, div_lt_div_iff_of_pos_right hL]
  simp only [fracIsLessThan, decide_eq_true_eq, UInt32.lt_iff_toNat_lt, hx, hy, Nat.cast_lt]

/-- **`frac_add` is exact** when the sum does not wrap: it returns the reduced sum. -/
theorem fracAdd_val {a b : Frac} (h : AddFits a b) :
    ∃ c, fracAdd a b = some c ∧ c.val = a.val + b.val ∧ 0 < c.denom.toNat ∧
      Nat.Coprime c.num.toNat c.denom.toNat := by
  obtain ⟨hl, hx, hy⟩ := h.toCmpFits.toNat
  have hsum : (a.num * (lcm a.denom b.denom / a.denom) +
      b.num * (lcm a.denom b.denom / b.denom)).toNat = Frac.scaleN a b + Frac.scaleN b a := by
    rw [UInt32.toNat_add, hx, hy, Nat.mod_eq_of_lt h.sum_lt]
  have hLpos : 0 < (lcm a.denom b.denom).toNat := by
    rw [hl]; exact Nat.lcm_pos h.left_pos h.right_pos
  obtain ⟨c, hc, hval, hpos, hcop⟩ := @fracInit_spec (a.num * (lcm a.denom b.denom /
    a.denom) + b.num * (lcm a.denom b.denom / b.denom)) _ hLpos
  refine ⟨c, hc, ?_, hpos, hcop⟩
  rw [hval, hsum, hl, Frac.val_eq_scaleN h.left_pos h.right_pos,
    Frac.val_eq_scaleN h.right_pos h.left_pos, Frac.lcmN_comm a b]
  push_cast
  ring

/-- **`fraction.c` is exact where nothing wraps.** `frac_init` on a nonzero denominator stores
the value in lowest terms, and on every pair whose lcm, scaled numerators and sum fit in a
`uint`, `frac_add` is the reduced sum and `frac_is_less_than` the order of `ℚ`. -/
theorem fraction_exact :
    (∀ num denom : UInt32, denom ≠ 0 → ∃ c, fracInit num denom = some c ∧
      Nat.Coprime c.num.toNat c.denom.toNat ∧ 0 < c.denom.toNat ∧
      c.val = (num.toNat : ℚ) / denom.toNat) ∧
    ∀ a b : Frac, AddFits a b →
      (∃ c, fracAdd a b = some c ∧ c.val = a.val + b.val ∧ 0 < c.denom.toNat ∧
        Nat.Coprime c.num.toNat c.denom.toNat) ∧
      (fracIsLessThan a b = true ↔ a.val < b.val) := by
  refine ⟨fun num denom hd => ?_, fun a b h => ⟨fracAdd_val h, fracIsLessThan_iff h.toCmpFits⟩⟩
  have hd' : 0 < denom.toNat := Nat.pos_of_ne_zero (mt UInt32.eq_zero_iff_toNat.mpr hd)
  obtain ⟨c, hc, hval, hpos, hcop⟩ := @fracInit_spec num denom hd'
  exact ⟨c, hc, hcop, hpos, hval⟩

/-- `frac_init(6, 4)` and the pair `1/2`, `1/3`, which fits. -/
theorem fraction_exact_small :
    (∃ c, fracInit 6 4 = some c ∧ Nat.Coprime c.num.toNat c.denom.toNat ∧ 0 < c.denom.toNat ∧
      c.val = ((6 : UInt32).toNat : ℚ) / (4 : UInt32).toNat) ∧
    AddFits ⟨1, 2⟩ ⟨1, 3⟩ ∧
    (fracIsLessThan ⟨1, 2⟩ ⟨1, 3⟩ = true ↔ Frac.val ⟨1, 2⟩ < Frac.val ⟨1, 3⟩) := by
  have h1 : (1 : UInt32).toNat = 1 := rfl
  have h2 : (2 : UInt32).toNat = 2 := rfl
  have h3 : (3 : UInt32).toNat = 3 := rfl
  have hfit : AddFits ⟨1, 2⟩ ⟨1, 3⟩ :=
    { left_pos := by decide, right_pos := by decide,
      lcm_lt := by norm_num [Frac.lcmN, h2, h3],
      left_lt := by norm_num [Frac.scaleN, Frac.lcmN, h1, h2, h3],
      right_lt := by norm_num [Frac.scaleN, Frac.lcmN, h1, h2, h3],
      sum_lt := by norm_num [Frac.scaleN, Frac.lcmN, h1, h2, h3] }
  exact ⟨fraction_exact.1 6 4 (by decide), hfit, (fraction_exact.2 _ _ hfit).2⟩

/-! ## Denominators stay off multiples of `2^7`

Even when the products wrap, no `_lcm` the scheduler computes is `0`: a denominator
whose number of factors 2 is below seven keeps it through `_lcm` (the factors 2 of an
lcm are the larger of the two counts, and reducing modulo `2^32` keeps the low seven bits)
and through the division by the gcd in `frac_init`. Every share is below `2^7`, so
`frac_init` and `frac_add` on passes and strides never fail. -/

/-- Fewer than seven factors 2 in the denominator; in particular it is not `0`. -/
def Frac.SmallTwos (a : Frac) : Prop := ¬ 2 ^ 7 ∣ a.denom.toNat

theorem not_two_pow_dvd_lcm {a b : Nat} (ha : ¬ 2 ^ 7 ∣ a) (hb : ¬ 2 ^ 7 ∣ b) :
    ¬ 2 ^ 7 ∣ Nat.lcm a b := by
  have ha0 : a ≠ 0 := by rintro rfl; exact ha (dvd_zero _)
  have hb0 : b ≠ 0 := by rintro rfl; exact hb (dvd_zero _)
  rw [Nat.prime_two.pow_dvd_iff_le_factorization ha0] at ha
  rw [Nat.prime_two.pow_dvd_iff_le_factorization hb0] at hb
  rw [Nat.prime_two.pow_dvd_iff_le_factorization (Nat.lcm_ne_zero ha0 hb0),
    Nat.factorization_lcm ha0 hb0, Finsupp.sup_apply]
  exact fun h => (le_sup_iff.mp h).elim ha hb

theorem lcm_smallTwos {a b : UInt32} (ha : ¬ 2 ^ 7 ∣ a.toNat) (hb : ¬ 2 ^ 7 ∣ b.toNat) :
    ¬ 2 ^ 7 ∣ (lcm a b).toNat := by
  have hb0 : 0 < b.toNat := Nat.pos_of_ne_zero fun h => hb (h ▸ dvd_zero _)
  have hdiv : a.toNat / Nat.gcd a.toNat b.toNat * b.toNat = Nat.lcm a.toNat b.toNat := by
    rw [Nat.lcm, Nat.div_mul_right_comm (Nat.gcd_dvd_left _ _)]
  rw [lcm, UInt32.toNat_mul, UInt32.toNat_div, gcd_toNat hb0, hdiv,
    Nat.dvd_mod_iff (by norm_num)]
  exact not_two_pow_dvd_lcm ha hb

/-- `frac_init` succeeds on such a denominator and keeps the property. -/
theorem fracInit_smallTwos (num : UInt32) {denom : UInt32} (hd : ¬ 2 ^ 7 ∣ denom.toNat) :
    ∃ c, fracInit num denom = some c ∧ c.SmallTwos := by
  have hd0 : 0 < denom.toNat := Nat.pos_of_ne_zero fun h => hd (h ▸ dvd_zero _)
  refine ⟨_, fracInit_eq hd0, fun h => hd ?_⟩
  simp only [UInt32.toNat_div, gcd_toNat hd0] at h
  exact h.trans (Nat.div_dvd_of_dvd (Nat.gcd_dvd_right _ _))

theorem fracAdd_smallTwos {a b : Frac} (ha : a.SmallTwos) (hb : b.SmallTwos) :
    ∃ c, fracAdd a b = some c ∧ c.SmallTwos :=
  fracInit_smallTwos _ (lcm_smallTwos ha hb)

theorem smallTwos_of_lt {d : UInt32} (h0 : 0 < d.toNat) (h : d.toNat < 2 ^ 7) :
    ¬ 2 ^ 7 ∣ d.toNat := fun hd => absurd (Nat.le_of_dvd h0 hd) (by omega)

/-! ## Whole numbers -/

theorem gcd_one (a : UInt32) : gcd a 1 = 1 := by
  simp [gcd, gcdLoop]

theorem fracInit_one (a : UInt32) : fracInit a 1 = some ⟨a, 1⟩ := by
  simp [fracInit, gcd_one]

/-- `a / 1 + 1 / 1`, in `uint`: at `a = 2^32 - 1` the numerator wraps to 0. -/
theorem fracAdd_one_one (a : UInt32) : fracAdd ⟨a, 1⟩ ⟨1, 1⟩ = some ⟨a + 1, 1⟩ := by
  simp [fracAdd, lcm, gcd_one, fracInit_one]

theorem fracIsLessThan_one (a b : UInt32) : fracIsLessThan ⟨a, 1⟩ ⟨b, 1⟩ = decide (a < b) := by
  simp [fracIsLessThan, lcm, gcd_one]

end Xv6
