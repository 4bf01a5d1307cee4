import Mathlib

/-!
# The first index of a range that fails a test

A linear search over `[lo, hi)` answers with the first index whose test is `false`, or with
nothing when every test passes. `FirstFalse p lo hi r` says that `r` is that answer. The answer
is unique (`FirstFalse.unique`), so two searches that meet it return the same index, however
they walk the range. A search is proved correct from its steps: an index that passes is
skipped (`skip`), one that fails is the answer (`here`), a range is searched in two parts
(`append`), and an answer found in a part stays the answer of a larger range (`extend`).
-/

set_option autoImplicit false

namespace Search

/-- `r` is the first `k` in `[lo, hi)` with `p k = false`, and `none` when there is none. -/
def FirstFalse (p : Nat → Bool) (lo hi : Nat) : Option Nat → Prop
  | some k => lo ≤ k ∧ k < hi ∧ p k = false ∧ ∀ m, lo ≤ m → m < k → p m = true
  | none => ∀ m, lo ≤ m → m < hi → p m = true

variable {p : Nat → Bool} {lo mid hi : Nat}

theorem FirstFalse.unique {r r' : Option Nat} (h : FirstFalse p lo hi r)
    (h' : FirstFalse p lo hi r') : r = r' := by
  cases r with
  | none =>
    cases r' with
    | none => rfl
    | some k' =>
      obtain ⟨h1, h2, h3, -⟩ := h'
      rw [h k' h1 h2] at h3
      cases h3
  | some k =>
    cases r' with
    | none =>
      obtain ⟨h1, h2, h3, -⟩ := h
      rw [h' k h1 h2] at h3
      cases h3
    | some k' =>
      obtain ⟨h1, -, h3, h4⟩ := h
      obtain ⟨h1', -, h3', h4'⟩ := h'
      -- neither answer can lie before the other
      rcases lt_trichotomy k k' with hlt | heq | hgt
      · exact absurd (h4' k h1 hlt) (by rw [h3]; decide)
      · rw [heq]
      · exact absurd (h4 k' h1' hgt) (by rw [h3']; decide)

theorem FirstFalse.empty : FirstFalse p lo lo none := fun _ h1 h2 => absurd h2 (by omega)

theorem FirstFalse.here (hp : p lo = false) (h : lo < hi) : FirstFalse p lo hi (some lo) :=
  ⟨le_rfl, h, hp, fun _ h1 h2 => absurd h2 (by omega)⟩

theorem FirstFalse.skip {r : Option Nat} (hp : p lo = true) (h : FirstFalse p (lo + 1) hi r) :
    FirstFalse p lo hi r := by
  cases r with
  | none =>
    intro m h1 h2
    rcases Nat.eq_or_lt_of_le h1 with rfl | hlt
    · exact hp
    · exact h m hlt h2
  | some k =>
    obtain ⟨h1, h2, h3, h4⟩ := h
    refine ⟨by omega, h2, h3, fun m hm hmk => ?_⟩
    rcases Nat.eq_or_lt_of_le hm with rfl | hlt
    · exact hp
    · exact h4 m hlt hmk

theorem FirstFalse.append {r : Option Nat} (hm : lo ≤ mid) (h₁ : FirstFalse p lo mid none)
    (h₂ : FirstFalse p mid hi r) : FirstFalse p lo hi r := by
  cases r with
  | none =>
    intro m h1 h2
    by_cases hlt : m < mid
    · exact h₁ m h1 hlt
    · exact h₂ m (by omega) h2
  | some k =>
    obtain ⟨h1, h2, h3, h4⟩ := h₂
    refine ⟨by omega, h2, h3, fun m hm hmk => ?_⟩
    by_cases hlt : m < mid
    · exact h₁ m hm hlt
    · exact h4 m (by omega) hmk

theorem FirstFalse.extend {k : Nat} (hle : mid ≤ hi) (h : FirstFalse p lo mid (some k)) :
    FirstFalse p lo hi (some k) :=
  ⟨h.1, by have := h.2.1; omega, h.2.2⟩

end Search
