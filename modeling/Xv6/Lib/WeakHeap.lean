import Xv6.Lib.Heap

/-!
# Heaps ordered by a strict weak order

`Xv6/Lib/Heap.lean` orders a heap by a `key` into a linear order and asks the comparison
`lt` only to agree with it. A heap can also be ordered by `lt` itself: no slot is strictly
before its parent (`LtOrdered`). That is the natural statement when `lt` is all the code has.
Where `lt` is a strict weak order on the elements at hand (`StrictWeakOn`), the two agree. The
key is the number of elements strictly before an element (`rank`), and `lt` is the order of
that key (`StrictWeakOn.agree`). So the sift loops keep `LtOrdered` (`push_spec_weak`,
`pop_spec_weak`), and the root of such a heap has nothing before it.
-/

set_option autoImplicit false

namespace ImplicitHeap

variable {α : Type*}

/-- `lt` is a strict weak order on the elements of `M`: irreflexive, transitive, and with
incomparability transitive. -/
structure StrictWeakOn (lt : α → α → Bool) (M : Multiset α) : Prop where
  irrefl : ∀ x ∈ M, lt x x = false
  trans : ∀ x ∈ M, ∀ y ∈ M, ∀ z ∈ M, lt x y = true → lt y z = true → lt x z = true
  incomp_trans : ∀ x ∈ M, ∀ y ∈ M, ∀ z ∈ M, lt x y = false → lt y x = false →
    lt y z = false → lt z y = false → lt x z = false

/-- No slot `2 … n` is strictly before its parent. -/
def LtOrdered (lt : α → α → Bool) (a : Nat → α) (n : Nat) : Prop :=
  ∀ i, 2 ≤ i → i ≤ n → lt (a i) (a (i / 2)) = false

section Rank

variable {lt : α → α → Bool} {M : Multiset α}

/-- Whatever is before `z` is before `x` or `x` is before `z`. -/
theorem StrictWeakOn.lt_or_lt (h : StrictWeakOn lt M) {x y z : α} (hx : x ∈ M) (hy : y ∈ M)
    (hz : z ∈ M) (hxz : lt x z = true) : lt x y = true ∨ lt y z = true := by
  by_contra hne
  simp only [not_or, Bool.not_eq_true] at hne
  obtain ⟨hxy, hyz⟩ := hne
  -- `y` is incomparable with both, so with transitivity of incomparability `x` and `z` are too
  have hyx : lt y x = false := by
    cases hb : lt y x
    · rfl
    · rw [h.trans y hy x hx z hz hb hxz] at hyz; cases hyz
  have hzy : lt z y = false := by
    cases hb : lt z y
    · rfl
    · rw [h.trans x hx z hz y hy hxz hb] at hxy; cases hxy
  rw [h.incomp_trans x hx y hy z hz hxy hyx hyz hzy] at hxz
  cases hxz

/-- One element that is not before itself. -/
theorem StrictWeakOn.singleton {x : α} (h : lt x x = false) : StrictWeakOn lt {x} where
  irrefl y hy := by rw [Multiset.mem_singleton.mp hy]; exact h
  trans y hy z hz _ _ hyz _ := by
    rw [Multiset.mem_singleton.mp hy, Multiset.mem_singleton.mp hz, h] at hyz
    cases hyz
  incomp_trans y hy _ _ w hw _ _ _ _ := by
    rw [Multiset.mem_singleton.mp hy, Multiset.mem_singleton.mp hw]
    exact h

variable [DecidableEq α]

/-- The number of elements of `M` strictly before `x`. -/
def rank (lt : α → α → Bool) (M : Multiset α) (x : α) : Nat :=
  (M.toFinset.filter fun y => lt y x = true).card

/-- **A strict weak order is the order of its rank.** -/
theorem StrictWeakOn.agree (h : StrictWeakOn lt M) : Agree (rank lt M) lt M := by
  intro x hx y hy
  constructor
  · -- what is before `x` is before `y`, and so is `x` itself
    intro hxy
    have hsubset : (M.toFinset.filter fun z => lt z x = true) ⊆
        M.toFinset.filter fun z => lt z y = true := by
      intro z hz
      rw [Finset.mem_filter, Multiset.mem_toFinset] at hz ⊢
      exact ⟨hz.1, h.trans z hz.1 x hx y hy hz.2 hxy⟩
    apply Finset.card_lt_card
    refine (Finset.ssubset_iff_of_subset hsubset).mpr ⟨x, ?_, ?_⟩
    · rw [Finset.mem_filter, Multiset.mem_toFinset]
      exact ⟨hx, hxy⟩
    · rw [Finset.mem_filter, Multiset.mem_toFinset, h.irrefl x hx]
      simp
  · -- if `x` is not before `y`, whatever is before `y` is before `x`
    intro hlt
    by_contra hxy
    rw [Bool.not_eq_true] at hxy
    have hsubset : (M.toFinset.filter fun z => lt z y = true) ⊆
        M.toFinset.filter fun z => lt z x = true := by
      intro z hz
      rw [Finset.mem_filter, Multiset.mem_toFinset] at hz ⊢
      refine ⟨hz.1, ?_⟩
      rcases h.lt_or_lt hz.1 hx hy hz.2 with h' | h'
      · exact h'
      · rw [hxy] at h'; cases h'
    exact absurd (Finset.card_le_card hsubset) (not_le.mpr hlt)

end Rank

/-! ## The sift loops under `lt` -/

section Sift

variable {K : Type*} [LinearOrder K] {key : α → K} {lt : α → α → Bool} {M : Multiset α}

/-- Under a key `lt` agrees with, a heap of elements of `M` is ordered by the key exactly when
it is ordered by `lt`. -/
theorem ordered_iff_ltOrdered (hA : Agree key lt M) {a : Nat → α} {n : Nat}
    (hM : contents a n ≤ M) : Ordered key a n ↔ LtOrdered lt a n := by
  have hmem : ∀ i, 1 ≤ i → i ≤ n → a i ∈ M := fun i h1 h2 =>
    Multiset.mem_of_le hM (mem_contents_of h1 h2)
  refine forall_congr' fun i => imp_congr_right fun h2 => imp_congr_right fun hn => ?_
  have hc := hmem i (by omega) hn
  have hp := hmem (i / 2) (by omega) (by omega)
  rw [← not_lt, ← Bool.not_eq_true, hA _ hc _ hp]

/-- A comparison that agrees with a key into a linear order is a strict weak order. -/
theorem StrictWeakOn.of_agree (hA : Agree key lt M) : StrictWeakOn lt M where
  irrefl x hx := Bool.eq_false_iff.mpr fun hxx => lt_irrefl _ ((hA x hx x hx).mp hxx)
  trans x hx y hy z hz hxy hyz := (hA x hx z hz).mpr (((hA x hx y hy).mp hxy).trans ((hA y hy z hz).mp hyz))
  incomp_trans x hx y hy z hz hxy hyx hyz hzy := by
    -- incomparable elements have equal keys
    have hn : ∀ a ∈ M, ∀ b ∈ M, lt a b = false → ¬key a < key b := fun a ha b hb hab hk => by
      rw [(hA a ha b hb).mpr hk] at hab
      cases hab
    have e₁ : key x = key y := le_antisymm (not_lt.mp (hn y hy x hx hyx)) (not_lt.mp (hn x hx y hy hxy))
    have e₂ : key y = key z := le_antisymm (not_lt.mp (hn z hz y hy hzy)) (not_lt.mp (hn y hy z hz hyz))
    exact Bool.eq_false_iff.mpr fun hxz => absurd ((hA x hx z hz).mp hxz) (by rw [e₁, e₂]; exact lt_irrefl _)

variable [DecidableEq α]

/-- **Push** under a strict weak order. -/
theorem push_spec_weak {a : Nat → α} {n : Nat} (x : α) (ho : LtOrdered lt a n)
    (hw : StrictWeakOn lt (x ::ₘ contents a n)) (fuel : Nat) (hf : n + 1 ≤ fuel) :
    LtOrdered lt (siftUp lt fuel a (n + 1) x) (n + 1) ∧
      contents (siftUp lt fuel a (n + 1) x) (n + 1) = x ::ₘ contents a n := by
  have hA := hw.agree
  have ho' := (ordered_iff_ltOrdered hA (Multiset.le_cons_self _ _)).mpr ho
  obtain ⟨hord, hcont⟩ := push_spec x ho' hA fuel hf
  exact ⟨(ordered_iff_ltOrdered hA hcont.le).mp hord, hcont⟩

/-- **Pop** under a strict weak order: the root has nothing before it, and the rest is a heap. -/
theorem pop_spec_weak {a : Nat → α} {n : Nat} (ho : LtOrdered lt a (n + 1))
    (hw : StrictWeakOn lt (contents a (n + 1))) (fuel : Nat) (hf : n ≤ fuel) :
    LtOrdered lt (siftDown lt n fuel a 1 (a (n + 1))) n ∧
      a 1 ::ₘ contents (siftDown lt n fuel a 1 (a (n + 1))) n = contents a (n + 1) ∧
      ∀ y ∈ contents a (n + 1), lt y (a 1) = false := by
  have hA := hw.agree
  have ho' := (ordered_iff_ltOrdered hA le_rfl).mpr ho
  obtain ⟨hord, hcont⟩ := pop_spec ho' hA fuel hf
  have hle : contents (siftDown lt n fuel a 1 (a (n + 1))) n ≤ contents a (n + 1) := by
    rw [← hcont]; exact Multiset.le_cons_self _ _
  refine ⟨(ordered_iff_ltOrdered hA hle).mp hord, hcont, fun y hy => ?_⟩
  -- the root's rank is the least
  have hroot := ho'.le_of_mem hy
  rw [← Bool.not_eq_true, hA _ hy _ (mem_contents_of le_rfl (by omega))]
  exact not_lt.mpr hroot

end Sift

end ImplicitHeap
