import Mathlib

/-!
# Binary heaps in an array, from slot 1

A heap of size `n` lives in slots `1 … n` of an array `a : Nat → α`; the parent of
slot `i` is slot `i / 2`. The two loops every such heap runs are here, written
with a *hole*: `siftUp` carries an element `x` from a slot towards the root,
moving each parent it passes one level down, and `siftDown` carries `x` from a
slot towards the leaves, moving the smaller child up. Both compare with a `Bool`
test `lt` and are given a number of turns (`fuel`).

The order is a `key` into a linear order, and `lt` only has to *agree* with it on
the elements the loop can see (`Agree`), so a comparison that is exact only on
some inputs (a wrapping one, say) is enough. The two results are

* `siftUp_spec`: from a heap with a hole whose order is `UpOrder`, `siftUp`
  ends in an ordered heap holding the same elements, and
* `siftDown_spec`: the same for `siftDown` from `DownOrder`,

and `push_spec` / `pop_spec` are their instances at the start a push and a pop
set up. The shape of the two hole invariants follows the four-ary timer heap of
the `rotor` proofs, specialised to two children and to slot 1 as the root.
-/

set_option autoImplicit false

namespace ImplicitHeap

variable {α K : Type*} [LinearOrder K]

open Function (update)

/-! ## The elements of slots `1 … n` -/

/-- The elements of slots `1 … n`, as a multiset. -/
def contents (a : Nat → α) : Nat → Multiset α
  | 0 => 0
  | n + 1 => a (n + 1) ::ₘ contents a n

@[simp] theorem contents_zero (a : Nat → α) : contents a 0 = 0 := rfl

theorem contents_succ (a : Nat → α) (n : Nat) :
    contents a (n + 1) = a (n + 1) ::ₘ contents a n := rfl

@[simp] theorem card_contents (a : Nat → α) (n : Nat) : Multiset.card (contents a n) = n := by
  induction n with
  | zero => rfl
  | succ n ih => rw [contents_succ, Multiset.card_cons, ih]

theorem map_contents {β : Type*} (f : α → β) (a : Nat → α) (n : Nat) :
    (contents a n).map f = contents (f ∘ a) n := by
  induction n with
  | zero => rfl
  | succ n ih => rw [contents_succ, Multiset.map_cons, ih, contents_succ, Function.comp_apply]

theorem mem_contents {a : Nat → α} {n : Nat} {x : α} :
    x ∈ contents a n ↔ ∃ i, 1 ≤ i ∧ i ≤ n ∧ a i = x := by
  induction n with
  | zero => simp
  | succ n ih =>
    rw [contents_succ, Multiset.mem_cons, ih]
    constructor
    · rintro (rfl | ⟨i, h1, h2, rfl⟩)
      · exact ⟨n + 1, by omega, le_rfl, rfl⟩
      · exact ⟨i, h1, by omega, rfl⟩
    · rintro ⟨i, h1, h2, rfl⟩
      rcases Nat.lt_or_ge i (n + 1) with h | h
      · exact Or.inr ⟨i, h1, by omega, rfl⟩
      · exact Or.inl (by rw [show i = n + 1 by omega])

theorem mem_contents_of {a : Nat → α} {n i : Nat} (h1 : 1 ≤ i) (h2 : i ≤ n) :
    a i ∈ contents a n :=
  mem_contents.mpr ⟨i, h1, h2, rfl⟩

/-- Only slots `1 … n` count. -/
theorem contents_congr {a b : Nat → α} : ∀ {n : Nat}, (∀ i, 1 ≤ i → i ≤ n → a i = b i) →
    contents a n = contents b n
  | 0, _ => rfl
  | n + 1, h => by
    rw [contents_succ, contents_succ, h (n + 1) (by omega) le_rfl,
      contents_congr (fun i h1 h2 => h i h1 (by omega))]

/-- Writing outside slots `1 … n` changes nothing. -/
theorem contents_update_of_lt {a : Nat → α} {n i : Nat} (x : α) (h : n < i ∨ i = 0) :
    contents (update a i x) n = contents a n :=
  contents_congr fun j h1 h2 => by
    rw [Function.update_of_ne (by omega)]

/-- Writing `u` into slot `i` of the heap trades `a i` for `u`. -/
theorem contents_update {a : Nat → α} {i : Nat} (u : α) (h1 : 1 ≤ i) :
    ∀ {n : Nat}, i ≤ n → contents (update a i u) n + {a i} = contents a n + {u}
  | 0, h2 => absurd h2 (by omega)
  | n + 1, h2 => by
    rcases Nat.lt_or_ge n i with h | h
    · -- slot `i` is the top slot `n + 1`
      obtain rfl : i = n + 1 := by omega
      rw [contents_succ, contents_succ, Function.update_self,
        contents_update_of_lt u (Or.inl (by omega))]
      simp only [← Multiset.singleton_add]
      abel
    · rw [contents_succ, contents_succ, Function.update_of_ne (by omega)]
      simp only [← Multiset.singleton_add, add_assoc, contents_update u h1 h]

/-- Moving the element of slot `j` into the hole `i`, and the hole to `j`, keeps what the
heap holds once the hole is filled. -/
theorem contents_move {a : Nat → α} {n i j : Nat} (x : α) (hi1 : 1 ≤ i) (hi2 : i ≤ n)
    (hj1 : 1 ≤ j) (hj2 : j ≤ n) (hij : i ≠ j) :
    contents (update (update a i (a j)) j x) n = contents (update a i x) n := by
  have e1 := contents_update (a := update a i (a j)) x hj1 hj2
  have e2 := contents_update (a := a) (a j) hi1 hi2
  have e3 := contents_update (a := a) x hi1 hi2
  rw [Function.update_of_ne (Ne.symm hij)] at e1
  have : contents (update (update a i (a j)) j x) n + {a j} + {a i} =
      contents (update a i x) n + {a j} + {a i} :=
    calc _ = contents (update a i (a j)) n + {a i} + {x} := by rw [e1]; abel
      _ = contents a n + {x} + {a j} := by rw [e2]; abel
      _ = contents (update a i x) n + {a j} + {a i} := by rw [← e3]; abel
  exact (add_left_inj _).mp ((add_left_inj _).mp this)

/-! ## Order -/

section Order

variable (key : α → K)

/-- Every slot `2 … n` is at or after its parent. -/
def Ordered (a : Nat → α) (n : Nat) : Prop :=
  ∀ i, 2 ≤ i → i ≤ n → key (a (i / 2)) ≤ key (a i)

/-- `lt` is the strict order of `key` on the elements of `M`. -/
def Agree (lt : α → α → Bool) (M : Multiset α) : Prop :=
  ∀ x ∈ M, ∀ y ∈ M, (lt x y = true ↔ key x < key y)

variable {key}

theorem Agree.mono {lt : α → α → Bool} {M N : Multiset α} (h : Agree key lt N) (hle : M ≤ N) :
    Agree key lt M :=
  fun x hx y hy => h x (Multiset.mem_of_le hle hx) y (Multiset.mem_of_le hle hy)

/-- **The root of an ordered heap is a least element.** -/
theorem Ordered.root_le {a : Nat → α} {n : Nat} (ho : Ordered key a n) :
    ∀ i, 1 ≤ i → i ≤ n → key (a 1) ≤ key (a i) := by
  intro i
  induction i using Nat.strongRecOn with
  | ind i ih =>
    intro h1 h2
    rcases Nat.lt_or_ge i 2 with h | h
    · rw [show i = 1 by omega]
    · exact le_trans (ih (i / 2) (by omega) (by omega) (by omega)) (ho i h h2)

theorem Ordered.le_of_mem {a : Nat → α} {n : Nat} (ho : Ordered key a n) {y : α}
    (hy : y ∈ contents a n) : key (a 1) ≤ key y := by
  obtain ⟨i, h1, h2, rfl⟩ := mem_contents.mp hy
  exact ho.root_le i h1 h2

end Order

/-! ## `siftUp` -/

/-- Sift-up with a hole at `i`: while the hole is not the root and `x` is strictly before
the hole's parent, the parent moves down into the hole and the hole moves up; then `x`
fills the hole. -/
def siftUp (lt : α → α → Bool) : Nat → (Nat → α) → Nat → α → (Nat → α)
  | 0, a, i, x => update a i x
  | fuel + 1, a, i, x =>
    if i ≠ 1 ∧ lt x (a (i / 2)) = true then siftUp lt fuel (update a i (a (i / 2))) (i / 2) x
    else update a i x

section Order

variable {key : α → K}

/-- What `siftUp` needs of the order around the hole `i`: the pairs off the hole are in
order, the hole's children are at or after its parent, and `x` is at or before them. -/
structure UpOrder (key : α → K) (a : Nat → α) (n i : Nat) (x : α) : Prop where
  except : ∀ j, 2 ≤ j → j ≤ n → j ≠ i → j / 2 ≠ i → key (a (j / 2)) ≤ key (a j)
  grand : 2 ≤ i → ∀ c, 2 ≤ c → c ≤ n → c / 2 = i → key (a (i / 2)) ≤ key (a c)
  below : ∀ c, 2 ≤ c → c ≤ n → c / 2 = i → key x ≤ key (a c)

/-- The start of a push: a hole just past the end of an ordered heap. -/
theorem Ordered.upOrder {a : Nat → α} {n : Nat} (ho : Ordered key a n) (x : α) :
    UpOrder key a (n + 1) (n + 1) x where
  except j h1 h2 h3 _ := ho j h1 (by omega)
  grand _ c _ h2 h3 := absurd h3 (by omega)
  below c _ h2 h3 := absurd h3 (by omega)

/-- One turn: `x` is before the hole's parent, which moves down. -/
theorem UpOrder.move {a : Nat → α} {n i : Nat} {x : α} (o : UpOrder key a n i x)
    (h2 : 2 ≤ i) (hn : i ≤ n) (hb : key x < key (a (i / 2))) :
    UpOrder key (update a i (a (i / 2))) n (i / 2) x := by
  have hp : i / 2 < i := by omega
  -- the hole's old parent is in order with its own parent
  have hup : 2 ≤ i / 2 → key (a (i / 2 / 2)) ≤ key (a (i / 2)) :=
    fun hq => o.except (i / 2) hq (by omega) (by omega) (by omega)
  constructor
  · intro j hj1 hj2 hjq hpj
    have hji : j ≠ i := fun h => hpj (by rw [h])
    rw [Function.update_of_ne hji]
    by_cases hpi : j / 2 = i
    · rw [hpi, Function.update_self]
      exact o.grand h2 j hj1 hj2 hpi
    · rw [Function.update_of_ne hpi]
      exact o.except j hj1 hj2 hji hpi
  · intro hq c hc1 hc2 hcq
    rw [Function.update_of_ne (show i / 2 / 2 ≠ i by omega)]
    by_cases hci : c = i
    · rw [hci, Function.update_self]
      exact hup hq
    · rw [Function.update_of_ne hci]
      exact le_trans (hup hq) (by
        have := o.except c hc1 hc2 hci (by omega)
        rwa [hcq] at this)
  · intro c hc1 hc2 hcq
    by_cases hci : c = i
    · rw [hci, Function.update_self]
      exact le_of_lt hb
    · rw [Function.update_of_ne hci]
      have := o.except c hc1 hc2 hci (by omega)
      rw [hcq] at this
      exact le_trans (le_of_lt hb) this

/-- The last turn: the hole is the root, or `x` is not before its parent. -/
theorem UpOrder.finish {a : Nat → α} {n i : Nat} {x : α} (o : UpOrder key a n i x)
    (hstop : 2 ≤ i → key (a (i / 2)) ≤ key x) : Ordered key (update a i x) n := by
  intro j hj1 hj2
  by_cases hji : j = i
  · subst hji
    rw [Function.update_self, Function.update_of_ne (show j / 2 ≠ j by omega)]
    exact hstop hj1
  · rw [Function.update_of_ne hji]
    by_cases hpi : j / 2 = i
    · rw [hpi, Function.update_self]
      exact o.below j hj1 hj2 hpi
    · rw [Function.update_of_ne hpi]
      exact o.except j hj1 hj2 hji hpi

/-- **`siftUp` ends in an ordered heap holding what the heap with the hole filled by `x`
holds**, given `i` turns and a test that agrees with `key` on those elements. -/
theorem siftUp_spec {lt : α → α → Bool} {n : Nat} {x : α} :
    ∀ (fuel : Nat) (a : Nat → α) (i : Nat), 1 ≤ i → i ≤ n → i ≤ fuel →
      UpOrder key a n i x → Agree key lt (contents (update a i x) n) →
      Ordered key (siftUp lt fuel a i x) n ∧
        contents (siftUp lt fuel a i x) n = contents (update a i x) n
  | 0, _, _, h1, _, hf, _, _ => absurd hf (by omega)
  | fuel + 1, a, i, h1, hn, hf, o, hA => by
    have hxM : x ∈ contents (update a i x) n := by
      simpa using mem_contents_of (a := update a i x) h1 hn
    rw [siftUp]
    split
    · rename_i hc
      obtain ⟨h2, hlt⟩ := hc
      have hpM : a (i / 2) ∈ contents (update a i x) n := by
        have := mem_contents_of (a := update a i x) (n := n) (i := i / 2) (by omega) (by omega)
        rwa [Function.update_of_ne (by omega)] at this
      have hb : key x < key (a (i / 2)) := (hA x hxM _ hpM).mp hlt
      have hmove := contents_move (a := a) x h1 hn (j := i / 2) (by omega) (by omega) (by omega)
      have ih := siftUp_spec fuel (update a i (a (i / 2))) (i / 2) (by omega) (by omega)
        (by omega) (o.move (by omega) hn hb) (by rw [hmove]; exact hA)
      rw [hmove] at ih
      exact ih
    · rename_i hc
      refine ⟨o.finish fun h2 => ?_, rfl⟩
      have hpM : a (i / 2) ∈ contents (update a i x) n := by
        have := mem_contents_of (a := update a i x) (n := n) (i := i / 2) (by omega) (by omega)
        rwa [Function.update_of_ne (by omega)] at this
      have hnlt : lt x (a (i / 2)) = false := by
        simpa [show i ≠ 1 by omega] using hc
      exact not_lt.mp fun hb => by
        have := (hA x hxM _ hpM).mpr hb
        rw [hnlt] at this
        exact Bool.false_ne_true this

end Order

/-! ## `siftDown` -/

/-- The child of `p` that `siftDown` follows in a heap of size `n`: the right one when it
exists and the left one is not strictly before it. -/
def pickChild (lt : α → α → Bool) (n : Nat) (a : Nat → α) (p : Nat) : Nat :=
  if 2 * p < n ∧ lt (a (2 * p)) (a (2 * p + 1)) = false then 2 * p + 1 else 2 * p

/-- Sift-down with a hole at `p` in a heap of size `n`: while the hole has a child and
`x` is not strictly before the child `pickChild` names, that child moves up into the
hole and the hole moves down; then `x` fills the hole. -/
def siftDown (lt : α → α → Bool) (n : Nat) : Nat → (Nat → α) → Nat → α → (Nat → α)
  | 0, a, p, x => update a p x
  | fuel + 1, a, p, x =>
    if 2 * p ≤ n then
      if lt x (a (pickChild lt n a p)) = true then update a p x
      else siftDown lt n fuel (update a p (a (pickChild lt n a p))) (pickChild lt n a p) x
    else update a p x

section Order

variable {key : α → K}

theorem pickChild_bounds (lt : α → α → Bool) (n : Nat) (a : Nat → α) (p : Nat) :
    (pickChild lt n a p) / 2 = p ∧ 2 ≤ pickChild lt n a p ∨ p = 0 := by
  unfold pickChild
  split <;> omega

/-- The child `pickChild` names is at or before every child of `p` in the heap. -/
theorem pickChild_min {lt : α → α → Bool} {n p : Nat} {a : Nat → α} {M : Multiset α}
    (hA : Agree key lt M) (hM : ∀ j, 1 ≤ j → j ≤ n → j ≠ p → a j ∈ M) (h1 : 1 ≤ p)
    (h : 2 * p ≤ n) :
    pickChild lt n a p ≤ n ∧ ∀ c, c ≤ n → c / 2 = p → key (a (pickChild lt n a p)) ≤ key (a c) := by
  unfold pickChild
  split
  · rename_i hc
    obtain ⟨hlt, hf⟩ := hc
    refine ⟨by omega, fun c hc hcp => ?_⟩
    rcases (by omega : c = 2 * p ∨ c = 2 * p + 1) with rfl | rfl
    · exact not_lt.mp fun hb => by
        have := (hA _ (hM _ (by omega) hc (by omega)) _ (hM _ (by omega) hlt (by omega))).mpr hb
        rw [hf] at this
        exact Bool.false_ne_true this
    · exact le_rfl
  · rename_i hnot
    refine ⟨h, fun c hc hcp => ?_⟩
    rcases (by omega : c = 2 * p ∨ c = 2 * p + 1) with rfl | rfl
    · exact le_rfl
    · have hlt : lt (a (2 * p)) (a (2 * p + 1)) = true := by
        by_contra hne
        exact hnot ⟨by omega, by simpa using hne⟩
      exact le_of_lt ((hA _ (hM _ (by omega) h (by omega)) _ (hM _ (by omega) hc (by omega))).mp hlt)

/-- What `siftDown` needs of the order around the hole `p`: the pairs off the hole are in
order, `x` is at or after the hole's parent, and so are the hole's children. -/
structure DownOrder (key : α → K) (a : Nat → α) (n p : Nat) (x : α) : Prop where
  except : ∀ j, 2 ≤ j → j ≤ n → j ≠ p → j / 2 ≠ p → key (a (j / 2)) ≤ key (a j)
  above : 2 ≤ p → key (a (p / 2)) ≤ key x
  grand : 2 ≤ p → ∀ c, 2 ≤ c → c ≤ n → c / 2 = p → key (a (p / 2)) ≤ key (a c)

/-- The start of a pop: the root is the hole. -/
theorem Ordered.downOrder {a : Nat → α} {n m : Nat} (ho : Ordered key a n) (hm : m ≤ n)
    (x : α) : DownOrder key a m 1 x where
  except j h1 h2 _ _ := ho j h1 (by omega)
  above h := absurd h (by omega)
  grand h := absurd h (by omega)

/-- One turn: the child `c` is at or before `x` and before every other child, so it moves
up. -/
theorem DownOrder.move {a : Nat → α} {n p c : Nat} {x : α} (o : DownOrder key a n p x)
    (h1 : 1 ≤ p) (hc : c / 2 = p) (hc2 : 2 ≤ c) (hcn : c ≤ n)
    (hmin : ∀ d, d ≤ n → d / 2 = p → key (a c) ≤ key (a d)) (hb : key (a c) ≤ key x) :
    DownOrder key (update a p (a c)) n c x := by
  constructor
  · intro j hj1 hj2 hjc hpj
    by_cases hjp : j = p
    · subst hjp
      rw [Function.update_self, Function.update_of_ne (show j / 2 ≠ j by omega)]
      exact o.grand hj1 c hc2 hcn hc
    · rw [Function.update_of_ne hjp]
      by_cases hpp : j / 2 = p
      · rw [hpp, Function.update_self]
        exact hmin j hj2 hpp
      · rw [Function.update_of_ne hpp]
        exact o.except j hj1 hj2 hjp hpp
  · intro _
    rw [hc, Function.update_self]
    exact hb
  · intro _ d hd1 hd2 hdc
    rw [hc, Function.update_self, Function.update_of_ne (show d ≠ p by omega)]
    have := o.except d hd1 hd2 (by omega) (by omega)
    rwa [hdc] at this

/-- The last turn: the hole has no child, or `x` is before every child. -/
theorem DownOrder.finish {a : Nat → α} {n p : Nat} {x : α} (o : DownOrder key a n p x)
    (hstop : ∀ c, 2 ≤ c → c ≤ n → c / 2 = p → key x ≤ key (a c)) :
    Ordered key (update a p x) n := by
  intro j hj1 hj2
  by_cases hjp : j = p
  · subst hjp
    rw [Function.update_self, Function.update_of_ne (show j / 2 ≠ j by omega)]
    exact o.above hj1
  · rw [Function.update_of_ne hjp]
    by_cases hpp : j / 2 = p
    · rw [hpp, Function.update_self]
      exact hstop j hj1 hj2 hpp
    · rw [Function.update_of_ne hpp]
      exact o.except j hj1 hj2 hjp hpp

/-- **`siftDown` ends in an ordered heap holding what the heap with the hole filled by `x`
holds**, given enough turns and a test that agrees with `key` on those elements. -/
theorem siftDown_spec {lt : α → α → Bool} {n : Nat} {x : α} :
    ∀ (fuel : Nat) (a : Nat → α) (p : Nat), 1 ≤ p → p ≤ n → n < p + fuel →
      DownOrder key a n p x → Agree key lt (contents (update a p x) n) →
      Ordered key (siftDown lt n fuel a p x) n ∧
        contents (siftDown lt n fuel a p x) n = contents (update a p x) n
  | 0, _, _, h1, hn, hf, _, _ => absurd hf (by omega)
  | fuel + 1, a, p, h1, hn, hf, o, hA => by
    have hxM : x ∈ contents (update a p x) n := by
      simpa using mem_contents_of (a := update a p x) h1 hn
    have hM : ∀ j, 1 ≤ j → j ≤ n → j ≠ p → a j ∈ contents (update a p x) n := by
      intro j hj1 hj2 hjp
      have := mem_contents_of (a := update a p x) hj1 hj2
      rwa [Function.update_of_ne hjp] at this
    rw [siftDown]
    split
    · rename_i hroom
      obtain ⟨hcn, hmin⟩ := pickChild_min hA hM h1 hroom
      have hcb := pickChild_bounds lt n a p
      have hcM := hM _ (by omega) hcn (by omega)
      split
      · rename_i hlt
        refine ⟨o.finish fun c hc1 hc2 hcp => ?_, rfl⟩
        exact le_trans (le_of_lt ((hA x hxM _ hcM).mp hlt)) (hmin c hc2 hcp)
      · rename_i hnlt
        have hb : key (a (pickChild lt n a p)) ≤ key x := not_lt.mp fun hb => hnlt ((hA x hxM _ hcM).mpr hb)
        have hmove := contents_move (a := a) x h1 hn (j := pickChild lt n a p) (by omega) hcn
          (by omega)
        have ih := siftDown_spec fuel (update a p (a (pickChild lt n a p))) (pickChild lt n a p)
          (by omega) hcn (by omega) (o.move h1 (by omega) (by omega) hcn hmin hb)
          (by rw [hmove]; exact hA)
        rw [hmove] at ih
        exact ih
    · rename_i hroom
      exact ⟨o.finish fun c hc1 hc2 hcp => absurd hcp (by omega), rfl⟩

end Order

/-! ## Push and pop -/

section Order

variable {key : α → K}

/-- **Push**: `x` in a new last slot, sifted up, gives an ordered heap of one more
element. -/
theorem push_spec {lt : α → α → Bool} {a : Nat → α} {n : Nat} (x : α)
    (ho : Ordered key a n) (hA : Agree key lt (x ::ₘ contents a n)) (fuel : Nat)
    (hf : n + 1 ≤ fuel) :
    Ordered key (siftUp lt fuel a (n + 1) x) (n + 1) ∧
      contents (siftUp lt fuel a (n + 1) x) (n + 1) = x ::ₘ contents a n := by
  have hc : contents (update a (n + 1) x) (n + 1) = x ::ₘ contents a n := by
    rw [contents_succ, Function.update_self, contents_update_of_lt x (Or.inl (by omega))]
  rw [← hc] at hA ⊢
  exact siftUp_spec fuel a (n + 1) (by omega) le_rfl hf (ho.upOrder x) hA

/-- **Pop**: the last element, sifted down from the root, gives an ordered heap of the
other elements; exactly one copy of the root is gone. -/
theorem pop_spec {lt : α → α → Bool} {a : Nat → α} {n : Nat} (ho : Ordered key a (n + 1))
    (hA : Agree key lt (contents a (n + 1))) (fuel : Nat) (hf : n ≤ fuel) :
    Ordered key (siftDown lt n fuel a 1 (a (n + 1))) n ∧
      a 1 ::ₘ contents (siftDown lt n fuel a 1 (a (n + 1))) n = contents a (n + 1) := by
  rcases Nat.eq_zero_or_pos n with rfl | hn
  · -- a heap of one element: the hole has no child and nothing is compared
    refine ⟨fun i h1 h2 => absurd h2 (by omega), ?_⟩
    simp [contents_succ]
  · have hM : contents (update a 1 (a (n + 1))) n + {a 1} = contents a (n + 1) := by
      rw [contents_update (a (n + 1)) le_rfl hn, contents_succ, ← Multiset.singleton_add,
        add_comm]
    have hle : contents (update a 1 (a (n + 1))) n ≤ contents a (n + 1) := by
      rw [← hM]; exact Multiset.le_add_right _ _
    obtain ⟨hord, hcont⟩ := siftDown_spec fuel a 1 le_rfl hn (by omega)
      (ho.downOrder (by omega) _) (hA.mono hle)
    refine ⟨hord, ?_⟩
    rw [hcont, ← hM, ← Multiset.singleton_add, add_comm]

/-- A push from below the root whose element is not before the root leaves the root where
it is, whatever `lt` answers on the way up. -/
theorem siftUp_one {lt : α → α → Bool} {x : α} :
    ∀ (fuel : Nat) (a : Nat → α) (i : Nat), 2 ≤ i → lt x (a 1) = false →
      siftUp lt fuel a i x 1 = a 1
  | 0, a, i, hi, _ => Function.update_of_ne (by omega) _ _
  | fuel + 1, a, i, hi, hx => by
    rw [siftUp]
    split
    · rename_i hc
      rcases Nat.lt_or_ge (i / 2) 2 with h2 | h2
      · -- the parent is the root, and `x` is not before it
        rw [show i / 2 = 1 by omega, hx] at hc
        exact absurd hc.2 Bool.false_ne_true
      · rw [siftUp_one fuel _ (i / 2) h2 (by rw [Function.update_of_ne (by omega)]; exact hx),
          Function.update_of_ne (by omega)]
    · exact Function.update_of_ne (by omega) _ _

/-- A push whose element is not before the new slot's parent leaves every other slot as
it was. -/
theorem siftUp_of_not_lt {lt : α → α → Bool} {a : Nat → α} {i : Nat} {x : α} (fuel : Nat)
    (h : lt x (a (i / 2)) = false) : siftUp lt fuel a i x = update a i x := by
  cases fuel with
  | zero => rfl
  | succ fuel => simp [siftUp, h]

end Order

/-! ## What the loops leave alone -/

/-- `siftUp` writes only the hole and the slots above it. -/
theorem siftUp_frame {lt : α → α → Bool} {x : α} :
    ∀ (fuel : Nat) (a : Nat → α) (i : Nat), 1 ≤ i → ∀ j, (j = 0 ∨ i < j) →
      siftUp lt fuel a i x j = a j
  | 0, a, i, h1, j, hj => Function.update_of_ne (by omega) _ _
  | fuel + 1, a, i, h1, j, hj => by
    rw [siftUp]
    split
    · rename_i hc
      rw [siftUp_frame fuel _ (i / 2) (by omega) j (by omega),
        Function.update_of_ne (by omega)]
    · exact Function.update_of_ne (by omega) _ _

/-- `siftDown` writes only the hole and slots of the heap below it. -/
theorem siftDown_frame {lt : α → α → Bool} {n : Nat} {x : α} :
    ∀ (fuel : Nat) (a : Nat → α) (p : Nat), 1 ≤ p → ∀ j, (j < p ∨ (n < j ∧ p < j)) →
      siftDown lt n fuel a p x j = a j
  | 0, a, p, h1, j, hj => Function.update_of_ne (by omega) _ _
  | fuel + 1, a, p, h1, j, hj => by
    rw [siftDown]
    split
    · rename_i hroom
      have hcb : pickChild lt n a p ≤ 2 * p + 1 ∧ 2 * p ≤ pickChild lt n a p ∧
          (pickChild lt n a p = 2 * p + 1 → 2 * p < n) := by
        unfold pickChild; split <;> omega
      split
      · exact Function.update_of_ne (by omega) _ _
      · rw [siftDown_frame fuel _ _ (by omega) j (by omega), Function.update_of_ne (by omega)]
    · exact Function.update_of_ne (by omega) _ _

/-- Whatever `lt` answers, `siftUp` only moves elements: the heap ends up holding what it
holds with the hole filled by `x`. -/
theorem siftUp_contents {lt : α → α → Bool} {n : Nat} {x : α} :
    ∀ (fuel : Nat) (a : Nat → α) (i : Nat), 1 ≤ i → i ≤ n →
      contents (siftUp lt fuel a i x) n = contents (update a i x) n
  | 0, _, _, _, _ => rfl
  | fuel + 1, a, i, h1, hn => by
    rw [siftUp]
    split
    · rename_i hc
      rw [siftUp_contents fuel _ (i / 2) (by omega) (by omega)]
      exact contents_move x h1 hn (by omega) (by omega) (by omega)
    · rfl

/-- The same for `siftDown`. -/
theorem siftDown_contents {lt : α → α → Bool} {n : Nat} {x : α} :
    ∀ (fuel : Nat) (a : Nat → α) (p : Nat), 1 ≤ p → p ≤ n →
      contents (siftDown lt n fuel a p x) n = contents (update a p x) n
  | 0, _, _, _, _ => rfl
  | fuel + 1, a, p, h1, hn => by
    rw [siftDown]
    split
    · rename_i hroom
      -- the child followed is a slot of the heap
      have hc : 2 * p ≤ pickChild lt n a p ∧ pickChild lt n a p ≤ n := by
        unfold pickChild; split <;> omega
      split
      · rfl
      · rw [siftDown_contents fuel _ _ (by omega) hc.2]
        exact contents_move x h1 hn (by omega) hc.2 (by omega)
    · rfl

end ImplicitHeap
