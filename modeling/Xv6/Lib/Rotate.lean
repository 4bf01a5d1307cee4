import Mathlib

/-!
# Scanning FIFO queues by rotation

`Rotate.scan run k L` takes the front of the queue `L` up to `k` times. It stops at the first
element that passes `run`, which leaves the queue, and sends every other element to the rear.
The scan has a closed form. Write `L = A ++ p :: B` with `p` the first element that passes.
Then the scan returns `p` and leaves `B ++ A` (`scan_found`). When nothing passes, a scan of
`L.length` turns leaves `L` as it was (`scan_none`). Either way it loses and adds nothing
(`perm_scan`).

`Rotate.select` scans queues indexed by a list of levels, in order, until one scan finds an
element. It returns the first passing element of the first level that has one
(`select_found`). It returns nothing exactly when no level has one (`select_none`,
`select_isSome`).
-/

set_option autoImplicit false

namespace Rotate

variable {α ι : Type*}

/-- Up to `k` turns: pop the front, stop at it if it passes `run`, else push it to the rear. -/
def scan (run : α → Bool) : Nat → List α → Option α × List α
  | 0, L => (none, L)
  | _ + 1, [] => (none, [])
  | k + 1, x :: L => if run x then (some x, L) else scan run k (L ++ [x])

section Scan

variable {run : α → Bool}

/-- **The element found.** The scan passes over the prefix `A`, whose elements all fail, and
stops at `p`. The prefix ends up behind the rest of the queue. -/
theorem scan_found {p : α} (hp : run p = true) :
    ∀ (A B : List α) (k : Nat), (∀ a ∈ A, run a = false) → A.length < k →
      scan run k (A ++ p :: B) = (some p, B ++ A) := by
  intro A
  induction A with
  | nil =>
    intro B k _ hk
    obtain ⟨k, rfl⟩ : ∃ k', k = k' + 1 := ⟨k - 1, by simp at hk; omega⟩
    simp [scan, hp]
  | cons a A ih =>
    intro B k hA hk
    obtain ⟨k, rfl⟩ : ∃ k', k = k' + 1 := ⟨k - 1, by simp at hk; omega⟩
    have ha : run a = false := hA a List.mem_cons_self
    -- `a` goes to the rear, behind `B`
    have hrest := ih (B ++ [a]) k (fun x hx => hA x (List.mem_cons_of_mem a hx))
      (by simp at hk; omega)
    simp only [List.cons_append, scan, ha, Bool.false_eq_true, if_false]
    rw [List.append_assoc, List.cons_append, hrest, List.append_assoc, List.singleton_append]

/-- **Nothing found.** A scan over `R`, whose elements all fail, moves `R` behind the rest `P`. -/
theorem scan_none_append : ∀ (R P : List α), (∀ x ∈ R, run x = false) →
    scan run R.length (R ++ P) = (none, P ++ R) := by
  intro R
  induction R with
  | nil => intro P _; simp [scan]
  | cons x R ih =>
    intro P hR
    have hx : run x = false := hR x List.mem_cons_self
    have hrest := ih (P ++ [x]) (fun y hy => hR y (List.mem_cons_of_mem x hy))
    simp only [List.length_cons, List.cons_append, scan, hx, Bool.false_eq_true, if_false,
      List.append_assoc] at hrest ⊢
    rw [hrest]
    simp

/-- A whole turn that finds nothing leaves the queue as it was. -/
theorem scan_none {L : List α} (hL : ∀ x ∈ L, run x = false) :
    scan run L.length L = (none, L) := by
  simpa using scan_none_append L [] hL

/-- The scan loses nothing and adds nothing: what it returns and what it leaves are the queue. -/
theorem perm_scan : ∀ (k : Nat) (L : List α), ((scan run k L).1.toList ++ (scan run k L).2).Perm L
  | 0, L => by simp [scan]
  | _ + 1, [] => by simp [scan]
  | k + 1, x :: L => by
    by_cases hx : run x = true
    · simp [scan, hx]
    · simp only [scan, hx, Bool.false_eq_true, if_false]
      exact (perm_scan k (L ++ [x])).trans (List.perm_append_singleton x L)

/-- The first element that passes splits the queue. -/
theorem exists_first {L : List α} (h : ∃ x ∈ L, run x = true) :
    ∃ A p B, L = A ++ p :: B ∧ (∀ a ∈ A, run a = false) ∧ run p = true := by
  obtain ⟨p, hp⟩ := Option.isSome_iff_exists.mp (List.find?_isSome.mpr h)
  obtain ⟨hrun, A, B, rfl, hA⟩ := List.find?_eq_some_iff_append.mp hp
  exact ⟨A, p, B, rfl, fun a ha => by simpa using hA a ha, hrun⟩

end Scan

/-! ## Scans over levels -/

section Select

variable [DecidableEq ι]

/-- Scan the levels `is` in order, each for a whole turn, until one scan finds an element. -/
def select (run : α → Bool) : List ι → (ι → List α) → Option α × (ι → List α)
  | [], Q => (none, Q)
  | i :: is, Q =>
    match scan run (Q i).length (Q i) with
    | (some p, L) => (some p, Function.update Q i L)
    | (none, L) => select run is (Function.update Q i L)

variable {run : α → Bool}

/-- A level where nothing passes is passed over and left as it was. -/
theorem select_skip {i : ι} {is : List ι} {Q : ι → List α} (hi : ∀ x ∈ Q i, run x = false) :
    select run (i :: is) Q = select run is Q := by
  simp only [select, scan_none hi, Function.update_eq_self]

/-- A level where something passes: its first passing element is taken out. -/
theorem select_head {i : ι} {is : List ι} {Q : ι → List α} {A B : List α} {p : α}
    (hQ : Q i = A ++ p :: B) (hA : ∀ a ∈ A, run a = false) (hp : run p = true) :
    select run (i :: is) Q = (some p, Function.update Q i (B ++ A)) := by
  have hk : A.length < (Q i).length := by rw [hQ]; simp
  simp only [select]
  rw [hQ, scan_found hp A B _ hA (by rw [← hQ]; exact hk)]

/-- **The first level with a passing element**: the levels before it are passed over, and its
first passing element is taken out, the prefix before it moved to the rear. -/
theorem select_found {pre post : List ι} {i : ι} {Q : ι → List α} {A B : List α} {p : α}
    (hpre : ∀ j ∈ pre, ∀ x ∈ Q j, run x = false) (hQ : Q i = A ++ p :: B)
    (hA : ∀ a ∈ A, run a = false) (hp : run p = true) :
    select run (pre ++ i :: post) Q = (some p, Function.update Q i (B ++ A)) := by
  induction pre with
  | nil => exact select_head hQ hA hp
  | cons j pre ih =>
    rw [List.cons_append, select_skip (hpre j List.mem_cons_self)]
    exact ih fun j' hj' => hpre j' (List.mem_cons_of_mem j hj')

/-- **Nothing passes anywhere**: every level is left as it was. -/
theorem select_none : ∀ {is : List ι} {Q : ι → List α}, (∀ i ∈ is, ∀ x ∈ Q i, run x = false) →
    select run is Q = (none, Q)
  | [], _, _ => rfl
  | i :: is, Q, h => by
    rw [select_skip (h i List.mem_cons_self)]
    exact select_none fun j hj => h j (List.mem_cons_of_mem i hj)

/-- Something passes on one of the levels: the selection finds an element. -/
theorem select_isSome : ∀ {is : List ι} {Q : ι → List α}, (∃ i ∈ is, ∃ x ∈ Q i, run x = true) →
    (select run is Q).1.isSome
  | [], _, ⟨_, hi, _⟩ => absurd hi List.not_mem_nil
  | i :: is, Q, ⟨j, hj, x, hx, hrun⟩ => by
    by_cases hi : ∃ y ∈ Q i, run y = true
    · obtain ⟨A, p, B, hQ, hA, hp⟩ := exists_first hi
      rw [select_head hQ hA hp]
      rfl
    · -- level `i` has nothing that passes, so the element is on a later level
      have hi' : ∀ y ∈ Q i, run y = false := by
        intro y hy
        simpa using fun h => hi ⟨y, hy, h⟩
      have hji : j ≠ i := by
        rintro rfl
        exact hi ⟨x, hx, hrun⟩
      rw [select_skip hi']
      exact select_isSome ⟨j, (List.mem_cons.mp hj).resolve_left hji, x, hx, hrun⟩

end Select

end Rotate
