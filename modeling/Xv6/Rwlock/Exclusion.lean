import Xv6.Rwlock.Lock

/-!
# Readers-writer exclusion

The semaphore `write` has one unit. A writer takes it in `rwlock_acquire_writelock` and gives
it back first thing in `rwlock_release_writelock`; the readers take it as a group, the first
reader in, the last reader out, both inside `rwlock->lk`. A writer is counted in
`num_writers` from before its `xem_wait` until after its `xem_unlock`, and a reader enters
only while `num_writers` is 0: so the first reader, which also holds `rwlock->lk` all the
while, always finds the unit free, and its `xem_wait` never sleeps (it would sleep holding
`rwlock->lk`, and `sched` would panic with two locks held).

`RwInv` states this: the counters count the threads between their increment and their
decrement, `lock_caps` is 0 exactly while a writer or the reader group has the unit, a writer
with the unit is the only thread with it, at most one thread holds `rwlock->lk`, and the
first and the last reader see the counters they test. Every section keeps it
(`RwInv.step`), so it holds in every state of every interleaving (`rwInv_reachable`).
-/

set_option autoImplicit false

namespace Xv6.Rwlock

open Count

variable {T : Type} [Fintype T] [DecidableEq T]

/-! ## 1. What the counters count -/

/-- Counted in `num_readers`: from the increment in `rwlock_acquire_readlock` to the
decrement in `rwlock_release_readlock`. -/
def Pc.countedReader : Pc → Bool
  | .readSem | .readSemSleep | .reading => true
  | _ => false

/-- Counted in `num_writers`: from the increment in `rwlock_acquire_writelock` to the
decrement in `rwlock_release_writelock`. -/
def Pc.countedWriter : Pc → Bool
  | .writeSem | .writeSemSleep | .writing | .writeDec => true
  | _ => false

/-- The thread's section has the semaphore's unit: a writer holding the lock, or a reader of
the group that took it, up to the last reader's `xem_unlock`. -/
def Pc.semHeld : Pc → Bool
  | .writing | .reading | .readPost => true
  | _ => false

/-- The number of threads at a counter `cat` selects. -/
def RwState.num (s : RwState T) (cat : Pc → Bool) : Nat := count fun u => cat (s.pc u)

/-- **The invariant of the lock.** -/
structure RwInv (s : RwState T) : Prop where
  readers : s.numReaders = s.num Pc.countedReader
  writers : s.numWriters = s.num Pc.countedWriter
  caps : s.lockCaps = if ∃ u, (s.pc u).semHeld then 0 else 1
  excl : ∀ t u, s.pc t = .writing → (s.pc u).semHeld → u = t
  oneLk : ∀ t u, (s.pc t).holdsLk → (s.pc u).holdsLk → u = t
  firstReader : ∀ t, s.pc t = .readSem → s.numWriters = 0 ∧ ∀ u, s.pc u ≠ .reading
  lastReader : ∀ t, s.pc t = .readPost → s.numReaders = 0
  awake : ∀ t, s.pc t ≠ .readSemSleep

/-! ## 2. Counting after a move -/

omit [DecidableEq T] in
theorem num_congr {s s' : RwState T} {cat : Pc → Bool} (h : ∀ u, cat (s'.pc u) = cat (s.pc u)) :
    s'.num cat = s.num cat :=
  congrArg count (funext h)

/-- The count after thread `t` moved, the others in the same counted sets. -/
theorem num_move {s s' : RwState T} {t : T} (cat : Pc → Bool)
    (hs : ∀ u, u ≠ t → cat (s'.pc u) = cat (s.pc u)) :
    s'.num cat + (cat (s.pc t)).toNat = s.num cat + (cat (s'.pc t)).toNat := by
  have hfun : (fun u => cat (s'.pc u)) =
      Function.update (fun u => cat (s.pc u)) t (cat (s'.pc t)) := by
    funext u
    by_cases hu : u = t
    · subst hu; simp
    · rw [Function.update_of_ne hu]; exact hs u hu
  unfold RwState.num
  rw [hfun]
  exact count_update _ t _

omit [DecidableEq T] in
theorem num_pos {s : RwState T} {cat : Pc → Bool} {t : T} (h : cat (s.pc t) = true) :
    0 < s.num cat :=
  count_pos.mpr ⟨t, h⟩

/-! ## 3. Moves the invariant cannot see -/

/-- Two counters in the same counted sets, neither holding `lk` nor the unit. -/
def Pc.Quiet (p q : Pc) : Prop :=
  q.countedReader = p.countedReader ∧ q.countedWriter = p.countedWriter ∧
    p.holdsLk = false ∧ q.holdsLk = false ∧ p.semHeld = false ∧ q.semHeld = false

instance (p q : Pc) : Decidable (p.Quiet q) := inferInstanceAs (Decidable (_ ∧ _))

/-- A thread stays, or moves between counters the invariant cannot tell apart. -/
def Pc.Same (p q : Pc) : Prop := q = p ∨ p.Quiet q

theorem Pc.Same.refl (p : Pc) : p.Same p := Or.inl rfl

theorem Pc.Same.countedReader {p q : Pc} (h : p.Same q) : q.countedReader = p.countedReader := by
  rcases h with rfl | h
  · rfl
  · exact h.1

theorem Pc.Same.countedWriter {p q : Pc} (h : p.Same q) : q.countedWriter = p.countedWriter := by
  rcases h with rfl | h
  · rfl
  · exact h.2.1

theorem Pc.Same.eq_of_holdsLk {p q : Pc} (h : p.Same q) (hq : q.holdsLk = true) : q = p := by
  rcases h with h | h
  · exact h
  · rw [h.2.2.2.1] at hq; cases hq

theorem Pc.Same.eq_of_semHeld {p q : Pc} (h : p.Same q) (hq : q.semHeld = true) : q = p := by
  rcases h with h | h
  · exact h
  · rw [h.2.2.2.2.2] at hq; cases hq

theorem Pc.Same.holdsLk {p q : Pc} (h : p.Same q) : q.holdsLk = p.holdsLk := by
  rcases h with rfl | h
  · rfl
  · rw [h.2.2.1, h.2.2.2.1]

theorem Pc.Same.semHeld {p q : Pc} (h : p.Same q) : q.semHeld = p.semHeld := by
  rcases h with rfl | h
  · rfl
  · rw [h.2.2.2.2.1, h.2.2.2.2.2]

/-- The counters the invariant names by value are held ones. -/
theorem Pc.Same.eq_of_eq {p q r : Pc} (h : p.Same q) (hq : q = r)
    (hr : r.holdsLk = true ∨ r.semHeld = true) : p = r := by
  subst hq
  rcases hr with hr | hr
  · exact (h.eq_of_holdsLk hr).symm
  · exact (h.eq_of_semHeld hr).symm

omit [Fintype T] [DecidableEq T] in
/-- A woken thread moves to the head of its loop, unseen, except the first reader asleep at
the semaphore. -/
theorem wakeup_same (s : RwState T) (c : Chan) (u : T) (hu : s.pc u ≠ .readSemSleep) :
    (s.pc u).Same ((wakeup s c).pc u) := by
  show (s.pc u).Same (if (s.pc u).sleepsOn = some c then (s.pc u).resume else s.pc u)
  split
  · cases hp : s.pc u <;> first
      | exact absurd hp hu
      | exact Or.inl rfl
      | exact Or.inr (by decide)
  · exact Or.inl rfl

omit [DecidableEq T] in
/-- **A step whose moves the invariant cannot see.** -/
theorem RwInv.of_same {s s' : RwState T} (h : RwInv s) (hr : s'.numReaders = s.numReaders)
    (hw : s'.numWriters = s.numWriters) (hc : s'.lockCaps = s.lockCaps)
    (hs : ∀ u, (s.pc u).Same (s'.pc u)) : RwInv s' where
  readers := by rw [hr, h.readers]; exact (num_congr fun u => (hs u).countedReader).symm
  writers := by rw [hw, h.writers]; exact (num_congr fun u => (hs u).countedWriter).symm
  caps := by
    have hex : (∃ u, (s'.pc u).semHeld) ↔ ∃ u, (s.pc u).semHeld := by
      simp only [fun u => (hs u).semHeld]
    rw [hc, h.caps]
    exact if_congr hex.symm rfl rfl
  excl t u ht hu := by
    have ht' := (hs t).eq_of_eq ht (Or.inr rfl)
    exact h.excl t u ht' ((hs u).semHeld ▸ hu)
  oneLk t u ht hu := h.oneLk t u ((hs t).holdsLk ▸ ht) ((hs u).holdsLk ▸ hu)
  firstReader t ht := by
    obtain ⟨hw0, hnr⟩ := h.firstReader t ((hs t).eq_of_eq ht (Or.inl rfl))
    exact ⟨hw ▸ hw0, fun u hu => hnr u ((hs u).eq_of_eq hu (Or.inr rfl))⟩
  lastReader t ht := hr ▸ h.lastReader t ((hs t).eq_of_eq ht (Or.inl rfl))
  awake t ht := h.awake t ((hs t).eq_of_eq ht (Or.inl rfl))

/-! ## 4. A step that moves one thread -/

section Move

variable {s s' : RwState T} {t : T}

omit [Fintype T] in
/-- Some thread has `p` exactly when `t` has it or another thread does. -/
theorem exists_iff_self_or_other (p : T → Prop) (t : T) :
    (∃ u, p u) ↔ p t ∨ ∃ u, u ≠ t ∧ p u := by
  constructor
  · rintro ⟨u, hu⟩
    by_cases hut : u = t
    · subst hut; exact Or.inl hu
    · exact Or.inr ⟨u, hut, hu⟩
  · rintro (ht | ⟨u, -, hu⟩)
    · exact ⟨t, ht⟩
    · exact ⟨u, hu⟩

omit [Fintype T] in
theorem exists_semHeld_move (hs : ∀ u, u ≠ t → (s.pc u).Same (s'.pc u)) :
    (∃ u, (s'.pc u).semHeld) ↔ (s'.pc t).semHeld ∨ ∃ u, u ≠ t ∧ (s.pc u).semHeld := by
  rw [exists_iff_self_or_other _ t]
  -- the other threads hold the semaphore after the step exactly when they did before
  refine or_congr Iff.rfl (exists_congr fun u => and_congr_right fun hut => ?_)
  rw [(hs u hut).semHeld]

/-- `lock_caps` read off the thread that moves and the others. -/
theorem RwInv.caps_split (h : RwInv s) (t : T) :
    s.lockCaps = if (s.pc t).semHeld ∨ ∃ u, u ≠ t ∧ (s.pc u).semHeld then 0 else 1 := by
  rw [h.caps]
  exact if_congr (exists_iff_self_or_other _ t) rfl rfl

/-- **A step that moves thread `t` from `a` to `q`**, the other threads unseen. What the
section must show is what the invariant says of `t`'s new counter, and what the other threads
may not be while `t` is there. -/
theorem RwInv.move {a q : Pc} (h : RwInv s) (ha : s.pc t = a) (hq : s'.pc t = q)
    (hs : ∀ u, u ≠ t → (s.pc u).Same (s'.pc u))
    (hR : s'.numReaders + a.countedReader.toNat = s.numReaders + q.countedReader.toNat)
    (hW : s'.numWriters + a.countedWriter.toNat = s.numWriters + q.countedWriter.toNat)
    (hC : s'.lockCaps = if q.semHeld ∨ ∃ u, u ≠ t ∧ (s.pc u).semHeld then 0 else 1)
    (hE : q = .writing → ∀ u, u ≠ t → (s.pc u).semHeld = false)
    (hE' : q.semHeld = true → ∀ u, u ≠ t → s.pc u ≠ .writing)
    (hL : q.holdsLk = true → ∀ u, u ≠ t → (s.pc u).holdsLk = false)
    (hF : q = .readSem → s'.numWriters = 0 ∧ ∀ u, u ≠ t → s.pc u ≠ .reading)
    (hP : q = .readPost → s'.numReaders = 0)
    (hK : (∀ u, u ≠ t → (s.pc u).holdsLk = false) ∨
      (s'.numReaders = s.numReaders ∧ s'.numWriters = s.numWriters ∧ q ≠ .reading))
    (hA : q ≠ .readSemSleep) : RwInv s' where
  readers := by
    have hm := num_move Pc.countedReader fun u hu => (hs u hu).countedReader
    rw [ha, hq] at hm
    have := h.readers
    omega
  writers := by
    have hm := num_move Pc.countedWriter fun u hu => (hs u hu).countedWriter
    rw [ha, hq] at hm
    have := h.writers
    omega
  caps := by
    rw [hC, ← hq]
    exact if_congr (exists_semHeld_move hs).symm rfl rfl
  excl x y hx hy := by
    by_cases hxt : x = t
    · subst hxt
      by_contra hyx
      have hy' := hE (hq ▸ hx) y hyx
      rw [← (hs y hyx).semHeld, hy] at hy'
      cases hy'
    · have hx' : s.pc x = .writing := (hs x hxt).eq_of_eq hx (Or.inr rfl)
      by_cases hyt : y = t
      · subst hyt; exact absurd hx' (hE' (hq ▸ hy) x hxt)
      · exact h.excl x y hx' (by rw [← (hs y hyt).semHeld]; exact hy)
  oneLk x y hx hy := by
    -- a thread other than `t` holding `lk` held it before
    have hold : ∀ z, z ≠ t → (s'.pc z).holdsLk = true → (s.pc z).holdsLk = true :=
      fun z hz hz' => by rw [← (hs z hz).holdsLk]; exact hz'
    by_cases hxt : x = t
    · subst hxt
      by_contra hyx
      have hy' := hL (hq ▸ hx) y hyx
      rw [hold y hyx hy] at hy'
      cases hy'
    · by_cases hyt : y = t
      · subst hyt
        have hx' := hL (hq ▸ hy) x hxt
        rw [hold x hxt hx] at hx'
        cases hx'
      · exact h.oneLk x y (hold x hxt hx) (hold y hyt hy)
  firstReader x hx := by
    by_cases hxt : x = t
    · subst hxt
      obtain ⟨hw0, hnr⟩ := hF (hq ▸ hx)
      refine ⟨hw0, fun u hu => ?_⟩
      by_cases hut : u = x
      · subst hut; rw [hx] at hu; cases hu
      · exact hnr u hut ((hs u hut).eq_of_eq hu (Or.inr rfl))
    · have hx' : s.pc x = .readSem := (hs x hxt).eq_of_eq hx (Or.inl rfl)
      obtain ⟨hw0, hnr⟩ := h.firstReader x hx'
      -- `x` holds `lk`, so `t` ran a section that leaves the counters alone
      rcases hK with hK | ⟨-, hW', hqr⟩
      · exact absurd (hK x hxt) (by rw [hx']; decide)
      · refine ⟨hW'.trans hw0, fun u hu => ?_⟩
        by_cases hut : u = t
        · subst hut; exact hqr (hq ▸ hu)
        · exact hnr u ((hs u hut).eq_of_eq hu (Or.inr rfl))
  lastReader x hx := by
    by_cases hxt : x = t
    · subst hxt; exact hP (hq ▸ hx)
    · have hx' : s.pc x = .readPost := (hs x hxt).eq_of_eq hx (Or.inl rfl)
      rcases hK with hK | ⟨hR', -, -⟩
      · exact absurd (hK x hxt) (by rw [hx']; decide)
      · exact hR'.trans (h.lastReader x hx')
  awake x hx := by
    by_cases hxt : x = t
    · subst hxt; exact hA (hq ▸ hx)
    · exact h.awake x ((hs x hxt).eq_of_eq hx (Or.inl rfl))

end Move

/-! ## 5. One lemma per section -/

section Steps

variable {s : RwState T} {t : T}

omit [Fintype T] in
theorem same_setPc (s : RwState T) (t : T) (p : Pc) {u : T} (hu : u ≠ t) :
    (s.pc u).Same ((s.setPc t p).pc u) := by
  rw [setPc_pc_of_ne _ _ _ hu]; exact .refl _

omit [Fintype T] in
theorem setPc_same {s : RwState T} {t : T} {p : Pc} (hq : (s.pc t).Quiet p) (u : T) :
    (s.pc u).Same ((s.setPc t p).pc u) := by
  by_cases hu : u = t
  · subst hu; rw [setPc_pc_self]; exact Or.inr hq
  · exact same_setPc s t p hu

theorem RwInv.same_xemUnlock (h : RwInv s) (p : Pc) {u : T} (hu : u ≠ t) :
    (s.pc u).Same (((xemUnlock s).setPc t p).pc u) := by
  rw [setPc_pc_of_ne _ _ _ hu]
  exact wakeup_same { s with lockCaps := s.lockCaps + 1 } .write u (h.awake u)

omit [DecidableEq T] in
theorem not_holdsLk_of_lkFree (hlk : lkFree s = true) (u : T) : (s.pc u).holdsLk = false :=
  of_decide_eq_true hlk u

omit [DecidableEq T] in
theorem RwInv.writers_pos (h : RwInv s) (ht : (s.pc t).countedWriter = true) :
    0 < s.numWriters := by
  rw [h.writers]; exact num_pos ht

omit [DecidableEq T] in
theorem RwInv.readers_pos (h : RwInv s) (ht : (s.pc t).countedReader = true) :
    0 < s.numReaders := by
  rw [h.readers]; exact num_pos ht

omit [DecidableEq T] in
/-- While no writer is counted, none holds the unit. -/
theorem RwInv.not_writing (h : RwInv s) (hw : s.numWriters = 0) (u : T) : s.pc u ≠ .writing :=
  fun hu => absurd (h.writers_pos (t := u) (by rw [hu]; rfl)) (by omega)

omit [DecidableEq T] in
theorem RwInv.caps_zero (h : RwInv s) (ht : (s.pc t).semHeld = true) : s.lockCaps = 0 := by
  rw [h.caps, if_pos ⟨t, ht⟩]

omit [DecidableEq T] in
theorem RwInv.caps_one (h : RwInv s) (hn : ∀ u, (s.pc u).semHeld = false) : s.lockCaps = 1 := by
  rw [h.caps, if_neg]
  rintro ⟨u, hu⟩
  rw [hn u] at hu; cases hu

omit [DecidableEq T] in
/-- A unit left means nobody has it. -/
theorem RwInv.unit_free (h : RwInv s) (hpos : 0 < s.lockCaps) (u : T) :
    (s.pc u).semHeld = false := by
  by_contra hu
  rw [h.caps_zero (t := u) (by simpa using hu)] at hpos
  exact absurd hpos (lt_irrefl 0)

omit [DecidableEq T] in
/-- With `lk` free, a counted reader holds the lock for reading. -/
theorem reading_of_lkFree (hlk : lkFree s = true) {u : T}
    (hu : (s.pc u).countedReader = true) : s.pc u = .reading := by
  have hfree := not_holdsLk_of_lkFree hlk u
  cases hp : s.pc u <;> rw [hp] at hu hfree <;> first
    | rfl
    | exact absurd hu (by decide)
    | exact absurd hfree (by decide)

/-- A thread that has not reached a counted phase keeps `lock_caps` as it was. -/
theorem RwInv.caps_move (h : RwInv s) {q : Pc} (hq : q.semHeld = (s.pc t).semHeld) :
    s.lockCaps = if q.semHeld ∨ ∃ u, u ≠ t ∧ (s.pc u).semHeld then 0 else 1 := by
  rw [hq]; exact h.caps_split t

/-- **The first reader's section**: it counts itself and goes on to `xem_wait` with `lk`. -/
theorem RwInv.firstReaderEnter (h : RwInv s) (hc : s.pc t = .readEnter) (hlk : lkFree s = true)
    (hw : s.numWriters = 0) (hn : s.numReaders = 0) :
    RwInv { s.setPc t .readSem with numReaders := s.numReaders + 1 } := by
  have hfree := not_holdsLk_of_lkFree hlk
  refine h.move hc (setPc_pc_self _ _ _) (fun u hu => same_setPc s t _ hu) rfl rfl
    (h.caps_move (by rw [hc]; rfl)) nofun (fun h' => absurd h' (by decide))
    (fun _ u _ => hfree u) (fun _ => ⟨hw, fun u _ hu => ?_⟩) nofun (Or.inl fun u _ => hfree u)
    (by decide)
  exact absurd (h.readers_pos (t := u) (by rw [hu]; rfl)) (by omega)

/-- **A later reader's section**: the group already has the unit. -/
theorem RwInv.readerEnter (h : RwInv s) (hc : s.pc t = .readEnter) (hlk : lkFree s = true)
    (hw : s.numWriters = 0) (hn : s.numReaders ≠ 0) :
    RwInv { s.setPc t .reading with numReaders := s.numReaders + 1 } := by
  have hfree := not_holdsLk_of_lkFree hlk
  obtain ⟨u, hu⟩ := count_pos.mp (show 0 < s.num Pc.countedReader by rw [← h.readers]; omega)
  have hur : s.pc u = .reading := reading_of_lkFree hlk hu
  refine h.move hc (setPc_pc_self _ _ _) (fun u hu => same_setPc s t _ hu) rfl rfl ?_ nofun
    (fun _ u _ => h.not_writing hw u) nofun nofun nofun (Or.inl fun u _ => hfree u) (by decide)
  simp only [Pc.semHeld, true_or, if_true]
  exact (h.caps_zero (t := u) (by rw [hur]; rfl) : s.lockCaps = 0)

/-- **`rwlock_acquire_readlock`'s section.** -/
theorem RwInv.readEnter (h : RwInv s) (hc : s.pc t = .readEnter) (hlk : lkFree s = true) :
    RwInv (acquireReadlockEnter s t) := by
  unfold acquireReadlockEnter
  by_cases hw : 0 < s.numWriters
  · -- asleep on the rwlock
    rw [if_pos hw]
    exact h.of_same rfl rfl rfl (setPc_same (by rw [hc]; decide))
  · rw [if_neg hw]
    by_cases hn : s.numReaders = 0
    · simp only [hn, zero_add, if_true]
      simpa [hn] using h.firstReaderEnter hc hlk (by omega) hn
    · simp only [Nat.add_eq_right, hn, if_false]
      exact h.readerEnter hc hlk (by omega) hn

omit [DecidableEq T] in
/-- The first reader at the semaphore finds the unit free. -/
theorem RwInv.unit_free_of_readSem (h : RwInv s) (hc : s.pc t = .readSem) (u : T) :
    (s.pc u).semHeld = false := by
  obtain ⟨hw, hnr⟩ := h.firstReader t hc
  cases hp : s.pc u <;> first
    | rfl
    | exact absurd hp (h.not_writing hw u)
    | exact absurd hp (hnr u)
    | exact absurd (h.oneLk t u (by rw [hc]; rfl) (by rw [hp]; rfl)) (by
        rintro rfl; rw [hc] at hp; cases hp)

/-- **The first reader's `xem_wait`** takes the unit without sleeping. -/
theorem RwInv.readSem (h : RwInv s) (hc : s.pc t = .readSem) :
    0 < s.lockCaps ∧ RwInv (xemWait s t .readSemSleep .reading) := by
  have hcaps : s.lockCaps = 1 := h.caps_one (h.unit_free_of_readSem hc)
  refine ⟨by omega, ?_⟩
  unfold xemWait
  rw [if_neg (by omega)]
  refine h.move hc (setPc_pc_self _ _ _) (fun u hu => same_setPc s t _ hu) rfl rfl ?_ nofun
    (fun _ u _ hu => absurd (h.unit_free_of_readSem hc u) (by rw [hu]; decide)) nofun nofun
    nofun ?_ (by decide)
  · simp only [Pc.semHeld, true_or, if_true]
    show s.lockCaps - 1 = 0
    omega
  · -- the other threads do not hold `lk`: the first reader does
    refine Or.inl fun u hut => ?_
    by_contra hu
    exact hut (h.oneLk t u (by rw [hc]; rfl) (by simpa using hu))
/-- **The last reader's section**: it goes on to `xem_unlock` with `lk`. -/
theorem RwInv.lastReaderLeave (h : RwInv s) (hc : s.pc t = .reading) (hlk : lkFree s = true)
    (hn : s.numReaders - 1 = 0) :
    RwInv { s.setPc t .readPost with numReaders := s.numReaders - 1 } := by
  have hfree := not_holdsLk_of_lkFree hlk
  have hpos := h.readers_pos (t := t) (by rw [hc]; rfl)
  refine h.move hc (setPc_pc_self _ _ _) (fun u hu => same_setPc s t _ hu) ?_ rfl
    (h.caps_move (by rw [hc]; rfl)) nofun (fun _ u hut hu => ?_) (fun _ u _ => hfree u) nofun
    (fun _ => hn) (Or.inl fun u _ => hfree u) (by decide)
  · show s.numReaders - 1 + 1 = s.numReaders + 0
    omega
  · -- a writer would be the only thread with the unit, but the group has it
    exact hut (h.excl u t hu (by rw [hc]; rfl)).symm

/-- **A reader leaving while others read.** -/
theorem RwInv.readerLeave (h : RwInv s) (hc : s.pc t = .reading) (hlk : lkFree s = true)
    (hn : s.numReaders - 1 ≠ 0) :
    RwInv { s.setPc t .idle with numReaders := s.numReaders - 1 } := by
  have hfree := not_holdsLk_of_lkFree hlk
  have hpos := h.readers_pos (t := t) (by rw [hc]; rfl)
  -- another counted reader, and so another thread reading
  have hm := num_move Pc.countedReader fun u hu => (same_setPc s t .idle hu).countedReader
  rw [hc, setPc_pc_self] at hm
  obtain ⟨u, hu⟩ := count_pos.mp (show 0 < (s.setPc t .idle).num Pc.countedReader by
    rw [h.readers] at hpos hn
    simp only [Pc.countedReader, Bool.toNat_true, Bool.toNat_false] at hm
    omega)
  have hut : u ≠ t := by rintro rfl; rw [setPc_pc_self] at hu; cases hu
  rw [setPc_pc_of_ne _ _ _ hut] at hu
  have hur : s.pc u = .reading := reading_of_lkFree hlk hu
  refine h.move hc (setPc_pc_self _ _ _) (fun u hu => same_setPc s t _ hu) ?_ rfl ?_ nofun nofun
    nofun nofun nofun (Or.inl fun u _ => hfree u) (by decide)
  · show s.numReaders - 1 + 1 = s.numReaders + 0
    omega
  · rw [if_pos (Or.inr ⟨u, hut, by rw [hur]; rfl⟩)]
    exact (h.caps_zero (t := t) (by rw [hc]; rfl) : s.lockCaps = 0)

/-- **`rwlock_release_readlock`'s section.** -/
theorem RwInv.reading (h : RwInv s) (hc : s.pc t = .reading) (hlk : lkFree s = true) :
    RwInv (releaseReadlockEnter s t) := by
  unfold releaseReadlockEnter
  by_cases hn : s.numReaders - 1 = 0
  · simp only [hn, if_true]
    simpa [hn] using h.lastReaderLeave hc hlk hn
  · simp only [hn, if_false]
    exact h.readerLeave hc hlk hn

omit [DecidableEq T] in
/-- The last reader at `xem_unlock` is the only thread with the unit. -/
theorem RwInv.unit_alone_of_readPost (h : RwInv s) (hc : s.pc t = .readPost) {u : T}
    (hut : u ≠ t) : (s.pc u).semHeld = false := by
  have hn := h.lastReader t hc
  cases hp : s.pc u <;> first
    | rfl
    | exact absurd (h.excl u t hp (by rw [hc]; rfl)) (Ne.symm hut)
    | exact absurd (h.readers_pos (t := u) (by rw [hp]; rfl)) (by omega)
    | exact absurd (h.oneLk t u (by rw [hc]; rfl) (by rw [hp]; rfl)) hut

/-- **The last reader's `xem_unlock`** gives the unit back. -/
theorem RwInv.readPost (h : RwInv s) (hc : s.pc t = .readPost) :
    RwInv ((xemUnlock s).setPc t .idle) := by
  refine h.move hc (setPc_pc_self _ _ _) (fun u hu => h.same_xemUnlock _ hu) rfl rfl ?_ nofun
    nofun nofun nofun nofun ?_ (by decide)
  · rw [if_neg]
    · show s.lockCaps + 1 = 1
      rw [h.caps_zero (t := t) (by rw [hc]; rfl)]
      rfl
    · rintro (hq | ⟨u, hut, hu⟩)
      · cases hq
      · rw [h.unit_alone_of_readPost hc hut] at hu; cases hu
  · refine Or.inl fun u hut => ?_
    by_contra hu
    exact hut (h.oneLk t u (by rw [hc]; rfl) (by simpa using hu))

/-- **`rwlock_acquire_writelock`'s section.** -/
theorem RwInv.writeEnter (h : RwInv s) (hc : s.pc t = .writeEnter) (hlk : lkFree s = true) :
    RwInv (acquireWritelockEnter s t) := by
  have hfree := not_holdsLk_of_lkFree hlk
  exact h.move hc (setPc_pc_self _ _ _) (fun u hu => same_setPc s t _ hu) rfl rfl
    (h.caps_move (by rw [hc]; rfl)) nofun nofun nofun nofun nofun (Or.inl fun u _ => hfree u)
    (by decide)

/-- **A writer's `xem_wait`**: with the unit free it takes it, alone. -/
theorem RwInv.writeSemTake (h : RwInv s) (hc : s.pc t = .writeSem) (hpos : 0 < s.lockCaps) :
    RwInv { s.setPc t .writing with lockCaps := s.lockCaps - 1 } := by
  have hfree := h.unit_free hpos
  have hcaps : s.lockCaps = 1 := h.caps_one hfree
  refine h.move hc (setPc_pc_self _ _ _) (fun u hu => same_setPc s t _ hu) rfl rfl ?_
    (fun _ u _ => hfree u) (fun _ u _ hu => absurd (hfree u) (by rw [hu]; decide)) nofun nofun
    nofun (Or.inr ⟨rfl, rfl, by decide⟩) (by decide)
  simp only [Pc.semHeld, true_or, if_true]
  show s.lockCaps - 1 = 0
  omega

theorem RwInv.writeSem (h : RwInv s) (hc : s.pc t = .writeSem) :
    RwInv (xemWait s t .writeSemSleep .writing) := by
  unfold xemWait
  split
  · -- asleep on the semaphore
    exact h.of_same rfl rfl rfl (setPc_same (by rw [hc]; decide))
  · exact h.writeSemTake hc (by omega)

/-- **`rwlock_release_writelock`'s `xem_unlock`** gives the unit back. -/
theorem RwInv.writing (h : RwInv s) (hc : s.pc t = .writing) :
    RwInv ((xemUnlock s).setPc t .writeDec) := by
  refine h.move hc (setPc_pc_self _ _ _) (fun u hu => h.same_xemUnlock _ hu) rfl rfl ?_ nofun
    nofun nofun nofun nofun (Or.inr ⟨rfl, rfl, by decide⟩) (by decide)
  rw [if_neg]
  · show s.lockCaps + 1 = 1
    rw [h.caps_zero (t := t) (by rw [hc]; rfl)]
    rfl
  · rintro (hq | ⟨u, hut, hu⟩)
    · cases hq
    · exact hut (h.excl t u hc hu)

/-- **`rwlock_release_writelock`'s section.** -/
theorem RwInv.writeDec (h : RwInv s) (hc : s.pc t = .writeDec) (hlk : lkFree s = true) :
    RwInv (releaseWritelockDec s t) := by
  have hfree := not_holdsLk_of_lkFree hlk
  have hpos := h.writers_pos (t := t) (by rw [hc]; rfl)
  refine h.move hc (setPc_pc_self _ _ _) (fun u hu => same_setPc s t _ hu) rfl ?_
    (h.caps_move (by rw [hc]; rfl)) nofun nofun nofun nofun nofun (Or.inl fun u _ => hfree u)
    (by decide)
  show s.numWriters - 1 + 1 = s.numWriters + 0
  omega

/-- **`wakeup(rwlock)`** at the end of `rwlock_release_writelock`. -/
theorem RwInv.writeWake (h : RwInv s) (hc : s.pc t = .writeWake) :
    RwInv ((wakeup s .rwlock).setPc t .idle) := by
  refine h.of_same rfl rfl rfl fun u => ?_
  by_cases hu : u = t
  · subst hu; rw [setPc_pc_self, hc]; exact Or.inr (by decide)
  · rw [setPc_pc_of_ne _ _ _ hu]; exact wakeup_same s .rwlock u (h.awake u)

/-- **Every step keeps the invariant.** -/
theorem RwInv.step {e : RwEvent T} {s' : RwState T} (h : RwInv s) (he : rwStep s e = some s') :
    RwInv s' := by
  cases e with
  | acquireRead t =>
    simp only [rwStep] at he
    split_ifs at he with hc
    cases he
    exact h.of_same rfl rfl rfl (setPc_same (by rw [hc]; decide))
  | acquireWrite t =>
    simp only [rwStep] at he
    split_ifs at he with hc
    cases he
    exact h.of_same rfl rfl rfl (setPc_same (by rw [hc]; decide))
  | run t =>
    simp only [rwStep, runThread] at he
    split at he <;> rename_i hc
    · split_ifs at he with hlk
      cases he; exact h.readEnter hc hlk
    · cases he; exact (h.readSem hc).2
    · split_ifs at he with hlk
      cases he; exact h.reading hc hlk
    · cases he; exact h.readPost hc
    · split_ifs at he with hlk
      cases he; exact h.writeEnter hc hlk
    · cases he; exact h.writeSem hc
    · cases he; exact h.writing hc
    · split_ifs at he with hlk
      cases he; exact h.writeDec hc hlk
    · cases he; exact h.writeWake hc
    all_goals cases he

end Steps

/-! ## 6. Every interleaving -/

omit [DecidableEq T] in
theorem RwInv.init : RwInv (rwlockInit T) where
  readers := (count_eq_zero.mpr fun _ => rfl).symm
  writers := (count_eq_zero.mpr fun _ => rfl).symm
  caps := by rw [if_neg]; · rfl
             rintro ⟨u, hu⟩; cases hu
  excl t _ ht := by cases ht
  oneLk t _ ht := by cases ht
  firstReader t ht := by cases ht
  lastReader t ht := by cases ht
  awake t ht := by cases ht

/-- **The invariant holds in every state of every interleaving.** -/
theorem rwInv_reachable {s : RwState T} (h : RwReachable s) : RwInv s :=
  Reach.Reachable.rec_inv RwInv.init (fun _ _ _ hs he _ => hs.step he) h

/-- **Readers-writer exclusion.** In every state reached from `rwlock_init` by any
interleaving of the threads' calls, either no thread holds the lock for writing, or exactly
one does and no thread holds it for reading; `write.lock_caps` is 0 or 1; and the first
reader, at the `xem_wait` it calls holding `rwlock->lk`, finds a unit and never sleeps. -/
theorem rwlock_exclusion {s : RwState T} (h : RwReachable s) :
    ((∀ t, s.pc t ≠ .writing) ∨
      ∃ t, s.pc t = .writing ∧ (∀ u, s.pc u = .writing → u = t) ∧ ∀ u, s.pc u ≠ .reading) ∧
    (s.lockCaps = 0 ∨ s.lockCaps = 1) ∧
    (∀ t, s.pc t = .readSem → 0 < s.lockCaps) ∧ ∀ t, s.pc t ≠ .readSemSleep := by
  have hi := rwInv_reachable h
  refine ⟨?_, ?_, fun t ht => (hi.readSem ht).1, hi.awake⟩
  · by_cases hw : ∃ t, s.pc t = .writing
    · obtain ⟨t, ht⟩ := hw
      refine Or.inr ⟨t, ht, fun u hu => hi.excl t u ht (by rw [hu]; rfl), fun u hu => ?_⟩
      -- a reader would share the unit with the writer
      have hut := hi.excl t u ht (by rw [hu]; rfl)
      rw [hut, ht] at hu
      cases hu
    · exact Or.inl fun t ht => hw ⟨t, ht⟩
  · rw [hi.caps]
    split
    · exact Or.inl rfl
    · exact Or.inr rfl

/-- Thread 0 takes the lock for writing and thread 1 asks for it for reading: thread 1 waits,
asleep on the rwlock, and no thread reads. -/
theorem rwlock_exclusion_writer :
    ∃ s : RwState (Fin 2), Reach.run rwStep (rwlockInit (Fin 2))
        [.acquireWrite 0, .run 0, .run 0, .acquireRead 1, .run 1] = some s ∧
      s.pc 0 = .writing ∧ s.pc 1 = .readSleep ∧ ∀ u, s.pc u ≠ .reading := by
  obtain ⟨s, hs, hv⟩ := Option.map_eq_some_iff.mp
    (show (Reach.run rwStep (rwlockInit (Fin 2))
        [.acquireWrite 0, .run 0, .run 0, .acquireRead 1, .run 1]).map
        (fun s => (s.pc 0, s.pc 1)) = some (.writing, .readSleep) by decide)
  simp only [Prod.mk.injEq] at hv
  have hr : RwReachable s := Reach.Reachable.init.run (fun _ _ => trivial) hs
  obtain ⟨hx, -⟩ := rwlock_exclusion hr
  refine ⟨s, hs, hv.1, hv.2, ?_⟩
  rcases hx with hx | ⟨t, -, -, hnr⟩
  · exact absurd hv.1 (hx 0)
  · exact hnr

end Xv6.Rwlock
