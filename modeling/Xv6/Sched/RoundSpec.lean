import Xv6.Sched.Round
import Xv6.Sched.MlfqSpec

/-!
# What a round does

One lemma for each piece of `stride_scheduler`, so that the invariant proofs never unfold
the round again:

* `chargeItem_smallTwos`, `updateMaxPass_smallTwos`: with denominators off multiples of
  `2^7` and a share in `1 … 127`, charging a stride and updating `max_pass` never fail;
* `stridePass_spec`: the end of the round pops the heap's top, charges the copy and pushes
  it back unless it belongs to a zombie, and only the stride queue and the CPU change;
* `strideScheduler_cases`, `mlfqScheduler_cases`, `mlfqResume_cases`: the ways a round can
  go, each with the facts its branch established.
-/

set_option autoImplicit false

namespace Xv6

variable {n : Nat}

/-! ## Charging a stride -/

theorem strideOf_smallTwos (sq : StrideQueue) {item : StrideItem} (h0 : 0 < item.share)
    (h1 : item.share < 2 ^ 7) : ∃ st, strideOf sq item = some st ∧ st.SmallTwos := by
  have hn : (UInt32.ofInt item.share).toNat = item.share.toNat := by
    rw [UInt32.ofInt, UInt32.toNat_ofNat', Int.emod_eq_of_lt (by omega) (by omega)]
    omega
  exact fracInit_smallTwos _ (smallTwos_of_lt (by rw [hn]; omega) (by rw [hn]; omega))

/-- **Charging never fails**: the copy gets a new pass, with a denominator off multiples
of `2^7` again, and nothing else of it changes. -/
theorem chargeItem_smallTwos (sq : StrideQueue) {item : StrideItem} (hp : item.pass.SmallTwos)
    (h0 : 0 < item.share) (h1 : item.share < 2 ^ 7) :
    ∃ pass, chargeItem sq item = some { item with pass } ∧ pass.SmallTwos := by
  obtain ⟨st, hst, hst2⟩ := strideOf_smallTwos sq h0 h1
  obtain ⟨pass, hpass, hpass2⟩ := fracAdd_smallTwos hp hst2
  exact ⟨pass, by simp [chargeItem, hst, hpass], hpass2⟩

theorem updateMaxPass_smallTwos {m pass : Frac} (hm : m.SmallTwos) (hp : pass.SmallTwos) :
    ∃ m', updateMaxPass m pass = some m' ∧ m'.SmallTwos := by
  unfold updateMaxPass
  split
  · exact fracInit_smallTwos _ hp
  · exact ⟨m, rfl, hm⟩

/-- The charged pass is in lowest terms: `frac_add` ends with `frac_init`. -/
theorem chargeItem_reduced {sq : StrideQueue} {item : StrideItem} {pass : Frac}
    (h : chargeItem sq item = some { item with pass }) :
    Nat.Coprime pass.num.toNat pass.denom.toNat ∧ 0 < pass.denom.toNat := by
  obtain ⟨st, -, hadd⟩ := Option.bind_eq_some_iff.mp h
  obtain ⟨pass', hpass', heq⟩ := Option.map_eq_some_iff.mp hadd
  obtain rfl : pass' = pass := congrArg StrideItem.pass heq
  unfold fracAdd at hpass'
  exact fracInit_reduced hpass'

/-- On a pass in lowest terms the update of `max_pass` picks one of the two. -/
theorem updateMaxPass_reduced {m pass : Frac} (hc : Nat.Coprime pass.num.toNat pass.denom.toNat)
    (hd : 0 < pass.denom.toNat) :
    updateMaxPass m pass = some (if fracIsLessThan m pass then pass else m) := by
  unfold updateMaxPass
  split
  · exact fracInit_self hc hd
  · rfl

/-- **`max_pass` only grows**, and a pass it is compared with without wrapping ends at or
below it, as long as the comparison of the old and the new `max_pass` does not wrap. -/
theorem updateMaxPass_val {m m' pass : Frac} (hc : Nat.Coprime pass.num.toNat pass.denom.toNat)
    (hd : 0 < pass.denom.toNat) (h : updateMaxPass m pass = some m') (hm : CmpFits m m') :
    m.val ≤ m'.val ∧ (CmpFits m' pass → pass.val ≤ m'.val) := by
  rw [updateMaxPass_reduced hc hd, Option.some.injEq] at h
  subst h
  split_ifs at hm ⊢ with hlt
  · exact ⟨le_of_lt ((fracIsLessThan_iff hm).mp hlt), fun _ => le_rfl⟩
  · refine ⟨le_rfl, fun hf => not_lt.mp fun hlt' => hlt ?_⟩
    exact (fracIsLessThan_iff hf).mpr hlt'

/-! ## The end of a round -/

/-- Whether `stride_pass` pushes the copy back: the MLFQ item always, a process's item
unless the process is a zombie. -/
def PushedBack (s : Sys n) (item : StrideItem) : Prop :=
  item.isMLFQ = true ∨ ∃ p, item.proc = some p ∧ (s.procs p).state ≠ .zombie

instance (s : Sys n) (item : StrideItem) : Decidable (PushedBack s item) :=
  inferInstanceAs (Decidable (item.isMLFQ = true ∨ ∃ p ∈ item.proc, (s.procs p).state ≠ .zombie))

/-- `if(stride_push(&item)) panic(...)` on a heap with room. -/
theorem pushBack_eq {s : Sys n} (item : StrideItem) (hn : s.stride.q.size < nproc) :
    ∃ q', heapPushItem s.stride.q item = some q' ∧
      pushBack s item = some { s with stride :=
        { s.stride with allShare := s.stride.allShare + item.share, q := q' } } := by
  obtain ⟨q', hq', hpush⟩ := stridePush_ok item hn
  exact ⟨q', hq', by simp [pushBack, hpush]⟩

/-- The first half of `stride_pass` on a non-empty heap, with a copy that can be charged:
the pop, the charge and the update of `max_pass` all succeed. -/
theorem stridePass_prefix {s : Sys n} {item : StrideItem} (hn : 0 < s.stride.q.size)
    (hp : item.pass.SmallTwos) (hm : s.stride.maxPass.SmallTwos) (h0 : 0 < item.share)
    (h1 : item.share < 2 ^ 7) :
    ∃ q1 pass m, heapPopItem s.stride.q = some q1 ∧ q1.size < s.stride.q.size ∧
      stridePop s.stride = (0, { s.stride with
        allShare := s.stride.allShare - (s.stride.q.items 1).share, q := q1 }) ∧
      chargeItem { s.stride with
        allShare := s.stride.allShare - (s.stride.q.items 1).share, q := q1 } item =
        some { item with pass } ∧ pass.SmallTwos ∧
      updateMaxPass s.stride.maxPass pass = some m ∧ m.SmallTwos := by
  obtain ⟨q1, hpop, hsp⟩ := stridePop_ok hn
  obtain ⟨pass, hch, hpass⟩ := chargeItem_smallTwos
    { s.stride with allShare := s.stride.allShare - (s.stride.q.items 1).share, q := q1 } hp h0 h1
  obtain ⟨m, hmax, hm2⟩ := updateMaxPass_smallTwos hm hpass
  obtain ⟨q1', hq1', hs1', -⟩ := heapPopItem_contents hn
  obtain rfl : q1' = q1 := Option.some.inj (hq1'.symm.trans hpop)
  exact ⟨q1', pass, m, hpop, by omega, hsp, hch, hpass, hmax, hm2⟩

/-- **`stride_pass` does not panic** on a non-empty heap that fits in `items[]`, with a copy
that can be charged and that stands for the MLFQ or for a process. -/
theorem stridePass_isSome {s : Sys n} {c : Fin n} {item : StrideItem}
    (hn : 0 < s.stride.q.size) (hle : s.stride.q.size ≤ nproc) (hp : item.pass.SmallTwos)
    (hm : s.stride.maxPass.SmallTwos) (h0 : 0 < item.share) (h1 : item.share < 2 ^ 7)
    (hi : item.isMLFQ = true ∨ ∃ p, item.proc = some p) : (stridePass s c item).isSome := by
  obtain ⟨q1, pass, m, -, hsize1, hsp, hch, -, hmax, -⟩ := stridePass_prefix hn hp hm h0 h1
  simp only [stridePass, Sys.setCpu_stride, hsp, ne_eq, not_true_eq_false, if_false, hch, hmax]
  obtain ⟨q2, -, hpb⟩ := pushBack_eq (s := { s.setCpu c .idle with stride := { s.stride with
    allShare := s.stride.allShare - (s.stride.q.items 1).share, maxPass := m, q := q1 } })
    { item with pass } (by simp only; omega)
  rw [hpb]
  rcases hi with hM | ⟨p, hP⟩
  · simp [hM]
  · rcases hM : item.isMLFQ with _ | _
    · simp only [hP]
      split_ifs <;> rfl
    · rfl

/-- **`stride_pass`** on a non-empty heap, with a copy whose pass and share allow the
charge: the top is popped (its share leaves `all_share`), the copy is charged, `max_pass`
updated, and the copy pushed back (its share joins `all_share`) exactly when `PushedBack`
holds. The CPU goes idle; nothing else changes. -/
theorem stridePass_spec {s s' : Sys n} {c : Fin n} {item : StrideItem}
    (hn : 0 < s.stride.q.size) (hle : s.stride.q.size ≤ nproc) (hp : item.pass.SmallTwos)
    (hm : s.stride.maxPass.SmallTwos) (h0 : 0 < item.share) (h1 : item.share < 2 ^ 7)
    (h : stridePass s c item = some s') :
    ∃ q1 pass, heapPopItem s.stride.q = some q1 ∧ chargeItem
        { s.stride with allShare := s.stride.allShare - (s.stride.q.items 1).share, q := q1 } item =
        some { item with pass } ∧ pass.SmallTwos ∧
      updateMaxPass s.stride.maxPass pass = some s'.stride.maxPass ∧
      s'.stride.maxPass.SmallTwos ∧
      s' = { s with stride := s'.stride, cpus := Function.update s.cpus c .idle } ∧
      (PushedBack s item → heapPushItem q1 { item with pass } = some s'.stride.q ∧
        s'.stride.allShare = s.stride.allShare - (s.stride.q.items 1).share + item.share) ∧
      (¬ PushedBack s item → s'.stride.q = q1 ∧
        s'.stride.allShare = s.stride.allShare - (s.stride.q.items 1).share) := by
  obtain ⟨q1, pass, m, hpop, hsize1, hsp, hch, hpass, hmax, hm2⟩ :=
    stridePass_prefix hn hp hm h0 h1
  set sq1 : StrideQueue :=
    { s.stride with allShare := s.stride.allShare - (s.stride.q.items 1).share, q := q1 }
  simp only [stridePass, Sys.setCpu_stride, hsp, ne_eq, not_true_eq_false, if_false, hch] at h
  rw [show updateMaxPass sq1.maxPass pass = some m from hmax] at h
  simp only at h
  set t : Sys n := { s.setCpu c .idle with stride := { sq1 with maxPass := m } } with ht
  obtain ⟨q2, hpush, hpb⟩ := pushBack_eq (s := t) { item with pass } (by simp only [t, sq1]; omega)
  rw [hpb] at h
  -- the copy goes back exactly when `PushedBack` holds
  have hcases : (PushedBack s item ∧ s' = { t with stride :=
        { t.stride with allShare := t.stride.allShare + item.share, q := q2 } }) ∨
      (¬ PushedBack s item ∧ s' = t) := by
    unfold PushedBack
    rcases hM : item.isMLFQ with _ | _ <;> rcases hP : item.proc with _ | p <;>
      simp only [hM, hP] at h
    · exact absurd h (by simp)
    · by_cases hz : (s.procs p).state = .zombie
      · right
        rw [if_pos (by simpa using hz), Option.some.injEq] at h
        exact ⟨by simp [hz], h.symm⟩
      · left
        rw [if_neg (by simpa using hz), Option.some.injEq] at h
        exact ⟨Or.inr ⟨p, rfl, hz⟩, h.symm⟩
    · left
      rw [Option.some.injEq] at h
      exact ⟨Or.inl rfl, h.symm⟩
    · left
      rw [Option.some.injEq] at h
      exact ⟨Or.inl rfl, h.symm⟩
  refine ⟨q1, pass, hpop, hch, hpass, ?_⟩
  rcases hcases with ⟨hpb', rfl⟩ | ⟨hpb', rfl⟩
  · exact ⟨hmax, hm2, rfl, fun _ => ⟨hpush, rfl⟩, fun h => absurd hpb' h⟩
  · exact ⟨hmax, hm2, rfl, fun h => absurd h hpb', fun _ => ⟨rfl, rfl⟩⟩

/-- **`stride_pass` swaps the top for the copy** when it pushes the copy back, on any number
of CPUs: the item on top of the heap when the round gets there leaves, with its share, and
the round's copy comes back charged, with the share it had when the round read it. -/
theorem stridePass_contents {s s' : Sys n} {c : Fin n} {item : StrideItem}
    (hn : 0 < s.stride.q.size) (hle : s.stride.q.size ≤ nproc) (hp : item.pass.SmallTwos)
    (hm : s.stride.maxPass.SmallTwos) (h0 : 0 < item.share) (h1 : item.share < 2 ^ 7)
    (hpb : PushedBack s item) (h : stridePass s c item = some s') :
    ∃ C pass, s.stride.q.items 1 ::ₘ C = s.stride.q.contents ∧
      chargeItem { s.stride with allShare := s.stride.allShare - (s.stride.q.items 1).share }
        item = some { item with pass } ∧
      updateMaxPass s.stride.maxPass pass = some s'.stride.maxPass ∧
      s' = { s with stride := s'.stride, cpus := Function.update s.cpus c .idle } ∧
      s'.stride.q.contents = { item with pass } ::ₘ C ∧
      s'.stride.allShare = s.stride.allShare - (s.stride.q.items 1).share + item.share := by
  obtain ⟨q1, pass, hpop, hch, -, hmax, -, hframe, hyes, -⟩ :=
    stridePass_spec hn hle hp hm h0 h1 h
  obtain ⟨hpush, hall⟩ := hyes hpb
  obtain ⟨q1', hpop', hsize1, hcont1, -⟩ := heapPopItem_contents hn
  obtain rfl : q1' = q1 := Option.some.inj (hpop'.symm.trans hpop)
  obtain ⟨q2, hpush', -, hcont2, -⟩ := heapPushItem_contents (h := q1') { item with pass }
    (by omega)
  obtain rfl : q2 = s'.stride.q := Option.some.inj (hpush'.symm.trans hpush)
  -- the charge reads `all_share` only, not the popped heap
  exact ⟨q1'.contents, pass, hcont1, hch, hmax, hframe, hcont2, hall⟩

/-! ## The branches of a round -/

/-- The MLFQ scheduler either dispatches what its scan found, or returns to `stride_pass`. -/
theorem mlfqScheduler_cases {s s' : Sys n} {c : Fin n} {item : StrideItem}
    (h : mlfqScheduler s c item = some s') :
    ∃ s1 r, mlfqScan s = some (s1, r) ∧
      ((∃ p, r = some p ∧ s' = dispatch s1 c p (.mlfq item p)) ∨
        (r = none ∧ stridePass s1 c item = some s')) := by
  unfold mlfqScheduler at h
  split at h
  · exact absurd h (by simp)
  · rename_i s1 p hscan
    exact ⟨s1, some p, hscan, Or.inl ⟨p, rfl, (Option.some.inj h).symm⟩⟩
  · rename_i s1 hscan
    exact ⟨s1, none, hscan, Or.inr ⟨rfl, h⟩⟩

/-- After `p` is back, `mlfqAfterRun` and the reset of `yield_by`, then `stride_pass` if
`p` was stopped by the stride quantum, else the scan again. -/
theorem mlfqResume_cases {s s' : Sys n} {c : Fin n} {item : StrideItem} {p : ProcId}
    (h : mlfqResume s c item p = some s') :
    ∃ s1, mlfqAfterRun s p = some s1 ∧
      (((s1.procs p).yieldBy = 1 ∧
          stridePass (s1.modifyProc p fun pr => { pr with yieldBy := 0 }) c item = some s') ∨
        ((s1.procs p).yieldBy ≠ 1 ∧
          mlfqScheduler (s1.modifyProc p fun pr => { pr with yieldBy := 0 }) c item = some s')) := by
  obtain ⟨s1, h1, h⟩ := Option.bind_eq_some_iff.mp h
  refine ⟨s1, h1, ?_⟩
  by_cases hy : (s1.procs p).yieldBy = 1
  · exact Or.inl ⟨hy, by simpa [hy] using h⟩
  · exact Or.inr ⟨hy, by simpa [hy] using h⟩

/-- The start of a round: the MLFQ item hands over to `mlfq_scheduler`, a process's item
dispatches its process if it is runnable, and goes straight to `stride_pass` if not. -/
theorem strideScheduler_cases {s s' : Sys n} {c : Fin n} (h : strideScheduler s c = some s') :
    0 < s.stride.q.size ∧
      ((s.stride.q.items 1).isMLFQ = true ∧ mlfqScheduler s c (s.stride.q.items 1) = some s' ∨
       (s.stride.q.items 1).isMLFQ = false ∧ ∃ p, (s.stride.q.items 1).proc = some p ∧
        (((s.procs p).state = .runnable ∧ s' = dispatch s c p (.stride (s.stride.q.items 1) p)) ∨
         ((s.procs p).state ≠ .runnable ∧ stridePass s c (s.stride.q.items 1) = some s'))) := by
  unfold strideScheduler at h
  have hn : 0 < s.stride.q.size := by
    by_contra h0
    simp [strideTop, heapTopItem, heapEmpty, show s.stride.q.size = 0 by omega] at h
  rw [strideTop, heapTopItem_eq hn] at h
  simp only at h
  refine ⟨hn, ?_⟩
  by_cases hM : (s.stride.q.items 1).isMLFQ = true
  · exact Or.inl ⟨hM, by simpa [hM] using h⟩
  · have hM' : (s.stride.q.items 1).isMLFQ = false := by simpa using hM
    rw [if_neg hM] at h
    refine Or.inr ⟨hM', ?_⟩
    rcases hP : (s.stride.q.items 1).proc with _ | p
    · simp [hP] at h
    · refine ⟨p, rfl, ?_⟩
      simp only [hP] at h
      by_cases hr : (s.procs p).state = .runnable
      · rw [if_pos hr, Option.some.injEq] at h
        exact Or.inl ⟨hr, h.symm⟩
      · rw [if_neg hr] at h
        exact Or.inr ⟨hr, h⟩

end Xv6
