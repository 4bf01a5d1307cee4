import Xv6.Sched.InvRun

/-!
# Idle rounds, and the wrap of the MLFQ item's pass

With no stride process in the heap and nobody `RUNNABLE`, a round takes the MLFQ item, finds
no process in the MLFQ scan, and charges the item `all_share / 22 = 22 / 22`, which
`frac_init` reduces to `1 / 1`. Such rounds spin without a timer tick. The pass and
`max_pass` then count the rounds in the numerator of a `uint` fraction, and after `2^32 - 1`
rounds `frac_add` computes `(2^32 - 1) + 1`, which wraps: the pass is back at `0 / 1`.
-/

set_option autoImplicit false

namespace Xv6

/-- The MLFQ item at the whole pass `k`. -/
def mlfqItemAt (k : UInt32) : StrideItem := ⟨⟨k, 1⟩, true, strideMlfqShare, none⟩

/-- A one-CPU kernel between rounds whose heap holds the MLFQ item alone, at pass and
`max_pass` `k / 1`, and in which no process can be dispatched. -/
structure Idle (s : Sys 1) (k : UInt32) : Prop where
  cpu : s.cpus 0 = .idle
  heap : s.stride.q.contents = {mlfqItemAt k}
  maxPass : s.stride.maxPass = ⟨k, 1⟩
  asleep : ∀ q, (s.procs q).state ≠ .runnable

/-- With the MLFQ item popped, `all_share` is 0, and the stride is `22 / 22 = 1 / 1`. -/
theorem chargeItem_mlfqItemAt (sq : StrideQueue) (h : sq.allShare = 0) (k : UInt32) :
    chargeItem sq (mlfqItemAt k) = some (mlfqItemAt (k + 1)) := by
  have hst : strideOf sq (mlfqItemAt k) = some ⟨1, 1⟩ := by
    rw [strideOf, h]
    show fracInit (UInt32.ofInt (0 + strideMlfqShare)) (UInt32.ofInt strideMlfqShare) = _
    decide
  rw [chargeItem, hst, Option.bind_some]
  simp [mlfqItemAt, fracAdd_one_one]

/-- **An idle round** charges the MLFQ item `1 / 1`; the process table, `initproc` and the
CPU are as before. -/
theorem Idle.round {ok : Sys 1 → Sys 1 → Prop} {s : Sys 1} {k : UInt32} (hr : Reachable 1 ok s)
    (h : Idle s k) :
    ∃ s', step s (.round 0) = some s' ∧ s'.procs = s.procs ∧ s'.initproc = s.initproc ∧
      s'.cpus 0 = .idle ∧ s'.stride.q.contents = {mlfqItemAt (k + 1)} ∧
      updateMaxPass ⟨k, 1⟩ ⟨k + 1, 1⟩ = some s'.stride.maxPass := by
  have hi := inv_reachable hr
  obtain ⟨hsize, htop⟩ := StrideHeap.eq_singleton h.heap
  have hall : s.stride.allShare = strideMlfqShare := by
    rw [hi.stride.sum, h.heap]; rfl
  -- the scan finds nobody to run and only rotates the queues
  have hq : QueuesOk s fun _ => False :=
    hi.queues.of_nobody fun _ => not_mlfqRunning_of (Or.inl h.cpu)
  obtain ⟨s1, hscan, hframe1, -⟩ := mlfqScan_none hq h.asleep
  have hst1 : s1.stride = s.stride := by rw [hframe1]
  have hround : step s (.round 0) = stridePass s1 0 (mlfqItemAt k) := by
    simp only [Xv6.step, h.cpu, if_true, strideScheduler, strideTop,
      heapTopItem_eq (show 0 < s.stride.q.size by omega), htop]
    simp [mlfqItemAt, mlfqScheduler, hscan]
  have hn1 : 0 < s1.stride.q.size := by rw [hst1]; omega
  have hle1 : s1.stride.q.size ≤ nproc := by rw [hst1, hsize]; decide
  have hM : (mlfqItemAt k).pass.SmallTwos := by
    show ¬ 2 ^ 7 ∣ (1 : UInt32).toNat; decide
  have hmax0 : s1.stride.maxPass.SmallTwos := by
    rw [hst1, h.maxPass]; exact hM
  have h22 : (mlfqItemAt k).share = 22 := rfl
  have h0 : 0 < (mlfqItemAt k).share := by rw [h22]; decide
  have h1 : (mlfqItemAt k).share < 2 ^ 7 := by rw [h22]; decide
  obtain ⟨s', hs'⟩ := Option.isSome_iff_exists.mp
    (stridePass_isSome (c := 0) hn1 hle1 hM hmax0 h0 h1 (Or.inl rfl))
  obtain ⟨C, pass, hCR, hch, hmax, hframe, hcont, -⟩ :=
    stridePass_contents hn1 hle1 hM hmax0 h0 h1 (Or.inl rfl) hs'
  -- nothing else was in the heap, and the charge moved the pass one up
  have hC : C = 0 := by
    rw [hst1, h.heap, htop] at hCR
    exact ((Multiset.singleton_eq_cons_iff _).mp hCR.symm).2
  have hpass : { mlfqItemAt k with pass } = mlfqItemAt (k + 1) := by
    rw [chargeItem_mlfqItemAt _ (by rw [hst1, hall, htop]; rfl)] at hch
    exact (Option.some.inj hch).symm
  refine ⟨s', hround.trans hs', by rw [hframe, hframe1], by rw [hframe, hframe1], ?_, ?_, ?_⟩
  · rw [hframe]; simp
  · rw [hcont, hC, hpass, Multiset.cons_zero]
  · have : pass = ⟨k + 1, 1⟩ := congrArg StrideItem.pass hpass
    rw [hst1, h.maxPass, this] at hmax
    exact hmax

/-- Below the largest `uint`, an idle round moves the pass and `max_pass` one up. -/
theorem Idle.succ {ok : Sys 1 → Sys 1 → Prop} {s : Sys 1} {k : UInt32} (hr : Reachable 1 ok s)
    (h : Idle s k) (hk : k.toNat < 2 ^ 32 - 1) :
    ∃ s', step s (.round 0) = some s' ∧ s'.procs = s.procs ∧ s'.initproc = s.initproc ∧
      Idle s' (k + 1) := by
  obtain ⟨s', he, hp, hinit, hc, hcont, hmax⟩ := h.round hr
  have hlt : k < k + 1 := by
    rw [UInt32.lt_iff_toNat_lt, UInt32.toNat_add, UInt32.toNat_one]; omega
  simp only [updateMaxPass, fracIsLessThan_one, decide_eq_true hlt, if_true, fracInit_one,
    Option.some.injEq] at hmax
  refine ⟨s', he, hp, hinit, hc, hcont, hmax.symm, fun q => ?_⟩
  rw [hp]; exact h.asleep q

/-- `initproc` runs from the MLFQ item and goes to sleep, and the kernel idles. After
`2^32 - 1` rounds the MLFQ item's pass is `(2^32 - 1) / 1`; the next round charges it
`1 / 1`, a sum `frac_add` computes past `2^32`, and its pass is `0 / 1`. -/
theorem pass_wraps :
    ∃ s s' : Sys 1, Reachable 1 (fun _ _ => True) s ∧ s.initproc = some 0 ∧
      (s.procs 0).state = .sleeping ∧ step s (.round 0) = some s' ∧
      s.stride.q.contents = {⟨⟨4294967295, 1⟩, true, strideMlfqShare, none⟩} ∧
      ¬ AddFits ⟨4294967295, 1⟩ ⟨1, 1⟩ ∧
      s'.stride.q.contents = {⟨⟨0, 1⟩, true, strideMlfqShare, none⟩} := by
  -- the first round dispatches `initproc`, which sleeps; the round ends at pass 1
  obtain ⟨s0, hs0, hv⟩ := Option.map_eq_some_iff.mp
    (show (Reach.run step (Sys.boot 1) [.userinit, .init 0, .round 0, .act 0 .sleep,
        .resume 0]).map (fun s => (s.initproc, decide ((s.procs 0).state = .sleeping),
          decide (s.cpus 0 = .idle), decide (s.stride.q.contents = {mlfqItemAt 1}),
          decide (s.stride.maxPass = ⟨1, 1⟩), decide (∀ q, (s.procs q).state ≠ .runnable))) =
        some (some 0, true, true, true, true, true) by rfl)
  simp only [Prod.mk.injEq, decide_eq_true_eq] at hv
  obtain ⟨hinit0, hsl0, hc0, hh0, hm0, ha0⟩ := hv
  -- then `2^32 - 2` idle rounds, each one up
  obtain ⟨s, hr, hinit, hsl, hidle⟩ := Reach.Reachable.exists_of_steps
    (P := fun k s => s.initproc = some 0 ∧ (s.procs 0).state = .sleeping ∧
      Idle s (UInt32.ofNat (k + 1)))
    (.round 0) (N := 2 ^ 32 - 2)
    ⟨s0, Reach.Reachable.init.run (fun _ _ => trivial) hs0, hinit0, hsl0, hc0, hh0, hm0, ha0⟩
    (fun k s hk hr ⟨hi, hs, hI⟩ => by
      obtain ⟨s', he, hp, hinit', hI'⟩ := hI.succ hr (by simp; omega)
      refine ⟨s', he, trivial, by rw [hinit']; exact hi, by rw [hp]; exact hs, ?_⟩
      rwa [UInt32.ofNat_add (k + 1) 1])
  -- the last one wraps
  obtain ⟨s', he, -, -, -, hcont, -⟩ := hidle.round hr
  exact ⟨s, s', hr, hinit, hsl, he, hidle.heap, fun hfit => absurd hfit.sum_lt (by decide),
    hcont⟩

end Xv6
