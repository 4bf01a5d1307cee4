import Xv6.Sched.MlfqSpec
import Xv6.Sched.Round
import Xv6.Sched.InvRun
import Xv6.Lib.Rotate

/-!
# The MLFQ scan is a rotating FIFO scan

The scan at the top of `mlfq_scheduler` pops the front of each queue, stops at a `RUNNABLE`
process and pushes any other back with `mlfq_push`. Over the lists the queues hold this is
`Rotate.select` (`Xv6/Lib/Rotate.lean`), with `p->state == RUNNABLE` as the test. The
refinement `mlfqScan_eq_select` is proved one level at a time (`scanLevel_eq_scan`), from
the spec lemmas of `mlfq_pop` and `mlfq_push`. It needs only that each queue holds distinct
processes of its own level, which the membership invariant `QueuesOk` gives. The closed forms
of the library then say which process the scan dispatches and where every other process ends
up (`mlfq_selection`).
-/

set_option autoImplicit false

namespace Xv6

variable {n : Nat}

/-- `p->state == RUNNABLE`, the test of the scan. -/
def isRunnable (s : Sys n) (p : ProcId) : Bool := decide ((s.procs p).state = .runnable)

theorem isRunnable_eq_false {s : Sys n} {p : ProcId} (h : (s.procs p).state ≠ .runnable) :
    isRunnable s p = false := by
  simp [isRunnable, h]

theorem Sys.setQueue_setQueue (s : Sys n) (lev : Fin nmlfq) (q q' : ProcQueue) :
    (s.setQueue lev q).setQueue lev q' = s.setQueue lev q' := by
  simp [Sys.setQueue, Function.update_idem]

theorem Sys.setQueue_self (s : Sys n) (lev : Fin nmlfq) : s.setQueue lev (s.mlfq lev) = s := by
  simp [Sys.setQueue]

/-- A queue holds one list only. -/
theorem ProcQueue.Holds.unique {q : ProcQueue} {L L' : List ProcId} (h : q.Holds L)
    (h' : q.Holds L') : L = L' :=
  List.map_injective_iff.mpr (Option.some_injective _) (h.2.2.symm.trans h'.2.2)

/-! ## One level -/

/-- Queue `lev` holds `L`, distinct processes of level `lev`: what a scan of the level needs. -/
def LevelHolds (s : Sys n) (lev : Fin nmlfq) (L : List ProcId) : Prop :=
  (s.mlfq lev).Holds L ∧ L.Nodup ∧ ∀ q ∈ L, (s.procs q).lev = lev.val

/-- Another list with the same processes, held by the queue, is as good. -/
theorem LevelHolds.of_perm {s : Sys n} {lev : Fin nmlfq} {L L' : List ProcId} {q : ProcQueue}
    (h : LevelHolds s lev L) (hp : L'.Perm L) (hq : q.Holds L') :
    LevelHolds (s.setQueue lev q) lev L' :=
  ⟨by simpa using hq, hp.nodup_iff.mpr h.2.1, fun x hx => h.2.2 x (hp.mem_iff.mp hx)⟩

/-- **The scan of one level is the rotating scan of its list**, for as many turns as the
level is long. Only the queue of the level changes. -/
theorem scanLevel_eq_scan (lev : Fin nmlfq) : ∀ (k : Nat) (s : Sys n) (L : List ProcId),
    LevelHolds s lev L → k ≤ L.length →
    ∃ q, scanLevel s lev k = some (s.setQueue lev q, (Rotate.scan (isRunnable s) k L).1) ∧
      q.Holds (Rotate.scan (isRunnable s) k L).2
  | 0, s, L, h, _ => ⟨s.mlfq lev, by rw [Sys.setQueue_self]; rfl, h.1⟩
  | k + 1, s, [], _, hk => absurd hk (by simp)
  | k + 1, s, x :: L, h, hk => by
    obtain ⟨q₁, hpop, hq₁⟩ := mlfqPop_holds h.1
    by_cases hx : (s.procs x).state = .runnable
    · -- the front is `RUNNABLE`: the scan stops at it
      have hrun : isRunnable s x = true := by simp [isRunnable, hx]
      refine ⟨q₁, ?_, ?_⟩
      · have hx₁ : ((s.setQueue lev q₁).procs x).state = .runnable := hx
        simp only [scanLevel, hpop, Rotate.scan, hrun, if_true]
        rw [if_pos hx₁]
      · simpa only [Rotate.scan, hrun, if_true] using hq₁
    · -- the front goes back to the rear of its own level
      have hnd := h.2.1
      obtain ⟨q₂, hpush, hq₂⟩ := mlfqPush_holds (s := s.setQueue lev q₁) (p := x)
        (h.2.2 x List.mem_cons_self) (by simpa using hq₁) (List.nodup_cons.mp hnd).1
        (room_of_nodup hnd)
      have hrest : LevelHolds (s.setQueue lev q₂) lev (L ++ [x]) :=
        h.of_perm (List.perm_append_singleton x L) hq₂
      obtain ⟨q₃, hscan, hq₃⟩ := scanLevel_eq_scan lev k _ _ hrest (by simp at hk ⊢; omega)
      have hstep : Rotate.scan (isRunnable s) (k + 1) (x :: L) =
          Rotate.scan (isRunnable s) k (L ++ [x]) := by
        simp only [Rotate.scan, isRunnable_eq_false hx, Bool.false_eq_true, if_false]
      refine ⟨q₃, ?_, by rw [hstep]; exact hq₃⟩
      have hx₁ : ¬ ((s.setQueue lev q₁).procs x).state = .runnable := hx
      simp only [scanLevel, hpop]
      rw [if_neg hx₁, hpush, Sys.setQueue_setQueue, hscan, Sys.setQueue_setQueue, hstep]
      rfl

/-! ## All levels -/

/-- The lists the queues hold, each as `LevelHolds` says. -/
def QueuesHold (s : Sys n) (Q : Fin nmlfq → List ProcId) : Prop := ∀ lev, LevelHolds s lev (Q lev)

/-- Under the membership invariant every queue holds distinct processes of its level. -/
theorem QueuesOk.queuesHold {s : Sys n} {E : ProcId → Prop} (hq : QueuesOk s E)
    {Q : Fin nmlfq → List ProcId} (hQ : ∀ lev, (s.mlfq lev).Holds (Q lev)) : QueuesHold s Q := by
  intro lev
  obtain ⟨L, hh, hnd, hmem⟩ := hq lev
  obtain rfl := hh.unique (hQ lev)
  exact ⟨hh, hnd, fun q hq => ((hmem q).mp hq).2.2⟩

/-- **The scan over levels is `Rotate.select`.** -/
theorem scanLevels_eq_select : ∀ (levs : List (Fin nmlfq)) (s : Sys n) (Q : Fin nmlfq → List ProcId),
    QueuesHold s Q →
    ∃ s', scanLevels s levs = some (s', (Rotate.select (isRunnable s) levs Q).1) ∧
      s' = { s with mlfq := s'.mlfq } ∧
      ∀ lev, (s'.mlfq lev).Holds ((Rotate.select (isRunnable s) levs Q).2 lev)
  | [], s, Q, h => ⟨s, rfl, rfl, fun lev => (h lev).1⟩
  | lev :: levs, s, Q, h => by
    have hsize : queueSize (s.mlfq lev) = (Q lev).length := (h lev).1.size
    obtain ⟨q, hscan, hq⟩ := scanLevel_eq_scan lev _ s (Q lev) (h lev) le_rfl
    have hperm := @Rotate.perm_scan _ (isRunnable s) (Q lev).length (Q lev)
    simp only [scanLevels, Rotate.select, hsize, hscan]
    rcases hr : Rotate.scan (isRunnable s) (Q lev).length (Q lev) with ⟨_ | p, L⟩
    · -- nothing on this level: on to the next, with this level rotated back to where it was
      rw [hr] at hq hperm
      have h' : QueuesHold (s.setQueue lev q) (Function.update Q lev L) := by
        intro lev'
        by_cases hl : lev' = lev
        · subst hl
          rw [Function.update_self]
          exact (h lev').of_perm (by simpa using hperm) hq
        · rw [Function.update_of_ne hl]
          refine ⟨by simpa [Function.update_of_ne hl] using (h lev').1, (h lev').2.1, (h lev').2.2⟩
      obtain ⟨s', h1, h2, h3⟩ := scanLevels_eq_select levs _ _ h'
      exact ⟨s', h1, by rw [h2]; rfl, h3⟩
    · -- found on this level
      rw [hr] at hq
      refine ⟨s.setQueue lev q, rfl, rfl, fun lev' => ?_⟩
      by_cases hl : lev' = lev
      · subst hl
        simpa using hq
      · simpa [Function.update_of_ne hl] using (h lev').1

theorem mlfqScan_eq_select {s : Sys n} {Q : Fin nmlfq → List ProcId} (h : QueuesHold s Q) :
    ∃ s', mlfqScan s = some (s', (Rotate.select (isRunnable s) (List.finRange nmlfq) Q).1) ∧
      s' = { s with mlfq := s'.mlfq } ∧
      ∀ lev, (s'.mlfq lev).Holds ((Rotate.select (isRunnable s) (List.finRange nmlfq) Q).2 lev) :=
  scanLevels_eq_select _ s Q h

/-- The levels before `lev` in the order of the scan are the lower ones. -/
theorem finRange_split (lev : Fin nmlfq) :
    ∃ pre post, List.finRange nmlfq = pre ++ lev :: post ∧ ∀ l ∈ pre, l < lev := by
  obtain ⟨pre, post, h⟩ := List.append_of_mem (List.mem_finRange lev)
  have hsorted := List.pairwise_lt_finRange nmlfq
  rw [h, List.pairwise_append] at hsorted
  exact ⟨pre, post, h, fun l hl => hsorted.2.2 l hl lev List.mem_cons_self⟩

/-! ## Which process the scan dispatches -/

section Selection

variable {s : Sys n} {E : ProcId → Prop} {Q : Fin nmlfq → List ProcId}

theorem mlfq_selection (hq : QueuesOk s E) (hQ : ∀ lev, (s.mlfq lev).Holds (Q lev)) (c : Fin n)
    (item : StrideItem) :
    (∀ lev A p B, Q lev = A ++ p :: B → (∀ a ∈ A, (s.procs a).state ≠ .runnable) →
        (s.procs p).state = .runnable → (∀ l < lev, ∀ x ∈ Q l, (s.procs x).state ≠ .runnable) →
        ∃ s', mlfqScan s = some (s', some p) ∧
          mlfqScheduler s c item = some (dispatch s' c p (.mlfq item p)) ∧
          s' = { s with mlfq := s'.mlfq } ∧ (s'.mlfq lev).Holds (B ++ A) ∧
          ∀ l, l ≠ lev → (s'.mlfq l).Holds (Q l)) ∧
    ((∀ lev, ∀ x ∈ Q lev, (s.procs x).state ≠ .runnable) ↔
      ∃ s', mlfqScan s = some (s', none) ∧ mlfqScheduler s c item = stridePass s' c item ∧
        s' = { s with mlfq := s'.mlfq } ∧ ∀ lev, (s'.mlfq lev).Holds (Q lev)) := by
  obtain ⟨s', hscan, hframe, hholds⟩ := mlfqScan_eq_select (hq.queuesHold hQ)
  refine ⟨?_, ⟨?_, ?_⟩⟩
  · -- a `RUNNABLE` process on level `lev`, none on the levels before it
    intro lev A p B hlev hA hp hlow
    obtain ⟨pre, post, hsplit, hpre⟩ := finRange_split lev
    have hsel : Rotate.select (isRunnable s) (List.finRange nmlfq) Q =
        (some p, Function.update Q lev (B ++ A)) := by
      rw [hsplit]
      exact Rotate.select_found (fun j hj x hx => isRunnable_eq_false (hlow j (hpre j hj) x hx))
        hlev (fun a ha => isRunnable_eq_false (hA a ha)) (by simp [isRunnable, hp])
    rw [hsel] at hscan hholds
    refine ⟨s', hscan, by simp only [mlfqScheduler, hscan], hframe, by simpa using hholds lev,
      fun l hl => by simpa [Function.update_of_ne hl] using hholds l⟩
  · -- nobody `RUNNABLE`: every queue makes a whole turn
    intro hnone
    rw [Rotate.select_none fun lev _ x hx => isRunnable_eq_false (hnone lev x hx)] at hscan hholds
    exact ⟨s', hscan, by simp only [mlfqScheduler, hscan], hframe, hholds⟩
  · -- a `RUNNABLE` process anywhere makes the selection find one
    rintro ⟨s'', hnone, -⟩ lev x hx hrun
    have hsome : (Rotate.select (isRunnable s) (List.finRange nmlfq) Q).1.isSome :=
      Rotate.select_isSome ⟨lev, List.mem_finRange lev, x, hx, by simp [isRunnable, hrun]⟩
    rw [hscan, Option.some.injEq, Prod.mk.injEq] at hnone
    rw [hnone.2] at hsome
    exact absurd hsome (by simp)

end Selection

/-- `initproc` forks a child and sleeps; the round goes on to the child, which forks a child of
its own and sleeps too. `mlfq[0]` then holds `initproc`, asleep, ahead of the grandchild, which
is `RUNNABLE`: the scan passes over `initproc`, dispatches the grandchild, and leaves `initproc`
alone in the queue. -/
theorem mlfq_selection_skips_sleeper :
    ∃ s : Sys 1, Reach.run step (Sys.boot 1) [.userinit, .init 0, .round 0, .act 0 .forkAlloc,
        .act 0 .forkPush, .act 0 .forkDone, .act 0 .sleep, .resume 0, .act 0 .forkAlloc,
        .act 0 .forkPush, .act 0 .forkDone, .act 0 .sleep] = some s ∧
      QueuesOk s (MlfqRunning s) ∧ (∀ lev, (s.mlfq lev).Holds (if lev = 0 then [0, 2] else [])) ∧
      (s.procs 0).state = .sleeping ∧ (s.procs 2).state = .runnable ∧
      ∃ s', mlfqScan s = some (s', some 2) ∧
        mlfqScheduler s 0 (strideItemInit strideInit strideMlfqShare none true) =
          some (dispatch s' 0 2 (.mlfq (strideItemInit strideInit strideMlfqShare none true) 2)) ∧
        (s'.mlfq 0).Holds [0] ∧ ∀ l, l ≠ 0 → (s'.mlfq l).Holds [] := by
  obtain ⟨s, hs⟩ := Option.isSome_iff_exists.mp
    (show (Reach.run step (Sys.boot 1) [.userinit, .init 0, .round 0, .act 0 .forkAlloc,
        .act 0 .forkPush, .act 0 .forkDone, .act 0 .sleep, .resume 0, .act 0 .forkAlloc,
        .act 0 .forkPush, .act 0 .forkDone, .act 0 .sleep]).isSome by rfl)
  -- what the run leaves in the three queues and the states of the two queued processes
  have hv : ((s.mlfq 0).elems, (s.mlfq 1).elems, (s.mlfq 2).elems, (s.procs 0).state, (s.procs 2).state) =
      ([some 0, some 2], [], [], .sleeping, .runnable) := by
    have h : (Reach.run step (Sys.boot 1) [.userinit, .init 0, .round 0, .act 0 .forkAlloc,
        .act 0 .forkPush, .act 0 .forkDone, .act 0 .sleep, .resume 0, .act 0 .forkAlloc,
        .act 0 .forkPush, .act 0 .forkDone, .act 0 .sleep]).map (fun s => ((s.mlfq 0).elems,
        (s.mlfq 1).elems, (s.mlfq 2).elems, (s.procs 0).state, (s.procs 2).state)) =
        some ([some 0, some 2], [], [], .sleeping, .runnable) := by rfl
    rw [hs] at h
    exact Option.some.inj h
  simp only [Prod.mk.injEq] at hv
  obtain ⟨h0, h1, h2, hsleep, hrun⟩ := hv
  have hr : Reachable 1 (fun _ _ => True) s := Reach.Reachable.init.run (fun _ _ => trivial) hs
  have hi := inv_reachable hr
  -- the invariant's list for each queue is the one the run left there
  have hQ : ∀ lev, (s.mlfq lev).Holds (if lev = 0 then [0, 2] else []) := by
    intro lev
    obtain ⟨L, hh, -, -⟩ := hi.queues lev
    have hel : (s.mlfq lev).elems = (if lev = 0 then [0, 2] else []).map some := by
      fin_cases lev
      · exact h0
      · exact h1
      · exact h2
    rw [← List.map_injective_iff.mpr (Option.some_injective _) (hh.2.2.symm.trans hel)]
    exact hh
  obtain ⟨hsel, -⟩ := mlfq_selection hi.queues hQ 0 (strideItemInit strideInit strideMlfqShare none true)
  obtain ⟨s', hscan, hsched, -, hl0, hl⟩ := hsel 0 [0] 2 [] rfl (by simp [hsleep]) hrun
    (fun l hl => absurd hl (by simp))
  exact ⟨s, hs, hi.queues, hQ, hsleep, hrun, s', hscan, hsched, by simpa using hl0,
    fun l hne => by simpa [if_neg hne] using hl l hne⟩

end Xv6
