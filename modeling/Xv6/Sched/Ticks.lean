import Xv6.Sched.System

/-!
# Timer ticks: what one tick charges, and when it forces a yield

`trap` takes a timer tick of the running `p` through
`stride_has_to_yield(p) || (is_mlfq(p) && mlfq_has_to_yield(p))`. Both functions count the
tick in `p->cticks`; only the second counts it in `mlfq_ticks`, and `||` skips it when the
stride counter fires. The charge of one tick therefore depends on the stride counter
(`trapTick_cticks`, `trapTick_mlfqTicks`).

The two elapsed-tick counters are function-local statics shared by every process, reset
lazily once they reach their bound and never at a dispatch. From any state in which `p`
runs, `quantumLeft` is the number of the tick, counted from the next one, on which `trap`
forces `p` to yield: the ticks before it keep `p` running (`ticks_keep_running`) and that
one makes it `RUNNABLE` (`ticks_force_yield`). It is read off the counters, so a dispatch
starts with whatever slice the ticks before it left.
-/

set_option autoImplicit false

namespace Xv6

variable {n : Nat}

/-- A static counter bounded by `m` as both yield checks read it before they count: reset
to 0 once it has reached `m`. -/
def lazyReset (m e : Nat) : Nat := if m ≤ e then 0 else e

/-- The ticks up to and including the one on which `stride_has_to_yield` fires. -/
def strideTicksLeft (s : Sys n) : Nat :=
  strideMaxTicks - lazyReset strideMaxTicks s.strideTicksElapsed

/-- The ticks up to and including the one on which `mlfq_has_to_yield` fires for a process
at level `lev`, if it is called at each of them. -/
def mlfqTicksLeft (s : Sys n) (lev : Nat) : Nat :=
  mlfqMaxTicks lev - lazyReset (mlfqMaxTicks lev) s.mlfqTicksElapsed

/-- The tick, counted from the next one, on which `trap` forces `p` to yield unless it
sleeps or yields before: the first on which a counter fires that `trap` consults for `p`. -/
def quantumLeft (s : Sys n) (p : ProcId) : Nat :=
  if isMlfq (s.procs p) then min (strideTicksLeft s) (mlfqTicksLeft s (s.procs p).lev)
  else strideTicksLeft s

/-! ## The counters -/

theorem lazyReset_lt {m : Nat} (hm : 0 < m) (e : Nat) : lazyReset m e < m := by
  unfold lazyReset; split <;> omega

theorem lazyReset_of_lt {m e : Nat} (h : e < m) : lazyReset m e = e := by
  simp [lazyReset, Nat.not_le.mpr h]

theorem strideMaxTicks_pos : 0 < strideMaxTicks := by decide

theorem mlfqMaxTicks_pos (lev : Nat) : 0 < mlfqMaxTicks lev := by
  unfold mlfqMaxTicks; split <;> decide

theorem strideTicksLeft_pos (s : Sys n) : 0 < strideTicksLeft s := by
  have := lazyReset_lt strideMaxTicks_pos s.strideTicksElapsed
  unfold strideTicksLeft; omega

theorem mlfqTicksLeft_pos (s : Sys n) (lev : Nat) : 0 < mlfqTicksLeft s lev := by
  have := lazyReset_lt (mlfqMaxTicks_pos lev) s.mlfqTicksElapsed
  unfold mlfqTicksLeft; omega

theorem quantumLeft_pos (s : Sys n) (p : ProcId) : 0 < quantumLeft s p := by
  have := strideTicksLeft_pos s
  have := mlfqTicksLeft_pos s (s.procs p).lev
  unfold quantumLeft; split <;> omega

/-- A counter that has not fired has one tick less to go. -/
theorem ticksLeft_succ {m e : Nat} (hm : 0 < m) (h : m - lazyReset m e ≠ 1) :
    m - lazyReset m (lazyReset m e + 1) = m - lazyReset m e - 1 := by
  have := lazyReset_lt hm e
  rw [lazyReset_of_lt (by omega)]; omega

/-! ## The two checks -/

section Checks

variable (s : Sys n) (p : ProcId)

theorem strideHasToYield_fst : (strideHasToYield s p).1 = decide (strideTicksLeft s = 1) := by
  have := lazyReset_lt strideMaxTicks_pos s.strideTicksElapsed
  have h : strideMaxTicks ≤ lazyReset strideMaxTicks s.strideTicksElapsed + 1 ↔
      strideTicksLeft s = 1 := by
    unfold strideTicksLeft; omega
  exact decide_eq_decide.mpr h

@[simp] theorem strideHasToYield_strideTicksElapsed :
    (strideHasToYield s p).2.strideTicksElapsed =
      lazyReset strideMaxTicks s.strideTicksElapsed + 1 := rfl

@[simp] theorem strideHasToYield_mlfqTicksElapsed :
    (strideHasToYield s p).2.mlfqTicksElapsed = s.mlfqTicksElapsed := rfl

@[simp] theorem strideHasToYield_mlfqTicks : (strideHasToYield s p).2.mlfqTicks = s.mlfqTicks :=
  rfl

@[simp] theorem strideHasToYield_cpus : (strideHasToYield s p).2.cpus = s.cpus := rfl

theorem strideHasToYield_procs (q : ProcId) :
    ((strideHasToYield s p).2.procs q).state = (s.procs q).state ∧
    ((strideHasToYield s p).2.procs q).lev = (s.procs q).lev ∧
    ((strideHasToYield s p).2.procs q).cticks = (s.procs q).cticks + if q = p then 1 else 0 := by
  simp only [strideHasToYield]
  by_cases hq : q = p
  · subst hq
    simp only [Sys.modifyProc_procs_self, if_true, apply_ite Proc.state, apply_ite Proc.lev,
      apply_ite Proc.cticks, ite_self, and_self]
  · simp [Sys.modifyProc_procs_of_ne _ _ _ hq, hq]

theorem mlfqHasToYield_fst :
    (mlfqHasToYield s p).1 = decide (mlfqTicksLeft s (s.procs p).lev = 1) := by
  have := lazyReset_lt (mlfqMaxTicks_pos (s.procs p).lev) s.mlfqTicksElapsed
  have h : mlfqMaxTicks (s.procs p).lev ≤
      lazyReset (mlfqMaxTicks (s.procs p).lev) s.mlfqTicksElapsed + 1 ↔
      mlfqTicksLeft s (s.procs p).lev = 1 := by
    unfold mlfqTicksLeft; omega
  exact decide_eq_decide.mpr h

@[simp] theorem mlfqHasToYield_mlfqTicksElapsed :
    (mlfqHasToYield s p).2.mlfqTicksElapsed =
      lazyReset (mlfqMaxTicks (s.procs p).lev) s.mlfqTicksElapsed + 1 := rfl

@[simp] theorem mlfqHasToYield_strideTicksElapsed :
    (mlfqHasToYield s p).2.strideTicksElapsed = s.strideTicksElapsed := rfl

@[simp] theorem mlfqHasToYield_mlfqTicks : (mlfqHasToYield s p).2.mlfqTicks = s.mlfqTicks + 1 :=
  rfl

@[simp] theorem mlfqHasToYield_cpus : (mlfqHasToYield s p).2.cpus = s.cpus := rfl

theorem mlfqHasToYield_procs (q : ProcId) :
    ((mlfqHasToYield s p).2.procs q).state = (s.procs q).state ∧
    ((mlfqHasToYield s p).2.procs q).lev = (s.procs q).lev ∧
    ((mlfqHasToYield s p).2.procs q).cticks = (s.procs q).cticks + if q = p then 1 else 0 := by
  simp only [mlfqHasToYield]
  by_cases hq : q = p
  · subst hq
    simp only [Sys.modifyProc_procs_self, if_true, apply_ite Proc.state, apply_ite Proc.lev,
      apply_ite Proc.cticks, ite_self, and_self]
  · simp [Sys.modifyProc_procs_of_ne _ _ _ hq, hq]

@[simp] theorem yieldProc_strideTicksElapsed :
    (yieldProc s p).strideTicksElapsed = s.strideTicksElapsed := rfl
@[simp] theorem yieldProc_mlfqTicksElapsed :
    (yieldProc s p).mlfqTicksElapsed = s.mlfqTicksElapsed := rfl
@[simp] theorem yieldProc_mlfqTicks : (yieldProc s p).mlfqTicks = s.mlfqTicks := rfl
@[simp] theorem yieldProc_cpus : (yieldProc s p).cpus = s.cpus := rfl

theorem yieldProc_procs (q : ProcId) :
    ((yieldProc s p).procs q).state = (if q = p then .runnable else (s.procs q).state) ∧
    ((yieldProc s p).procs q).lev = (s.procs q).lev ∧
    ((yieldProc s p).procs q).cticks = (s.procs q).cticks := by
  by_cases hq : q = p
  · subst hq; simp [yieldProc]
  · simp [yieldProc, Sys.setState_procs_of_ne _ _ _ hq, hq]

end Checks

/-! ## One tick -/

section Tick

variable (s : Sys n) (p : ProcId)

/-- `trap`'s test, with the results of the two checks read off the counters. -/
theorem trapTick_eq : trapTick s p =
    if strideTicksLeft s = 1 then yieldProc (strideHasToYield s p).2 p
    else if isMlfq (s.procs p) then
      if mlfqTicksLeft s (s.procs p).lev = 1 then
        yieldProc (mlfqHasToYield (strideHasToYield s p).2 p).2 p
      else (mlfqHasToYield (strideHasToYield s p).2 p).2
    else (strideHasToYield s p).2 := by
  have h0 : trapTick s p =
      if (strideHasToYield s p).1 then yieldProc (strideHasToYield s p).2 p
      else if isMlfq ((strideHasToYield s p).2.procs p) then
        if (mlfqHasToYield (strideHasToYield s p).2 p).1 then
          yieldProc (mlfqHasToYield (strideHasToYield s p).2 p).2 p
        else (mlfqHasToYield (strideHasToYield s p).2 p).2
      else (strideHasToYield s p).2 := rfl
  -- the MLFQ check reads the level and the counter that the stride check leaves alone
  have hlev := (strideHasToYield_procs s p p).2.1
  have hmlfq : isMlfq ((strideHasToYield s p).2.procs p) = isMlfq (s.procs p) := by
    simp only [isMlfq, hlev]
  have hm : (mlfqHasToYield (strideHasToYield s p).2 p).1 =
      decide (mlfqTicksLeft s (s.procs p).lev = 1) := by
    rw [mlfqHasToYield_fst, hlev]; rfl
  rw [h0, strideHasToYield_fst, hmlfq, hm]
  simp only [decide_eq_true_eq]

@[simp] theorem trapTick_cpus : (trapTick s p).cpus = s.cpus := by
  rw [trapTick_eq]; split_ifs <;> simp

/-- The stride counter steps at every tick. -/
@[simp] theorem trapTick_strideTicksElapsed :
    (trapTick s p).strideTicksElapsed = lazyReset strideMaxTicks s.strideTicksElapsed + 1 := by
  rw [trapTick_eq]; split_ifs <;> simp

/-- The MLFQ counter steps only at a tick of an MLFQ process on which the stride counter does
not fire. -/
theorem trapTick_mlfqTicksElapsed : (trapTick s p).mlfqTicksElapsed =
    if strideTicksLeft s ≠ 1 ∧ isMlfq (s.procs p) then
      lazyReset (mlfqMaxTicks (s.procs p).lev) s.mlfqTicksElapsed + 1
    else s.mlfqTicksElapsed := by
  have hl := (strideHasToYield_procs s p p).2.1
  rw [trapTick_eq]; split_ifs <;> simp_all

@[simp] theorem trapTick_lev : ((trapTick s p).procs p).lev = (s.procs p).lev := by
  have h1 := (strideHasToYield_procs s p p).2.1
  have h2 := (mlfqHasToYield_procs (strideHasToYield s p).2 p p).2.1
  rw [trapTick_eq]; split_ifs <;> simp [yieldProc_procs, h1, h2]

/-- **The charge of one tick to `cticks`**: two for an MLFQ process on a tick on which the
stride counter does not fire, one otherwise. -/
theorem trapTick_cticks : ((trapTick s p).procs p).cticks =
    (s.procs p).cticks + if strideTicksLeft s ≠ 1 ∧ isMlfq (s.procs p) then 2 else 1 := by
  have h1 := (strideHasToYield_procs s p p).2.2
  have h2 := (mlfqHasToYield_procs (strideHasToYield s p).2 p p).2.2
  simp only [if_true] at h1 h2
  rw [trapTick_eq]
  split_ifs <;> simp_all [yieldProc_procs]

/-- **The charge of one tick to `mlfq_ticks`**: one for an MLFQ process on a tick on which the
stride counter does not fire, none otherwise. -/
theorem trapTick_mlfqTicks : (trapTick s p).mlfqTicks =
    s.mlfqTicks + if strideTicksLeft s ≠ 1 ∧ isMlfq (s.procs p) then 1 else 0 := by
  rw [trapTick_eq]
  split_ifs <;> simp_all

/-- **The state after one tick**: `RUNNABLE` on the tick on which the forced yield falls;
before, `p` stays as it is. -/
theorem trapTick_state : ((trapTick s p).procs p).state =
    if quantumLeft s p = 1 then .runnable else (s.procs p).state := by
  have h1 := (strideHasToYield_procs s p p).1
  have h2 := (mlfqHasToYield_procs (strideHasToYield s p).2 p p).1
  have := strideTicksLeft_pos s
  have := mlfqTicksLeft_pos s (s.procs p).lev
  unfold quantumLeft
  rw [trapTick_eq]
  split_ifs <;> simp_all [yieldProc_procs]
  omega

theorem strideTicksLeft_trapTick (h : strideTicksLeft s ≠ 1) :
    strideTicksLeft (trapTick s p) = strideTicksLeft s - 1 := by
  unfold strideTicksLeft at h ⊢
  rw [trapTick_strideTicksElapsed]
  exact ticksLeft_succ strideMaxTicks_pos h

theorem mlfqTicksLeft_trapTick (h1 : strideTicksLeft s ≠ 1) (hm : isMlfq (s.procs p))
    (h : mlfqTicksLeft s (s.procs p).lev ≠ 1) :
    mlfqTicksLeft (trapTick s p) (s.procs p).lev = mlfqTicksLeft s (s.procs p).lev - 1 := by
  unfold mlfqTicksLeft at h ⊢
  rw [trapTick_mlfqTicksElapsed, if_pos ⟨h1, hm⟩]
  exact ticksLeft_succ (mlfqMaxTicks_pos _) h

/-- A tick before the forced yield brings it one tick nearer. -/
theorem quantumLeft_trapTick (h : 1 < quantumLeft s p) :
    quantumLeft (trapTick s p) p = quantumLeft s p - 1 := by
  have := strideTicksLeft_pos s
  have := mlfqTicksLeft_pos s (s.procs p).lev
  have hm : isMlfq ((trapTick s p).procs p) = isMlfq (s.procs p) := by
    simp only [isMlfq, trapTick_lev]
  unfold quantumLeft at h ⊢
  rw [hm, trapTick_lev]
  have h1 : strideTicksLeft s ≠ 1 := by split at h <;> omega
  rw [strideTicksLeft_trapTick s p h1]
  split
  · -- an MLFQ process: both counters step, and neither fires
    rename_i hmlfq
    have h3 : mlfqTicksLeft s (s.procs p).lev ≠ 1 := by rw [if_pos hmlfq] at h; omega
    rw [mlfqTicksLeft_trapTick s p h1 hmlfq h3]
    omega
  · rfl

end Tick

/-! ## Runs of ticks -/

theorem runningOn_eq_some {s : Sys n} {c : Fin n} {p : ProcId} (h : runningOn s c = some p) :
    ((∃ it, s.cpus c = .stride it p) ∨ ∃ it, s.cpus c = .mlfq it p) ∧
      (s.procs p).state = .running := by
  unfold runningOn at h
  split at h
  · rename_i it q hcq
    split at h
    · cases h; exact ⟨Or.inl ⟨it, hcq⟩, by assumption⟩
    · cases h
  · rename_i it q hcq
    split at h
    · cases h; exact ⟨Or.inr ⟨it, hcq⟩, by assumption⟩
    · cases h
  · cases h

/-- A state that dispatches `p` on `c` and keeps it `RUNNING` runs it there. -/
theorem runningOn_of {s : Sys n} {c : Fin n} {p : ProcId}
    (hc : (∃ it, s.cpus c = .stride it p) ∨ ∃ it, s.cpus c = .mlfq it p)
    (hr : (s.procs p).state = .running) : runningOn s c = some p := by
  rcases hc with ⟨it, hc⟩ | ⟨it, hc⟩ <;> simp [runningOn, hc, hr]

theorem step_tick {s : Sys n} {c : Fin n} {p : ProcId} (h : runningOn s c = some p) :
    step s (.act c .tick) = some (trapTick s p) := by
  simp [step, h, doAct]

/-- **The ticks before the forced yield**: from a state in which `p` runs on `c`, each of the
next `quantumLeft - 1` ticks keeps it running, one tick nearer to the yield. -/
theorem ticks_keep_running {s : Sys n} {c : Fin n} {p : ProcId} (hc : runningOn s c = some p)
    {k : Nat} (hk : k < quantumLeft s p) :
    ∃ t, Reach.run step s (List.replicate k (.act c .tick)) = some t ∧
      runningOn t c = some p ∧ quantumLeft t p = quantumLeft s p - k := by
  -- the invariant of the run: `p` still runs, and `j` ticks of its slice are gone
  refine Reach.run_replicate_of_steps (P := fun j t => runningOn t c = some p ∧
    quantumLeft t p = quantumLeft s p - j) _ ⟨hc, rfl⟩ ?_
  rintro j t hj ⟨ht, hq⟩
  obtain ⟨hd, hr⟩ := runningOn_eq_some ht
  have hr' : ((trapTick t p).procs p).state = .running := by
    rw [trapTick_state, if_neg (by omega), hr]
  refine ⟨trapTick t p, step_tick ht, runningOn_of (by simpa using hd) hr', ?_⟩
  rw [quantumLeft_trapTick t p (by omega)]
  omega

/-- **The forced yield**: the `quantumLeft`-th tick from a state in which `p` runs makes it
`RUNNABLE`, and the CPU no longer runs it. -/
theorem ticks_force_yield {s : Sys n} {c : Fin n} {p : ProcId} (hc : runningOn s c = some p) :
    ∃ t, Reach.run step s (List.replicate (quantumLeft s p) (.act c .tick)) = some t ∧
      (t.procs p).state = .runnable ∧ runningOn t c = none := by
  have hpos := quantumLeft_pos s p
  obtain ⟨t, ht, htc, htq⟩ := ticks_keep_running hc (k := quantumLeft s p - 1) (by omega)
  have hy : ((trapTick t p).procs p).state = .runnable := by
    rw [trapTick_state, if_pos (by omega)]
  refine ⟨trapTick t p, ?_, hy, ?_⟩
  · rw [show quantumLeft s p = quantumLeft s p - 1 + 1 by omega, List.replicate_succ',
      Reach.run_append, ht, Option.bind_some, Reach.run_cons, step_tick htc]
    rfl
  · obtain ⟨hd, -⟩ := runningOn_eq_some htc
    unfold runningOn
    rcases hd with ⟨it, hd⟩ | ⟨it, hd⟩ <;> simp [hd, hy]

/-! ## The first runs of `initproc`

On one CPU, `initproc` at level 0 runs from boot, taking only timer ticks. Its first dispatch
ends at the fifth tick, on which the stride counter fires; by then `cticks` is 9 and
`mlfq_ticks` is 4. The MLFQ counter stands at 4, so the second dispatch yields at its first
tick. Level 0 allots `MLFQ_TIME_ALLOTS[0] = 20` ticks, yet `initproc` is demoted after 12. -/

/-- **The second dispatch of `initproc` is forced to yield at its first tick**, although it
is an MLFQ process at level 0, whose slice `min(STRIDE_MAX_TICKS, MLFQ_MAX_TICKS[0])` is 5. -/
theorem second_dispatch_yields_at_first_tick :
    ∃ s t : Sys 1, Reach.run step (Sys.boot 1)
        ([.userinit, .init 0, .round 0] ++ List.replicate 5 (.act 0 .tick) ++
          [.resume 0, .round 0]) = some s ∧
      runningOn s 0 = some 0 ∧ (s.procs 0).lev = 0 ∧ min strideMaxTicks (mlfqMaxTicks 0) = 5 ∧
      quantumLeft s 0 = 1 ∧
      Reach.run step s [.act 0 .tick] = some t ∧ (t.procs 0).state = .runnable := by
  obtain ⟨s, hs, hv⟩ := Option.map_eq_some_iff.mp
    (show (Reach.run step (Sys.boot 1)
        ([.userinit, .init 0, .round 0] ++ List.replicate 5 (.act 0 .tick) ++
          [.resume 0, .round 0])).map
        (fun s => (runningOn s 0, (s.procs 0).lev, quantumLeft s 0)) =
        some (some 0, 0, 1) by rfl)
  simp only [Prod.mk.injEq] at hv
  obtain ⟨hr, hl, hq⟩ := hv
  -- the tick is the one `ticks_force_yield` gives: the slice has one tick left
  obtain ⟨t, ht, hy, -⟩ := ticks_force_yield hr
  rw [hq] at ht
  exact ⟨s, t, hs, hr, hl, by decide, hq, ht, hy⟩

/-- **`initproc` leaves level 0 after 12 timer ticks**, with `MLFQ_TIME_ALLOTS[0] = 20`:
its ticks were charged 22 to `cticks`, and 10 to `mlfq_ticks`. -/
theorem mlfq_demoted_after_twelve_ticks :
    let es : List (Event 1) :=
      [.userinit, .init 0, .round 0] ++ List.replicate 5 (.act 0 .tick) ++
        [.resume 0, .round 0, .act 0 .tick, .resume 0] ++ List.replicate 4 (.act 0 .tick) ++
        [.resume 0, .round 0] ++ List.replicate 2 (.act 0 .tick) ++ [.resume 0]
    ∃ s : Sys 1, Reach.run step (Sys.boot 1) es = some s ∧ es.count (.act 0 .tick) = 12 ∧
      mlfqTimeAllots 0 = 20 ∧ (s.procs 0).lev = 1 ∧ s.mlfqTicks = 10 := by
  intro es
  obtain ⟨s, hs, hv⟩ := Option.map_eq_some_iff.mp
    (show (Reach.run step (Sys.boot 1) es).map (fun s => ((s.procs 0).lev, s.mlfqTicks)) =
      some (1, 10) by rfl)
  simp only [Prod.mk.injEq] at hv
  exact ⟨s, hs, by decide, by decide, hv.1, hv.2⟩

end Xv6
