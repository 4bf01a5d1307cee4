import Xv6.Sched.InvRound

/-!
# Every reachable state of a one-CPU kernel satisfies the invariant

The zero-filled boot state satisfies `Inv`, `scheduler()`'s prologue sets up a stride
queue holding the MLFQ item alone, and `Inv.step` collects the event lemmas of the
last four modules; `inv_reachable` is the induction over runs. The MLFQ membership
invariant is then read off `Inv.queues`.
-/

set_option autoImplicit false

namespace Xv6

variable {s : Sys 1}

/-! ## Boot and `scheduler()`'s prologue -/

theorem ProcInv.boot : ProcInv (Sys.boot 1) where
  lev q := Or.inl (by simp [Sys.boot, Proc.unused, nmlfq])
  running q hq := by simp [Sys.boot, Proc.unused] at hq
  dispatched q hq := by
    rcases hq with hq | hq
    · exact absurd hq (not_strideRunning_of (Or.inr (Or.inl rfl)))
    · exact absurd hq (not_mlfqRunning_of (Or.inr (Or.inl rfl)))
  strideLev q hq := absurd hq (not_strideRunning_of (Or.inr (Or.inl rfl)))
  mlfqLev q hq := absurd hq (not_mlfqRunning_of (Or.inr (Or.inl rfl)))
  child p q hq := by cases hq
  pushedLev p q hq := by cases hq
  childInj p p' q hq := by cases hq

theorem StrideInv.boot : StrideInv (Sys.boot 1) where
  size_le := by decide
  slot0 := rfl
  good x hx := by cases hx
  owned x hx := by cases hx
  atMostOne q := by simp [StrideHeap.contents, Sys.boot]
  sum := rfl
  maxPass hb := absurd rfl hb
  strideTop item q hq := by cases hq
  mlfqTop item q hq := by cases hq

theorem Inv.boot : Inv (Sys.boot 1) :=
  ⟨ProcInv.boot, fun _ => ⟨[], ProcQueue.empty_holds, List.nodup_nil, fun q => by
    simp [Queued, Sys.boot, Proc.unused]⟩, rfl, rfl, StrideInv.boot⟩

/-- `scheduler()`'s prologue leaves the MLFQ item alone in the stride queue, at pass `0 / 1`. -/
theorem schedulerInit_stride (s : Sys 1) :
    ∃ q, (schedulerInit s 0).stride = ⟨strideMlfqShare, fracZero, q⟩ ∧ q.size = 1 ∧
      q.contents = {⟨fracZero, true, strideMlfqShare, none⟩} ∧ (q.items 0).proc = none := by
  obtain ⟨q, hq, hsize, hcont, hslot⟩ :=
    heapPushItem_contents (h := heapInit fracZero) ⟨fracZero, true, strideMlfqShare, none⟩
      (by decide)
  refine ⟨q, by simp [schedulerInit, stridePush, strideInit, strideItemInit, hq], ?_, ?_, ?_⟩
  · rw [hsize]; rfl
  · rw [hcont]; rfl
  · rw [hslot]; rfl

/-- **`scheduler()`'s prologue** on the boot processor: the queue holds the MLFQ item
alone, at pass 0 with `all_share` 22. -/
theorem Inv.init (h : Inv s) (hb : s.cpus 0 = .boot) : Inv (schedulerInit s 0) := by
  obtain ⟨q, hst, hsize, hcont, hslot⟩ := schedulerInit_stride s
  have hcpu : (schedulerInit s 0).cpus 0 = .idle := by simp [schedulerInit]
  have hM : (⟨fracZero, true, strideMlfqShare, none⟩ : StrideItem).Good :=
    ⟨by decide, by decide, by unfold Frac.SmallTwos; decide, fun _ => rfl⟩
  refine ⟨h.procs.idle (h.procs.not_running (Or.inr hb)) rfl rfl hcpu, ?_, h.badLev,
    h.pushFull, ?_⟩
  · exact (h.queues.of_nobody fun x => not_mlfqRunning_of (Or.inr (Or.inl hb))).of_procs rfl
      (fun x => iff_false_intro (not_mlfqRunning_of (Or.inl hcpu))) fun _ _ => ⟨Iff.rfl, rfl⟩
  · refine ⟨by rw [hst, hsize]; decide, by rw [hst]; exact hslot, ?_, ?_, fun q' => ?_, ?_,
      fun _ => ?_, fun item p hp => ?_, fun item p hp => ?_⟩
    · rw [hst, hcont]; intro x hx; rw [Multiset.mem_singleton.mp hx]; exact hM
    · rw [hst, hcont]; intro x hx; rw [Multiset.mem_singleton.mp hx]; exact Or.inl ⟨rfl, rfl⟩
    · rw [hst, hcont]
      exact (Multiset.countP_le_card _ _).trans (by simp)
    · rw [hst, hcont]; simp
    · rw [hst]; show fracZero.SmallTwos; unfold Frac.SmallTwos; decide
    · rw [hcpu] at hp; cases hp
    · rw [hcpu] at hp; cases hp

/-! ## One step, and whole runs -/

/-- The calls of the running process. -/
theorem Inv.act {p : ProcId} {a : Act} {s' : Sys 1} (h : Inv s) (hp : runningOn s 0 = some p)
    (he : doAct s p a = some s') : Inv s' := by
  cases a with
  | setCpuShare share => exact h.setCpuShare hp (doAct_setCpuShare he).2
  | forkAlloc =>
    obtain ⟨hf, ⟨-, rfl⟩ | ⟨np, s₁, hal, rfl⟩⟩ := doAct_forkAlloc he
    · exact h
    · obtain ⟨hu, rfl⟩ := allocproc_spec hal
      exact h.forkAlloc hf hu
  | forkFail =>
    obtain ⟨np, hf, rfl⟩ := doAct_forkFail he
    exact h.forkFail hf
  | forkPush =>
    obtain ⟨np, hf, rfl⟩ := doAct_forkPush he
    exact h.forkPush hf
  | forkDone =>
    obtain ⟨np, hf, rfl⟩ := doAct_forkDone he
    exact h.forkDone hf
  | exit => exact h.exit hp (doAct_exit he).2
  | sleep =>
    obtain rfl := doAct_sleep he
    exact h.release hp (Or.inr (Or.inl rfl))
  | yield =>
    obtain rfl := doAct_yield he
    exact h.yield hp
  | yield1 =>
    obtain rfl := doAct_yield1 he
    have ht : TickFrame s (s.modifyProc p fun pr => { pr with cticks := pr.cticks + 1 }) :=
      TickFrame.modifyProc ⟨rfl, rfl⟩
    exact (h.of_tickFrame ht).yield (by rw [ht.runningOn]; exact hp)
  | tick =>
    obtain rfl := doAct_tick he
    exact h.tick hp
  | reap q =>
    obtain ⟨-, hz, rfl⟩ := doAct_reap he
    exact h.reap hp hz

/-- **Every event keeps the invariant.** -/
theorem Inv.step {e : Event 1} {s' : Sys 1} (h : Inv s) (he : step s e = some s') : Inv s' := by
  cases e with
  | userinit => exact h.userinit (step_userinit he).2
  | init c =>
    obtain rfl : c = 0 := Subsingleton.elim c 0
    obtain ⟨hb, rfl⟩ := step_init he
    exact h.init hb
  | round c =>
    obtain rfl : c = 0 := Subsingleton.elim c 0
    obtain ⟨hi, he⟩ := step_round he
    exact h.round hi he
  | resume c =>
    obtain rfl : c = 0 := Subsingleton.elim c 0
    obtain ⟨item, p, hc, hr, he⟩ | ⟨item, p, hc, hr, he⟩ := step_resume he
    · exact h.resumeStride hc hr he
    · exact h.resumeMlfq hc hr he
  | act c a =>
    obtain rfl : c = 0 := Subsingleton.elim c 0
    obtain ⟨p, hp, he⟩ := step_act he
    exact h.act hp he
  | wakeup q =>
    rw [step_wakeup he]
    exact h.wakeup q

/-- **The invariant of a one-CPU kernel holds in every reachable state**, along any
transitions. -/
theorem inv_reachable {ok : Sys 1 → Sys 1 → Prop} {s : Sys 1} (h : Reachable 1 ok s) : Inv s :=
  Reach.Reachable.rec_inv Inv.boot (fun _ _ _ hs he _ => hs.step he) h

/-! ## MLFQ queue membership -/

/-- **MLFQ queue membership.** In every state of a one-CPU run outside the window in which
an MLFQ-dispatched process has given the CPU back and `mlfq_scheduler` has not yet
resumed, each queue `mlfq[lev]` holds, once each and in slots with no null pointer,
exactly the processes of level `lev` that are runnable, asleep, or embryos pushed by
their `fork`; and no `mlfq_push` has found a full queue or a level past `mlfq[]`. -/
theorem mlfq_membership {ok : Sys 1 → Sys 1 → Prop} {s : Sys 1} (h : Reachable 1 ok s)
    (hc : ∀ item p, s.cpus 0 = .mlfq item p → (s.procs p).state = .running) :
    (∀ lev : Fin nmlfq, ∃ L, (s.mlfq lev).Holds L ∧ L.Nodup ∧
      ∀ q, q ∈ L ↔ Queued s q ∧ (s.procs q).lev = lev.val) ∧
    s.badLev = false ∧ s.pushFull = false := by
  have hi := inv_reachable h
  refine ⟨fun lev => ?_, hi.badLev, hi.pushFull⟩
  obtain ⟨L, hh, hnd, hmem⟩ := hi.queues lev
  refine ⟨L, hh, hnd, fun q => ?_⟩
  rw [hmem q]
  -- the MLFQ-dispatched process runs, so it is not queued
  have hE : Queued s q → ¬ MlfqRunning s q := fun hQ ⟨item, hq⟩ => by
    rcases hQ.2 with hst | hst | ⟨hst, -⟩ <;> rw [hc item q hq] at hst <;> cases hst
  exact ⟨fun h => ⟨h.1, h.2.2⟩, fun h => ⟨h.1, hE h.1, h.2⟩⟩

/-- After `userinit` and the boot processor's `scheduler()` prologue, the first process is
the one process of `mlfq[0]`. -/
theorem mlfq_membership_after_boot :
    ∃ s, Reach.run step (Sys.boot 1) [.userinit, .init 0] = some s ∧ s.cpus 0 = .idle ∧
      (∀ lev : Fin nmlfq, ∃ L, (s.mlfq lev).Holds L ∧ L.Nodup ∧
        ∀ q, q ∈ L ↔ Queued s q ∧ (s.procs q).lev = lev.val) ∧
      s.badLev = false ∧ s.pushFull = false := by
  obtain ⟨s, hs⟩ := Option.isSome_iff_exists.mp
    (show (Reach.run step (Sys.boot 1) [.userinit, .init 0]).isSome by rfl)
  have hidle : s.cpus 0 = .idle := by
    have : (Reach.run step (Sys.boot 1) [.userinit, .init 0]).map (fun s => s.cpus 0) =
        some .idle := by rfl
    rw [hs] at this; exact Option.some.inj this
  have hr : Reachable 1 (fun _ _ => True) s := Reach.Reachable.init.run (fun _ _ => trivial) hs
  exact ⟨s, hs, hidle, mlfq_membership hr fun item p hp => by rw [hidle] at hp; cases hp⟩

end Xv6
