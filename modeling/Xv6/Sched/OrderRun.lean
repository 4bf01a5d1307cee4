import Xv6.Sched.Order

/-!
# The order invariant over runs without wrapping

Each event keeps `OrderInv` along a `NoWrapStep` transition, given `Inv` before it; the
invariant then holds in every state reached along such transitions (`order_reachable`).
Between rounds the stride heap is a min-heap under `frac_is_less_than` and holds exactly the
MLFQ item and one item per stride process; during a round its top is the item the round read.
-/

set_option autoImplicit false

namespace Xv6

variable {s : Sys 1}

/-! ## Boot, `userinit` and `scheduler()`'s prologue -/

theorem OrderInv.boot : OrderInv (Sys.boot 1) where
  atBoot _ q hq := absurd hq.1 (by simp [Sys.boot, Proc.unused, strideProcLevel])
  ordered i h2 hi := absurd hi (by show ¬ i ≤ 0; omega)
  belowMax x hx := by cases hx
  oneMlfq hb := absurd rfl hb
  hasItem q hq := absurd hq.1 (by simp [Sys.boot, Proc.unused, strideProcLevel])
  mlfqTop item q hq := by cases hq

theorem OrderInv.init (h : OrderInv s) (hb : s.cpus 0 = .boot) : OrderInv (schedulerInit s 0) := by
  obtain ⟨q, hst, hsize, hcont, -⟩ := schedulerInit_stride s
  have hcpu : (schedulerInit s 0).cpus 0 = .idle := by simp [schedulerInit]
  have hprocs : (schedulerInit s 0).procs = s.procs := by simp [schedulerInit]
  -- nobody is a stride process before the first round
  have hS : ∀ x, ¬ Strided (schedulerInit s 0) x := by
    rintro x ⟨hl, hx⟩
    rw [hprocs] at hl hx
    refine h.atBoot hb x ⟨hl, ?_⟩
    rcases hx with hx | hx | ⟨it, hit⟩
    · exact Or.inl hx
    · exact Or.inr (Or.inl hx)
    · rw [hcpu] at hit; cases hit
  refine ⟨fun hb' => absurd (hcpu ▸ hb') (by simp), fun i h2 hi => ?_, ?_, fun _ => ?_,
    fun x hx => absurd hx (hS x), fun it p hp => by rw [hcpu] at hp; cases hp⟩
  · rw [hst, hsize] at hi
    exact absurd hi (by omega)
  · rw [hst, hcont]
    intro x hx
    rw [Multiset.mem_singleton.mp hx]
  · rw [hst, hcont]; rfl

theorem OrderInv.userinit {s' : Sys 1} (h : OrderInv s) (he : userinit s = some s') :
    OrderInv s' := by
  obtain ⟨np, -, rfl⟩ := userinit_cases he
  set s2 := { s.setState np .embryo with initproc := some np }.modifyProc np
    fun pr => { pr with lev := 0, cticks := 0 }
  refine h.of_one (p := np) (by simp [s2]) (by simp [s2]) (fun x hx => ?_) fun hS => ?_
  · simp [s2, Sys.setState_procs_of_ne _ _ _ hx, Sys.modifyProc_procs_of_ne _ _ _ hx]
  · -- the first process starts at level 0
    have hl := hS.1
    simp [s2, strideProcLevel] at hl

/-! ## Rounds -/

/-- **The MLFQ scan of a round holding the MLFQ item**: a dispatch with the MLFQ item on top,
or the end of the round. -/
theorem OrderInv.of_mlfqScheduler {s' : Sys 1} {item : StrideItem} (h : OrderInv s)
    (hq : QueuesOk s fun _ => False) (hc : s.cpus 0 = .idle ∨ ∃ p, s.cpus 0 = .mlfq item p)
    (htop : s.stride.q.items 1 = item) (hg : item.Good) (hn : 0 < s.stride.q.size)
    (hle : s.stride.q.size ≤ nproc) (hmp : s.stride.maxPass.SmallTwos)
    (hw : NoWrap s) (hw' : NoWrap s') (hm : CmpFits s.stride.maxPass s'.stride.maxPass)
    (hs : mlfqScheduler s 0 item = some s') : OrderInv s' := by
  have hb : s.cpus 0 ≠ .boot := by rcases hc with hc | ⟨p, hc⟩ <;> rw [hc] <;> simp
  obtain ⟨s1, r, hscan, hnext⟩ := mlfqScheduler_cases hs
  obtain ⟨hframe, -, hsome⟩ := mlfqScan_spec hq hscan
  have hst1 : s1.stride = s.stride := by rw [hframe]
  have hc1 : s1.cpus = s.cpus := by rw [hframe]
  -- the scan only rotates the queues
  have h1 : OrderInv s1 := h.of_procs hst1 (by rw [hc1]) fun q hq' => by
    rw [hframe] at hq'; exact hq'
  rcases hnext with ⟨p, rfl, rfl⟩ | ⟨rfl, hpass⟩
  · -- a runnable MLFQ process, queued below `NMLFQ`
    obtain ⟨-, -, hQ, -⟩ := hsome p rfl
    refine h1.dispatch (by rw [hc1]; exact hb) (by simp) (fun it q hph => ?_)
      (fun _ _ hph => by cases hph) fun hl => ?_
    · cases hph; rw [hst1, htop]
    · have hlt := hQ.1
      rw [hframe] at hl
      rw [hl] at hlt
      exact absurd hlt (by decide)
  · exact h1.stridePass (by rw [hst1]; exact hle) (by rw [hst1]; exact hmp) (hw.of_stride hst1)
      hw' (by rw [hst1]; exact hm) (by rw [hc1]; exact hb) (by rw [hst1]; exact hn) hg
      (by rw [hst1, htop]; exact ⟨rfl, rfl⟩) hpass

/-- **The start of a round.** -/
theorem OrderInv.round {s' : Sys 1} (hi : Inv s) (h : OrderInv s) (hw : NoWrap s)
    (hw' : NoWrap s') (hm : CmpFits s.stride.maxPass s'.stride.maxPass) (hc : s.cpus 0 = .idle)
    (hs : strideScheduler s 0 = some s') : OrderInv s' := by
  have hb : s.cpus 0 ≠ .boot := by rw [hc]; simp
  obtain ⟨hn, ⟨hM, hmlfq⟩ | ⟨hM, p, hpr, hdisp⟩⟩ := strideScheduler_cases hs
  all_goals have htop := s.stride.q.top_mem hn
  all_goals have hg := hi.stride.good _ htop
  · exact h.of_mlfqScheduler (hi.queues.of_nobody fun x => not_mlfqRunning_of (Or.inl hc))
      (Or.inl hc) rfl hg hn hi.stride.size_le (hi.stride.maxPass hb) hw hw' hm hmlfq
  · -- a stride item: `p`'s, and `p` is a stride process
    have hown : Strided s p := by
      rcases hi.stride.owned _ htop with ⟨hM', -⟩ | ⟨q, hq', hsq⟩
      · rw [hM] at hM'; cases hM'
      · obtain rfl : q = p := Option.some.inj (hq'.2.symm.trans hpr)
        exact hsq
    rcases hdisp with ⟨-, rfl⟩ | ⟨-, hpass⟩
    · exact h.dispatch hb (by simp) (fun _ _ hph => by cases hph)
        (fun _ _ hph => by cases hph; rfl) fun _ => hown
    · exact h.stridePass hi.stride.size_le (hi.stride.maxPass hb) hw hw' hm hb hn hg
        ⟨rfl, rfl⟩ hpass

/-- **The end of a stride dispatch**: the top is the dispatched process's item. -/
theorem OrderInv.resumeStride {s' : Sys 1} {item : StrideItem} {p : ProcId} (hi : Inv s)
    (h : OrderInv s) (hw : NoWrap s) (hw' : NoWrap s')
    (hm : CmpFits s.stride.maxPass s'.stride.maxPass) (hc : s.cpus 0 = .stride item p)
    (hs : Xv6.stridePass s 0 item = some s') : OrderInv s' := by
  obtain ⟨hn, htop, -, hown, hg⟩ := hi.stride.strideTop item p hc
  exact h.stridePass hi.stride.size_le (hi.stride.maxPass (by rw [hc]; simp)) hw hw' hm
    (by rw [hc]; simp) hn hg ⟨htop.1.trans hown.1.symm, htop.2.trans hown.2.symm⟩ hs

/-- **The end of an MLFQ dispatch**: `mlfq_scheduler`'s bookkeeping touches no stride
process, and the MLFQ item is still on top when the round goes on. -/
theorem OrderInv.resumeMlfq {s' : Sys 1} {item : StrideItem} {p : ProcId} (hi : Inv s)
    (h : OrderInv s) (hw : NoWrap s) (hw' : NoWrap s')
    (hm : CmpFits s.stride.maxPass s'.stride.maxPass) (hc : s.cpus 0 = .mlfq item p)
    (hr : (s.procs p).state ≠ .running) (hs : mlfqResume s 0 item p = some s') :
    OrderInv s' := by
  have hd : MlfqRunning s p := ⟨item, hc⟩
  obtain ⟨-, -, hg, hn⟩ := hi.stride.mlfqTop item p hc
  have htop := h.mlfqTop item p hc
  -- `p` is the set-aside process of the queues
  have hqp : QueuesOk s fun x => False ∨ x = p :=
    hi.queues.of_procs rfl (fun x => ⟨fun hx => hx.elim False.elim fun hxp => hxp ▸ hd,
      fun hx => Or.inr (hx.eq hd)⟩) fun _ _ => ⟨Iff.rfl, rfl⟩
  obtain ⟨s1, hafter, hnext⟩ := mlfqResume_cases hs
  obtain ⟨hf1, hl1, hq1⟩ := mlfqAfterRun_spec hqp id
    (hi.procs.state_of_dispatched (Or.inr hd) hr) hafter
  set s2 := s1.modifyProc p fun pr => { pr with yieldBy := 0 }
  have ht : TickFrame s1 s2 := TickFrame.modifyProc ⟨rfl, rfl⟩
  have hc1 : s1.cpus = s.cpus := by rw [hf1]
  have hst2 : s2.stride = s.stride := by rw [ht.1, hf1]
  have hc2 : s2.cpus 0 = s.cpus 0 := by rw [ht.2.2.1, hc1]
  have h2 : OrderInv s2 :=
    (h.of_procs (by rw [hf1]) (by rw [hc1]) fun q hq =>
      Strided.of_levFrame_rev hl1 (by rw [hc1]) hq).of_tickFrame ht
  have hle : s2.stride.q.size ≤ nproc := by rw [hst2]; exact hi.stride.size_le
  have hmp : s2.stride.maxPass.SmallTwos := by
    rw [hst2]; exact hi.stride.maxPass (by rw [hc]; simp)
  rcases hnext with ⟨-, hpass⟩ | ⟨-, hsched⟩
  · exact h2.stridePass hle hmp (hw.of_stride hst2) hw' (by rw [hst2]; exact hm)
      (by rw [hc2, hc]; simp) (by rw [hst2]; exact hn) hg
      (by rw [hst2, htop]; exact ⟨rfl, rfl⟩) hpass
  · exact h2.of_mlfqScheduler (hq1.of_tickFrame ht) (Or.inr ⟨p, by rw [hc2, hc]⟩)
      (by rw [hst2, htop]) hg (by rw [hst2]; exact hn) hle hmp (hw.of_stride hst2) hw'
      (by rw [hst2]; exact hm) hsched

/-! ## The calls of the running process -/

/-- **`set_cpu_share`**: a join pushes the caller's item at `max_pass`, and an adjust keeps
the pass, the flag and the process of every slot. -/
theorem OrderInv.setCpuShare {p : ProcId} {share : Int} {s' : Sys 1} (hi : Inv s)
    (h : OrderInv s) (hw : NoWrap s) (hw' : NoWrap s') (hp : runningOn s 0 = some p)
    (he : (sysSetCpuShare s p share).map Prod.snd = some s') : OrderInv s' := by
  obtain ⟨⟨r, s''⟩, hs, rfl⟩ := Option.map_eq_some_iff.mp he
  unfold sysSetCpuShare at hs
  split_ifs at hs
  · simp only [Option.some.injEq, Prod.mk.injEq] at hs
    rw [← hs.2]; exact h
  obtain ⟨hd, hr⟩ := runningOn_spec hp
  rcases setCpuShare_cases hs with rfl | ⟨hl, -, -, q', hq, rfl⟩ | ⟨hl, rfl⟩
  · exact h
  · -- the join: `p` was dispatched by `mlfq_scheduler`
    have hmr : MlfqRunning s p := hd.resolve_left fun hsr => by
      rw [hi.procs.strideLev p hsr] at hl; exact absurd hl (by decide)
    refine h.join hi.stride hw hw' hmr hq rfl rfl fun x hxp hx => (Strided.of_eq ?_ (by rfl)).mp hx
    simp [Sys.setState_procs_of_ne _ _ _ hxp, Sys.modifyProc_procs_of_ne _ _ _ hxp]
  · -- the adjust: `p` was dispatched by a stride round, so the round is not an MLFQ one
    obtain ⟨hsize, hmax, hkey⟩ := strideAdjust_keys s.stride (strideFindItem s.stride p) share
    refine h.of_keys hsize (fun j => ?_) hmax rfl (fun q hq => hq) fun item q hq => ?_
    · obtain ⟨h1, h2, h3⟩ := hkey j
      simp only [StrideItem.key, h1, h2, h3]
    · obtain rfl : q = p := runningOn_dispatched hp (Or.inr ⟨item, hq⟩)
      have hlt := hi.procs.mlfqLev q ⟨item, hq⟩ hr
      rw [hl] at hlt
      exact absurd hlt (by decide)

/-- The running process gives the CPU up, runnable or asleep: if it is at
`STRIDE_PROC_LEVEL`, a stride round runs it. -/
theorem OrderInv.release {p : ProcId} {st : ProcState} (hi : Inv s) (h : OrderInv s)
    (hr : (s.procs p).state = .running) : OrderInv (s.setState p st) :=
  h.setState fun _ hl => hi.procs.strided_of_running hr hl

/-- A process that becomes neither runnable nor asleep. -/
theorem OrderInv.setState_other {p : ProcId} {st : ProcState} (h : OrderInv s)
    (hst : st ≠ .runnable ∧ st ≠ .sleeping) : OrderInv (s.setState p st) :=
  h.setState fun h' => absurd h' (by rintro (h1 | h1) <;> [exact hst.1 h1; exact hst.2 h1])

theorem OrderInv.act {p : ProcId} {a : Act} {s' : Sys 1} (hi : Inv s) (h : OrderInv s)
    (hw : NoWrap s) (hw' : NoWrap s') (hp : runningOn s 0 = some p)
    (he : doAct s p a = some s') : OrderInv s' := by
  obtain ⟨-, hr⟩ := runningOn_spec hp
  cases a with
  | setCpuShare share => exact h.setCpuShare hi hw hw' hp (doAct_setCpuShare he).2
  | forkAlloc =>
    obtain ⟨-, ⟨-, rfl⟩ | ⟨np, s₁, hal, rfl⟩⟩ := doAct_forkAlloc he
    · exact h
    · obtain ⟨-, rfl⟩ := allocproc_spec hal
      exact (h.setState_other (by decide)).of_procs rfl rfl fun _ hq => hq
  | forkFail =>
    obtain ⟨np, -, rfl⟩ := doAct_forkFail he
    exact (h.setState_other (by decide)).of_procs rfl rfl fun _ hq => hq
  | forkPush =>
    obtain ⟨np, -, rfl⟩ := doAct_forkPush he
    refine h.of_one (p := np) (by simp) (by simp) (fun x hx => ?_) fun hS => ?_
    · simp [Sys.modifyProc_procs_of_ne _ _ _ hx]
    · -- the child starts at level 0
      have hl := hS.1
      simp [strideProcLevel] at hl
  | forkDone =>
    obtain ⟨np, hf, rfl⟩ := doAct_forkDone he
    -- the child `fork` pushed is an MLFQ process
    refine (h.setState fun _ hl => ?_).of_procs rfl rfl fun _ hq => hq
    have hlt := hi.procs.pushedLev p np hf
    rw [hl] at hlt
    exact absurd hlt (by decide)
  | exit =>
    obtain ⟨-, -, rfl⟩ := exitProc_eq (doAct_exit he).2
    exact h.setState_other (by decide)
  | sleep =>
    obtain rfl := doAct_sleep he
    exact h.release hi hr
  | yield =>
    obtain rfl := doAct_yield he
    exact h.release hi hr
  | yield1 =>
    obtain rfl := doAct_yield1 he
    have ht : TickFrame s (s.modifyProc p fun pr => { pr with cticks := pr.cticks + 1 }) :=
      TickFrame.modifyProc ⟨rfl, rfl⟩
    exact (h.of_tickFrame ht).release (hi.of_tickFrame ht)
      (by rw [(ht.2.2.2.2.2.2 p).1]; exact hr)
  | tick =>
    obtain rfl := doAct_tick he
    obtain ⟨t, ht, he | he⟩ := trapTick_cases s p
    · rw [he]; exact h.of_tickFrame ht
    · rw [he]
      exact (h.of_tickFrame ht).release (hi.of_tickFrame ht)
        (by rw [(ht.2.2.2.2.2.2 p).1]; exact hr)
  | reap q =>
    obtain ⟨-, -, rfl⟩ := doAct_reap he
    exact h.setState_other (by decide)

theorem OrderInv.wakeup (h : OrderInv s) (q : ProcId) : OrderInv (wakeupProc s q) := by
  unfold wakeupProc
  split
  · -- a sleeping process at `STRIDE_PROC_LEVEL` was a stride process
    rename_i hs
    exact h.setState fun _ hl => ⟨hl, Or.inr (Or.inl hs)⟩
  · exact h

/-! ## Whole runs -/

/-- The process CPU 0 runs was dispatched, so `scheduler()`'s prologue has run. -/
theorem runningOn_ne_boot {p : ProcId} (hp : runningOn s 0 = some p) : s.cpus 0 ≠ .boot := by
  intro hb
  rcases (runningOn_spec hp).1 with ⟨i, hi⟩ | ⟨i, hi⟩ <;> rw [hb] at hi <;> cases hi

/-- **Every event keeps the order invariant** along a transition in which no comparison
wraps. -/
theorem OrderInv.step {e : Event 1} {s' : Sys 1} (hi : Inv s) (h : OrderInv s)
    (hw : NoWrapStep s s') (he : step s e = some s') : OrderInv s' := by
  cases e with
  | userinit => exact h.userinit (step_userinit he).2
  | init c =>
    obtain rfl : c = 0 := Subsingleton.elim c 0
    obtain ⟨hb, rfl⟩ := step_init he
    exact h.init hb
  | round c =>
    obtain rfl : c = 0 := Subsingleton.elim c 0
    obtain ⟨hc, he⟩ := step_round he
    obtain ⟨hw, hw', hm⟩ := hw.resolve_left (by rw [hc]; simp)
    exact h.round hi hw hw' hm hc he
  | resume c =>
    obtain rfl : c = 0 := Subsingleton.elim c 0
    obtain ⟨item, p, hc, -, he⟩ | ⟨item, p, hc, hr, he⟩ := step_resume he
    · obtain ⟨hw, hw', hm⟩ := hw.resolve_left (by rw [hc]; simp)
      exact h.resumeStride hi hw hw' hm hc he
    · obtain ⟨hw, hw', hm⟩ := hw.resolve_left (by rw [hc]; simp)
      exact h.resumeMlfq hi hw hw' hm hc hr he
  | act c a =>
    obtain rfl : c = 0 := Subsingleton.elim c 0
    obtain ⟨p, hp, he⟩ := step_act he
    obtain ⟨hw, hw', -⟩ := hw.resolve_left (runningOn_ne_boot hp)
    exact h.act hi hw hw' hp he
  | wakeup q =>
    rw [step_wakeup he]
    exact h.wakeup q

/-- **The order invariant holds in every state reached along transitions in which no
comparison wraps.** -/
theorem order_reachable {s : Sys 1} (h : Reachable 1 NoWrapStep s) : OrderInv s :=
  Reach.Reachable.rec_inv' OrderInv.boot
    (fun _ _ _ hr hs he hw => hs.step (inv_reachable hr) hw he) h

theorem noWrap_schedulerInit : NoWrap (schedulerInit s 0) := by
  obtain ⟨q, hst, -, hcont, -⟩ := schedulerInit_stride s
  have hpasses : heapPasses (schedulerInit s 0) = {fracZero, fracZero} := by
    rw [heapPasses, hst, hcont]; rfl
  -- the two passes are `0 / 1`
  intro a ha b hb
  rw [hpasses] at ha hb
  simp only [Multiset.insert_eq_cons, Multiset.mem_cons, Multiset.mem_singleton, or_self] at ha hb
  subst ha hb
  exact ⟨by decide, by decide, by decide, by decide, by decide⟩

/-- Before `scheduler()`'s prologue the CPU is at boot; right after it no comparison wraps. -/
theorem boot_step {e : Event 1} {s' : Sys 1} (hb : s.cpus 0 = .boot)
    (he : step s e = some s') : s'.cpus 0 = .boot ∨ NoWrap s' := by
  cases e with
  | userinit =>
    obtain ⟨np, -, rfl⟩ := userinit_cases (step_userinit he).2
    exact Or.inl (by simpa using hb)
  | init c =>
    obtain rfl : c = 0 := Subsingleton.elim c 0
    obtain ⟨-, rfl⟩ := step_init he
    exact Or.inr noWrap_schedulerInit
  | round c =>
    obtain rfl : c = 0 := Subsingleton.elim c 0
    obtain ⟨hc, -⟩ := step_round he
    rw [hb] at hc
    cases hc
  | resume c =>
    obtain rfl : c = 0 := Subsingleton.elim c 0
    rcases step_resume he with ⟨_, _, hc, -⟩ | ⟨_, _, hc, -⟩ <;> rw [hb] at hc <;> cases hc
  | act c a =>
    obtain rfl : c = 0 := Subsingleton.elim c 0
    obtain ⟨p, hp, -⟩ := step_act he
    exact absurd hb (runningOn_ne_boot hp)
  | wakeup q =>
    rw [step_wakeup he]
    unfold wakeupProc
    split
    · exact Or.inl hb
    · exact Or.inl hb

/-- In a state reached along transitions in which no comparison wraps, no comparison of the
passes the queue holds wraps, once `scheduler()` has started. -/
theorem noWrap_reachable {s : Sys 1} (h : Reachable 1 NoWrapStep s) :
    s.cpus 0 = .boot ∨ NoWrap s := by
  cases h with
  | init => exact Or.inl rfl
  | step e _ he hw =>
    rcases hw with hb | ⟨-, hw', -⟩
    · exact boot_step hb he
    · exact Or.inr hw'

/-! ## The stride heap between rounds and during them -/

/-- While no comparison wraps, `frac_is_less_than` never finds a child's pass below its
parent's. -/
theorem OrderInv.parent_not_lt (h : OrderInv s) (hw : NoWrap s) {i : Nat} (h2 : 2 ≤ i)
    (hi : i ≤ s.stride.q.size) :
    fracIsLessThan (s.stride.q.items i).pass (s.stride.q.items (i / 2)).pass = false := by
  have hmem : s.stride.q.items i ∈ s.stride.q.contents := ImplicitHeap.mem_contents_of (by omega) hi
  have hmem' : s.stride.q.items (i / 2) ∈ s.stride.q.contents :=
    ImplicitHeap.mem_contents_of (by omega) (by omega)
  rw [Bool.eq_false_iff, ne_eq, fracIsLessThan_iff (hw.passesFit _ hmem _ hmem'), not_lt]
  exact h.ordered i h2 hi

/-- **The stride heap over whole one-CPU runs of the model without wrapping.** Between rounds the
heap is a min-heap under `frac_is_less_than`, holds one MLFQ item, one item for each runnable or
sleeping process at `STRIDE_PROC_LEVEL`, and nothing else. During a round, stride or MLFQ, the
top of the heap, which `stride_pop` removes when the round ends, is the item the round read with
`stride_top`. The model runs `set_cpu_share`'s push and its `yield()` as one step; the kernel
does not, and `set_cpu_share_window_exit` (Xv6.Sched.Race) is a run that breaks the invariant
in between. -/
theorem stride_heap_invariant {s : Sys 1} (h : Reachable 1 NoWrapStep s) :
    (s.cpus 0 = .idle →
      (∀ i, 2 ≤ i → i ≤ s.stride.q.size →
        fracIsLessThan (s.stride.q.items i).pass (s.stride.q.items (i / 2)).pass = false) ∧
      s.stride.q.contents.countP (·.isMLFQ) = 1 ∧
      (∀ q, (s.procs q).lev = strideProcLevel →
        ((s.procs q).state = .sleeping ∨ (s.procs q).state = .runnable) →
        s.stride.q.contents.countP (·.OwnedBy q) = 1) ∧
      ∀ x ∈ s.stride.q.contents, x.isMLFQ = true ∨ ∃ q, x.OwnedBy q ∧
        (s.procs q).lev = strideProcLevel ∧
        ((s.procs q).state = .sleeping ∨ (s.procs q).state = .runnable)) ∧
    (∀ item p, s.cpus 0 = .stride item p ∨ s.cpus 0 = .mlfq item p →
      (s.stride.q.items 1).pass = item.pass ∧ (s.stride.q.items 1).isMLFQ = item.isMLFQ ∧
        (s.stride.q.items 1).proc = item.proc) := by
  have hi := inv_reachable h
  have ho := order_reachable h
  refine ⟨fun hc => ?_, fun item p hc => ?_⟩
  · have hb : s.cpus 0 ≠ .boot := by rw [hc]; simp
    have hw := (noWrap_reachable h).resolve_left hb
    -- between rounds a stride process is runnable or asleep
    have hS : ∀ q, Strided s q ↔ (s.procs q).lev = strideProcLevel ∧
        ((s.procs q).state = .sleeping ∨ (s.procs q).state = .runnable) := fun q => by
      have hnr := not_strideRunning_of (q := q) (Or.inl hc)
      unfold Strided
      tauto
    refine ⟨fun i h2 hi' => ho.parent_not_lt hw h2 hi', ho.oneMlfq hb, fun q hl hst => ?_,
      fun x hx => ?_⟩
    · obtain ⟨x, hx, hxq⟩ := ho.hasItem q ((hS q).mpr ⟨hl, hst⟩)
      exact le_antisymm (hi.stride.atMostOne q) (Multiset.countP_pos.mpr ⟨x, hx, hxq⟩)
    · rcases hi.stride.owned x hx with ⟨hM, -⟩ | ⟨q, hxq, hq⟩
      · exact Or.inl hM
      · exact Or.inr ⟨q, hxq, (hS q).mp hq⟩
  · rcases hc with hc | hc
    · -- a stride round: the top is the dispatched process's item at the pass it was read
      obtain ⟨-, htop, hpass, hown, -⟩ := hi.stride.strideTop item p hc
      exact ⟨hpass, htop.1.trans hown.1.symm, htop.2.trans hown.2.symm⟩
    · rw [ho.mlfqTop item p hc]
      exact ⟨rfl, rfl, rfl⟩

end Xv6
