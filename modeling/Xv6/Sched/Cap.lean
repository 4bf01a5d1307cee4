import Xv6.Sched.OrderRun
import Xv6.Sched.Share
import Xv6.Sched.Fair

/-!
# The cap on `all_share` over runs without wrapping

`stride_can_change_share` admits a join or an adjust only while `all_share` stays at most
`STRIDE_MAX_SHARE`, but the cap is checked on those two paths only. The other writer of
`all_share` is `stride_pass`, which takes the share of the item on top off and adds that of the
round's copy. On one CPU the two agree except in a stride round whose process has adjusted
its own share: the copy still has the old one (`share_update_lost`). So the invariant `CapInv`
bounds `all_share` and, during a stride round, the total `stride_pass` will leave.

The MLFQ round needs the top of the heap to be the round's copy, which `OrderInv` gives on
runs without wrapping; every result here is about those runs (`cap_reachable`).
`share_cap_invariant` collects what that says of the stride queue. Like every invariant of the
model it rests on `set_cpu_share` running its push and its `yield()` as one step, which the
kernel does not do (Xv6.Sched.Race).
-/

set_option autoImplicit false

namespace Xv6

variable {s : Sys 1}

/-! ## 1. The invariant -/

/-- **The cap invariant.** -/
structure CapInv (s : Sys 1) : Prop where
  le : s.stride.allShare ≤ strideMaxShare
  copy : ∀ item q, s.cpus 0 = .stride item q →
    s.stride.allShare - (s.stride.q.items 1).share + item.share ≤ strideMaxShare

/-- Only the stride queue and the CPU's phase count. -/
theorem CapInv.of_frame {s' : Sys 1} (h : CapInv s) (hst : s'.stride = s.stride)
    (hc : s'.cpus 0 = s.cpus 0) : CapInv s' := by
  refine ⟨by rw [hst]; exact h.le, fun item q hq => ?_⟩
  rw [hst]
  exact h.copy item q (hc ▸ hq)

/-- Outside a stride round only the bound itself is needed. -/
theorem CapInv.of_not_stride {s' : Sys 1} (hle : s'.stride.allShare ≤ strideMaxShare)
    (hc : ∀ item q, s'.cpus 0 ≠ .stride item q) : CapInv s' :=
  ⟨hle, fun item q hq => absurd hq (hc item q)⟩

theorem CapInv.boot : CapInv (Sys.boot 1) :=
  CapInv.of_not_stride (by decide) fun _ _ => by simp [Sys.boot]

theorem CapInv.init : CapInv (schedulerInit s 0) := by
  obtain ⟨q, hst, -, -, -⟩ := schedulerInit_stride s
  -- `all_share` is the MLFQ item's 22, and the CPU is idle
  refine CapInv.of_not_stride ?_ fun _ _ => ?_
  · rw [hst]
    show strideMlfqShare ≤ strideMaxShare
    decide
  · simp [schedulerInit]

/-! ## 2. Rounds -/

/-- **`stride_pass`**: the top leaves with its share, and the copy comes back with its own or
is dropped; the CPU goes idle. -/
theorem CapInv.stridePass {s' : Sys 1} {item : StrideItem} (hle : s.stride.q.size ≤ nproc)
    (hmp : s.stride.maxPass.SmallTwos) (hn : 0 < s.stride.q.size) (hg : item.Good)
    (hcap : s.stride.allShare - (s.stride.q.items 1).share + item.share ≤ strideMaxShare)
    (hs : Xv6.stridePass s 0 item = some s') : CapInv s' := by
  have h80 : item.share < 2 ^ 7 := by have := hg.2.1; omega
  obtain ⟨q1, pass, -, -, -, -, -, hframe, hyes, hno⟩ :=
    stridePass_spec hn hle hg.2.2.1 hmp hg.1 h80 hs
  have hidle : s'.cpus 0 = .idle := by rw [hframe]; simp
  refine CapInv.of_not_stride ?_ fun _ _ => by rw [hidle]; simp
  by_cases hpb : PushedBack s item
  · rw [(hyes hpb).2]
    exact hcap
  · -- the copy is not pushed back, so its share does not come back
    rw [(hno hpb).2]
    have := hg.1
    omega

/-- The dispatch of a process from a round keeps the stride queue. -/
theorem CapInv.dispatch {p : ProcId} {ph : Phase} (hle : s.stride.allShare ≤ strideMaxShare)
    (hph : ∀ item q, ph = .stride item q →
      s.stride.allShare - (s.stride.q.items 1).share + item.share ≤ strideMaxShare) :
    CapInv (dispatch s 0 p ph) := by
  refine ⟨by simpa [Xv6.dispatch] using hle, fun item q hq => ?_⟩
  simp only [Xv6.dispatch, Sys.setCpu_cpus, Function.update_self] at hq
  simpa [Xv6.dispatch] using hph item q hq

/-- **The MLFQ scan of a round holding the MLFQ item**, with that item on top: a dispatch
leaves the stride queue alone, and the end of the round swaps the top for itself. -/
theorem CapInv.of_mlfqScheduler {s' : Sys 1} {item : StrideItem} (h : CapInv s)
    (hq : QueuesOk s fun _ => False) (htop : s.stride.q.items 1 = item) (hg : item.Good)
    (hn : 0 < s.stride.q.size) (hle : s.stride.q.size ≤ nproc)
    (hmp : s.stride.maxPass.SmallTwos) (hs : mlfqScheduler s 0 item = some s') :
    CapInv s' := by
  obtain ⟨s1, r, hscan, hnext⟩ := mlfqScheduler_cases hs
  obtain ⟨hframe, -, -⟩ := mlfqScan_spec hq hscan
  have hst1 : s1.stride = s.stride := by rw [hframe]
  rcases hnext with ⟨p, rfl, rfl⟩ | ⟨rfl, hpass⟩
  · exact CapInv.dispatch (by rw [hst1]; exact h.le) fun _ _ hph => by cases hph
  · refine CapInv.stridePass (by rw [hst1]; exact hle) (by rw [hst1]; exact hmp)
      (by rw [hst1]; exact hn) hg ?_ hpass
    rw [hst1, htop, sub_add_cancel]
    exact h.le

/-- **The start of a round**: the copy is the top itself. -/
theorem CapInv.round {s' : Sys 1} (hi : Inv s) (h : CapInv s) (hc : s.cpus 0 = .idle)
    (hs : strideScheduler s 0 = some s') : CapInv s' := by
  have hb : s.cpus 0 ≠ .boot := by rw [hc]; simp
  have hself : s.stride.allShare - (s.stride.q.items 1).share + (s.stride.q.items 1).share ≤
      strideMaxShare := by
    rw [sub_add_cancel]
    exact h.le
  obtain ⟨hn, ⟨-, hmlfq⟩ | ⟨-, p, -, hdisp⟩⟩ := strideScheduler_cases hs
  all_goals have hg := hi.stride.good _ (s.stride.q.top_mem hn)
  · exact h.of_mlfqScheduler (hi.queues.of_nobody fun x => not_mlfqRunning_of (Or.inl hc))
      rfl hg hn hi.stride.size_le (hi.stride.maxPass hb) hmlfq
  · rcases hdisp with ⟨-, rfl⟩ | ⟨-, hpass⟩
    · refine CapInv.dispatch h.le fun item q hph => ?_
      cases hph
      exact hself
    · exact CapInv.stridePass hi.stride.size_le (hi.stride.maxPass hb) hn hg hself hpass

/-- **The end of a stride dispatch**: `stride_pass` with the copy the round took. -/
theorem CapInv.resumeStride {s' : Sys 1} {item : StrideItem} {p : ProcId} (hi : Inv s)
    (h : CapInv s) (hc : s.cpus 0 = .stride item p) (hs : Xv6.stridePass s 0 item = some s') :
    CapInv s' := by
  obtain ⟨hn, -, -, -, hg⟩ := hi.stride.strideTop item p hc
  exact CapInv.stridePass hi.stride.size_le (hi.stride.maxPass (by rw [hc]; simp)) hn hg
    (h.copy item p hc) hs

/-- **The end of an MLFQ dispatch**: the bookkeeping of `mlfq_scheduler` keeps the stride
queue, and the MLFQ item is on top (`OrderInv.mlfqTop`). -/
theorem CapInv.resumeMlfq {s' : Sys 1} {item : StrideItem} {p : ProcId} (hi : Inv s)
    (ho : OrderInv s) (h : CapInv s) (hc : s.cpus 0 = .mlfq item p)
    (hr : (s.procs p).state ≠ .running) (hs : mlfqResume s 0 item p = some s') : CapInv s' := by
  have hd : MlfqRunning s p := ⟨item, hc⟩
  obtain ⟨-, -, hg, hn⟩ := hi.stride.mlfqTop item p hc
  have htop := ho.mlfqTop item p hc
  have hqp : QueuesOk s fun x => False ∨ x = p :=
    hi.queues.of_procs rfl (fun x => ⟨fun hx => hx.elim False.elim fun hxp => hxp ▸ hd,
      fun hx => Or.inr (hx.eq hd)⟩) fun _ _ => ⟨Iff.rfl, rfl⟩
  obtain ⟨s1, hafter, hnext⟩ := mlfqResume_cases hs
  obtain ⟨hf1, -, hq1⟩ := mlfqAfterRun_spec hqp id
    (hi.procs.state_of_dispatched (Or.inr hd) hr) hafter
  set s2 := s1.modifyProc p fun pr => { pr with yieldBy := 0 }
  have ht : TickFrame s1 s2 := TickFrame.modifyProc ⟨rfl, rfl⟩
  have hst2 : s2.stride = s.stride := by rw [ht.1, hf1]
  have hc2 : s2.cpus 0 = s.cpus 0 := by rw [ht.2.2.1, hf1]
  have h2 : CapInv s2 := h.of_frame hst2 hc2
  have hle : s2.stride.q.size ≤ nproc := by rw [hst2]; exact hi.stride.size_le
  have hmp : s2.stride.maxPass.SmallTwos := by
    rw [hst2]; exact hi.stride.maxPass (by rw [hc]; simp)
  rcases hnext with ⟨-, hpass⟩ | ⟨-, hsched⟩
  · refine CapInv.stridePass hle hmp (by rw [hst2]; exact hn) hg ?_ hpass
    rw [hst2, htop, sub_add_cancel]
    exact h.le
  · exact h2.of_mlfqScheduler (hq1.of_tickFrame ht) (by rw [hst2, htop]) hg
      (by rw [hst2]; exact hn) hle hmp hsched

/-! ## 3. The calls of the running process -/

/-- In a stride round, `stride_find_item` of the dispatched process finds slot 1 or nothing:
slot 0 is no process's, and slot 1 holds the process's item. -/
theorem StrideInv.findItem_eq_one {item : StrideItem} {p : ProcId} (h : StrideInv s)
    (hc : s.cpus 0 = .stride item p) {i : Nat} (hf : strideFindItem s.stride p = some i) :
    i = 1 := by
  obtain ⟨-, htop, -, -, -⟩ := h.strideTop item p hc
  obtain ⟨hi, hp⟩ := strideFindItem_spec hf
  by_cases h2 : 2 ≤ s.stride.q.size
  · have h1 := strideFindItem_eq_one (by rw [h.slot0]; simp) htop.2 h2
    exact Option.some.inj (hf.symm.trans h1)
  · -- a heap of one item: the loop looks at slot 0 only
    have hi0 : i = 0 := by omega
    rw [hi0, h.slot0] at hp
    cases hp

/-- An adjust of the top's share within the cap: the total and the total `stride_pass` will
leave with the copy stay within it. -/
theorem CapInv.adjust_top {item : StrideItem} {q : ProcId} (h : CapInv s)
    (hc : s.cpus 0 = .stride item q) (hn : 0 < s.stride.q.size) (share : Int) :
    CapInv { s with stride := (strideAdjust s.stride (some 1) share).2 } := by
  rw [strideAdjust_slot share hn]
  split_ifs with hcap
  · refine ⟨hcap, fun it q' hq => ?_⟩
    obtain ⟨rfl, rfl⟩ : it = item ∧ q' = q := by
      have : Phase.stride it q' = .stride item q := hq.symm.trans hc
      simp only [Phase.stride.injEq] at this
      exact this
    -- the copy's share replaces the new one, and the old one was within the cap
    have hcopy := h.copy it q' hc
    simp only [Function.update_self]
    omega
  · exact h.of_frame rfl rfl

/-- **`set_cpu_share`**: a join is admitted within the cap, in an MLFQ round; an adjust is
one of the top's share, in the caller's stride round. -/
theorem CapInv.setCpuShare {p : ProcId} {share : Int} {s' : Sys 1} (hi : Inv s) (h : CapInv s)
    (hp : runningOn s 0 = some p) (he : (sysSetCpuShare s p share).map Prod.snd = some s') :
    CapInv s' := by
  obtain ⟨⟨r, s''⟩, hs, rfl⟩ := Option.map_eq_some_iff.mp he
  unfold sysSetCpuShare at hs
  split_ifs at hs
  · simp only [Option.some.injEq, Prod.mk.injEq] at hs
    rw [← hs.2]
    exact h
  obtain ⟨hd, -⟩ := runningOn_spec hp
  rcases setCpuShare_cases hs with rfl | ⟨hl, hcan, -, q', -, rfl⟩ | ⟨hl, rfl⟩
  · exact h
  · -- the join: `p` was dispatched by `mlfq_scheduler`, so the round is not a stride one
    have hmr : MlfqRunning s p := hd.resolve_left fun hsr => by
      rw [hi.procs.strideLev p hsr] at hl
      exact absurd hl (by decide)
    obtain ⟨it, hit⟩ := hmr
    refine CapInv.of_not_stride ?_ fun _ _ => by simp [hit]
    simp only [strideCanChangeShare, decide_eq_true_eq] at hcan
    simp only [Sys.setState_stride]
    omega
  · -- the adjust: `p` was dispatched by a stride round, which holds its item on top
    have hsr : StrideRunning s p := hd.resolve_right fun hmr => by
      have hlt := hi.procs.mlfqLev p hmr (runningOn_spec hp).2
      rw [hl] at hlt
      exact absurd hlt (by decide)
    obtain ⟨item, hc⟩ := hsr
    obtain ⟨hn, -⟩ := hi.stride.strideTop item p hc
    rcases hf : strideFindItem s.stride p with _ | i
    · exact h.of_frame (by simp [strideAdjust]) rfl
    · rw [hi.stride.findItem_eq_one hc hf]
      exact h.adjust_top hc hn share

/-- Every call other than `set_cpu_share` keeps the stride queue and the phases of the
CPUs. -/
theorem doAct_frame {p : ProcId} {a : Act} {s' : Sys 1} (ha : ∀ share, a ≠ .setCpuShare share)
    (he : doAct s p a = some s') : s'.stride = s.stride ∧ s'.cpus = s.cpus := by
  cases a with
  | setCpuShare share => exact absurd rfl (ha share)
  | forkAlloc =>
    obtain ⟨-, ⟨-, rfl⟩ | ⟨np, s₁, hal, rfl⟩⟩ := doAct_forkAlloc he
    · exact ⟨rfl, rfl⟩
    · obtain ⟨-, rfl⟩ := allocproc_spec hal
      exact ⟨rfl, rfl⟩
  | forkFail =>
    obtain ⟨np, -, rfl⟩ := doAct_forkFail he
    exact ⟨rfl, rfl⟩
  | forkPush =>
    obtain ⟨np, -, rfl⟩ := doAct_forkPush he
    simp
  | forkDone =>
    obtain ⟨np, -, rfl⟩ := doAct_forkDone he
    exact ⟨rfl, rfl⟩
  | exit =>
    obtain ⟨-, -, rfl⟩ := exitProc_eq (doAct_exit he).2
    exact ⟨rfl, rfl⟩
  | sleep =>
    obtain rfl := doAct_sleep he
    exact ⟨rfl, rfl⟩
  | yield =>
    obtain rfl := doAct_yield he
    exact ⟨rfl, rfl⟩
  | yield1 =>
    obtain rfl := doAct_yield1 he
    exact ⟨rfl, rfl⟩
  | tick =>
    obtain rfl := doAct_tick he
    obtain ⟨t, ht, he | he⟩ := trapTick_cases s p
    · rw [he]; exact ⟨ht.1, ht.2.2.1⟩
    · rw [he]; exact ⟨ht.1, ht.2.2.1⟩
  | reap q =>
    obtain ⟨-, -, rfl⟩ := doAct_reap he
    exact ⟨rfl, rfl⟩

theorem CapInv.act {p : ProcId} {a : Act} {s' : Sys 1} (hi : Inv s) (h : CapInv s)
    (hp : runningOn s 0 = some p) (he : doAct s p a = some s') : CapInv s' := by
  by_cases ha : ∃ share, a = .setCpuShare share
  · obtain ⟨share, rfl⟩ := ha
    exact h.setCpuShare hi hp (doAct_setCpuShare he).2
  · obtain ⟨hst, hc⟩ := doAct_frame (fun share h' => ha ⟨share, h'⟩) he
    exact h.of_frame hst (by rw [hc])

/-! ## 4. Whole runs -/

/-- **Every event keeps the cap invariant**, given the invariants of the scheduler and of the
heap's order before it. -/
theorem CapInv.step {e : Event 1} {s' : Sys 1} (hi : Inv s) (ho : OrderInv s) (h : CapInv s)
    (he : step s e = some s') : CapInv s' := by
  cases e with
  | userinit =>
    obtain ⟨np, -, rfl⟩ := userinit_cases (step_userinit he).2
    exact h.of_frame (by simp) (by simp)
  | init c =>
    obtain rfl : c = 0 := Subsingleton.elim c 0
    obtain ⟨-, rfl⟩ := step_init he
    exact CapInv.init
  | round c =>
    obtain rfl : c = 0 := Subsingleton.elim c 0
    obtain ⟨hc, he⟩ := step_round he
    exact h.round hi hc he
  | resume c =>
    obtain rfl : c = 0 := Subsingleton.elim c 0
    obtain ⟨item, p, hc, -, he⟩ | ⟨item, p, hc, hr, he⟩ := step_resume he
    · exact h.resumeStride hi hc he
    · exact h.resumeMlfq hi ho hc hr he
  | act c a =>
    obtain rfl : c = 0 := Subsingleton.elim c 0
    obtain ⟨p, hp, he⟩ := step_act he
    exact h.act hi hp he
  | wakeup q =>
    rw [step_wakeup he]
    unfold wakeupProc
    split
    · exact h.of_frame rfl rfl
    · exact h

/-- **The cap invariant holds in every state reached along transitions in which no
comparison wraps.** -/
theorem cap_reachable {s : Sys 1} (h : Reachable 1 NoWrapStep s) : CapInv s :=
  Reach.Reachable.rec_inv' CapInv.boot
    (fun _ _ _ hr hs he _ => hs.step (inv_reachable hr) (order_reachable hr) he) h

/-! ## 5. What the stride queue holds -/

/-- The share the stride queue holds for `p`: that of its item, `0` for a process without one. -/
def heldShare (sq : StrideQueue) (p : ProcId) : Int :=
  ((sq.q.contents.filter (·.OwnedBy p)).map (·.share)).sum

/-- Once `scheduler()` has started, the MLFQ item is in the heap once, with its 22. -/
theorem mlfq_shares {s : Sys 1} (hi : Inv s) (ho : OrderInv s) (hb : s.cpus 0 ≠ .boot) :
    (s.stride.q.contents.filter (·.isMLFQ = true)).map (·.share) = {strideMlfqShare} := by
  have hc := ho.oneMlfq hb
  rw [Multiset.countP_eq_card_filter] at hc
  obtain ⟨x, hx⟩ := Multiset.card_eq_one.mp hc
  have hxm : x ∈ s.stride.q.contents.filter (·.isMLFQ = true) := by
    rw [hx]
    exact Multiset.mem_singleton_self x
  obtain ⟨hxc, hxM⟩ := Multiset.mem_filter.mp hxm
  rw [hx, Multiset.map_singleton, (hi.stride.good x hxc).2.2.2 hxM]

/-- The shares of the heap, the MLFQ item's and the others'. -/
theorem sum_shares_split (M : Multiset StrideItem) :
    (M.map (·.share)).sum = ((M.filter (·.isMLFQ = true)).map (·.share)).sum +
      ((M.filter (·.isMLFQ = false)).map (·.share)).sum := by
  have hnot : M.filter (·.isMLFQ = false) = M.filter fun x => ¬ x.isMLFQ = true :=
    Multiset.filter_congr fun x _ => by simp
  rw [hnot, ← Multiset.sum_add, ← Multiset.map_add, Multiset.filter_add_not]

/-- A process with an item in the heap holds the share of that item. -/
theorem heldShare_of_top {s : Sys 1} {p : ProcId} (hi : StrideInv s) (hn : 0 < s.stride.q.size)
    (htop : (s.stride.q.items 1).OwnedBy p) :
    heldShare s.stride p = (s.stride.q.items 1).share := by
  obtain ⟨C, hC⟩ := Multiset.exists_cons_of_mem (s.stride.q.top_mem hn)
  have h1 := hi.atMostOne p
  rw [hC, Multiset.countP_cons_of_pos (p := fun x => x.OwnedBy p) C htop] at h1
  -- the rest of the heap holds no item of `p`
  have hC0 : C.filter (·.OwnedBy p) = 0 :=
    Multiset.filter_eq_nil.mpr fun x hx hxp =>
      absurd ((Multiset.countP_pos (p := fun y => y.OwnedBy p)).mpr ⟨x, hx, hxp⟩) (by omega)
  rw [heldShare, hC, Multiset.filter_cons_of_pos (p := fun x => x.OwnedBy p) C htop, hC0,
    Multiset.cons_zero, Multiset.map_singleton,
    Multiset.sum_singleton]

/-- An MLFQ process holds no share. -/
theorem heldShare_of_mlfq {s : Sys 1} {p : ProcId} (hi : StrideInv s)
    (hm : isMlfq (s.procs p) = true) : heldShare s.stride p = 0 := by
  rw [heldShare, Multiset.filter_eq_nil.mpr, Multiset.map_zero, Multiset.sum_zero]
  intro x hx hxp
  rcases hi.owned x hx with ⟨hM, -⟩ | ⟨q, hxq, hq⟩
  · rw [hxp.1] at hM
    cases hM
  · -- an item's owner is a stride process, and `p` is not one
    obtain rfl : q = p := Option.some.inj (hxq.2.symm.trans hxp.2)
    have hlt : (s.procs q).lev < nmlfq := by simpa [isMlfq] using hm
    rw [hq.1] at hlt
    exact absurd hlt (by decide)

/-- **The cap refuses every call of the running process that would pass it**, counting the
share the caller holds, and the refusal changes nothing. -/
theorem sysSetCpuShare_over_cap {s : Sys 1} {p : ProcId} {share : Int} (hi : Inv s)
    (hp : runningOn s 0 = some p)
    (hcap : strideMaxShare < s.stride.allShare - heldShare s.stride p + share) :
    sysSetCpuShare s p share = some (-1, s) := by
  unfold sysSetCpuShare
  split_ifs with hr
  · rfl
  obtain ⟨hd, hrun⟩ := runningOn_spec hp
  by_cases hm : isMlfq (s.procs p) = true
  · rw [heldShare_of_mlfq hi.stride hm, sub_zero] at hcap
    exact setCpuShare_over_cap (Or.inl ⟨hm, rfl⟩) (by rw [sub_zero]; exact hcap)
  · -- a running process outside the MLFQ levels was dispatched by its stride round
    have hsr : StrideRunning s p := hd.resolve_right fun hmr => hm (by
      simpa [isMlfq] using hi.procs.mlfqLev p hmr hrun)
    have hl := hi.procs.strideLev p hsr
    have hs : isStride (s.procs p) = true := by simpa [isStride] using hl
    have hm' : isMlfq (s.procs p) = false := by simpa using hm
    obtain ⟨item, hc⟩ := hsr
    obtain ⟨hn, htop, -⟩ := hi.stride.strideTop item p hc
    rcases hf : strideFindItem s.stride p with _ | i
    · -- a heap of one item: `stride_find_item` finds nothing and `stride_adjust` refuses
      rw [setCpuShare, if_neg (by simp [hm']), if_pos hs, hf]
      rfl
    · obtain rfl := hi.stride.findItem_eq_one hc hf
      rw [heldShare_of_top hi.stride hn htop] at hcap
      exact setCpuShare_over_cap (Or.inr ⟨hm', hs, 1, hf, rfl⟩) hcap

/-- **The share admission invariant on one CPU**, over every run in which no comparison of
passes wraps: `all_share` is the total of the heap's shares and at most `STRIDE_MAX_SHARE`;
once `scheduler()` has started, the MLFQ item holds its 22 and the stride processes together
at most the other 80; and a `set_cpu_share` of the running process that would take the total
past the cap returns `-1` and leaves the state as it was. -/
theorem share_cap_invariant {s : Sys 1} (h : Reachable 1 NoWrapStep s) :
    s.stride.allShare = (s.stride.q.contents.map (·.share)).sum ∧
    s.stride.allShare ≤ strideMaxShare ∧
    (s.cpus 0 ≠ .boot →
      (s.stride.q.contents.filter (·.isMLFQ = true)).map (·.share) = {strideMlfqShare} ∧
      ((s.stride.q.contents.filter (·.isMLFQ = false)).map (·.share)).sum ≤
        strideMaxShare - strideMlfqShare) ∧
    ∀ p share, runningOn s 0 = some p →
      strideMaxShare < s.stride.allShare - heldShare s.stride p + share →
      sysSetCpuShare s p share = some (-1, s) := by
  have hi := inv_reachable h
  have ho := order_reachable h
  have hcap := cap_reachable h
  refine ⟨hi.stride.sum, hcap.le, fun hb => ⟨mlfq_shares hi ho hb, ?_⟩,
    fun p share hp hover => sysSetCpuShare_over_cap hi hp hover⟩
  -- the others hold the total less the MLFQ item's 22
  have hsplit := sum_shares_split s.stride.q.contents
  rw [mlfq_shares hi ho hb, Multiset.sum_singleton, ← hi.stride.sum] at hsplit
  have := hcap.le
  omega

instance noWrap_decidable (s : Sys 1) : Decidable (NoWrap s) :=
  inferInstanceAs (Decidable (∀ a ∈ heapPasses s, ∀ b ∈ heapPasses s, CmpFits a b))

instance noWrapStep_decidable : DecidableRel NoWrapStep := fun s s' =>
  inferInstanceAs (Decidable (s.cpus 0 = .boot ∨
    (NoWrap s ∧ NoWrap s' ∧ CmpFits s.stride.maxPass s'.stride.maxPass)))

end Xv6
