import Xv6.Sched.InvFork
import Xv6.Sched.InvShare

/-!
# The invariant under the scheduler's own steps, and over whole runs

A round starts at `idle` and dispatches (`dispatch`), or ends at once in `stride_pass`;
a dispatch ends when the process has given the CPU back and the round goes on
(`resume`). `Inv.of_stridePass` and `Inv.of_mlfqScheduler` are the two ways a round
continues from a state where nobody runs: the end of the round, and the MLFQ scan. The
round's start, both kinds of resume, and the MLFQ scheduler's own loop all reduce to
them. `inv_reachable` is the induction over runs.
-/

set_option autoImplicit false

namespace Xv6

variable {s : Sys 1}

/-! ## The CPU's phase -/

theorem not_strideRunning_of {q : ProcId} (hc : s.cpus 0 = .idle ∨ s.cpus 0 = .boot ∨
    ∃ item p, s.cpus 0 = .mlfq item p) : ¬ StrideRunning s q := by
  rintro ⟨i, hi⟩
  rcases hc with hc | hc | ⟨item, p, hc⟩ <;> rw [hc] at hi <;> cases hi

theorem not_mlfqRunning_of {q : ProcId} (hc : s.cpus 0 = .idle ∨ s.cpus 0 = .boot ∨
    ∃ item p, s.cpus 0 = .stride item p) : ¬ MlfqRunning s q := by
  rintro ⟨i, hi⟩
  rcases hc with hc | hc | ⟨item, p, hc⟩ <;> rw [hc] at hi <;> cases hi

/-- With nobody running, the CPU can go idle. -/
theorem ProcInv.idle {s' : Sys 1} (h : ProcInv s) (hnr : ∀ q, (s.procs q).state ≠ .running)
    (hp : s'.procs = s.procs) (hf : s'.forks = s.forks) (hc : s'.cpus 0 = .idle) :
    ProcInv s' := by
  have hS : ∀ q, ¬ StrideRunning s' q := fun q => not_strideRunning_of (Or.inl hc)
  have hM : ∀ q, ¬ MlfqRunning s' q := fun q => not_mlfqRunning_of (Or.inl hc)
  refine ⟨fun q => ?_, fun q hq => ?_, fun q hq => ?_, fun q hq => absurd hq (hS q),
    fun q hq => absurd hq (hM q), fun p q hq => ?_, fun p q hq => ?_, fun p p' q => ?_⟩
  · rw [hp]; exact h.lev q
  · rw [hp] at hq; exact absurd hq (hnr q)
  · rcases hq with hq | hq
    · exact absurd hq (hS q)
    · exact absurd hq (hM q)
  · rw [hf] at hq; rw [hp]; exact h.child p q hq
  · rw [hf] at hq; rw [hp]; exact h.pushedLev p q hq
  · rw [hf]; exact h.childInj p p' q

/-- With the CPU idle or before `scheduler()`, nobody runs. -/
theorem ProcInv.not_running (h : ProcInv s) (hc : s.cpus 0 = .idle ∨ s.cpus 0 = .boot)
    (q : ProcId) : (s.procs q).state ≠ .running := fun hq => by
  rcases h.running q hq with hd | hd
  · exact not_strideRunning_of (hc.elim Or.inl fun hb => Or.inr (Or.inl hb)) hd
  · exact not_mlfqRunning_of (hc.elim Or.inl fun hb => Or.inr (Or.inl hb)) hd

/-- What MLFQ operations do to levels keeps `ProcInv`. -/
theorem ProcInv.of_levFrame {s' : Sys 1} (h : ProcInv s) (hl : LevFrame s s')
    (hc : s'.cpus 0 = s.cpus 0) (hf : s'.forks = s.forks) : ProcInv s' := by
  have hS : ∀ q, StrideRunning s' q ↔ StrideRunning s q := fun q => by
    simp only [StrideRunning, hc]
  have hM : ∀ q, MlfqRunning s' q ↔ MlfqRunning s q := fun q => by simp only [MlfqRunning, hc]
  -- a stride level is not below `NMLFQ`, so it is kept
  have h100 : ∀ q, (s.procs q).lev = strideProcLevel → (s'.procs q).lev = strideProcLevel :=
    fun q hq => by rw [(hl q).2.2 (by rw [hq]; decide), hq]
  refine ⟨fun q => ?_, fun q hq => ?_, fun q hq => ?_, fun q hq => ?_, fun q hq hr => ?_,
    fun p q hq => ?_, fun p q hq => ?_, fun p p' q => ?_⟩
  · rcases h.lev q with hq | hq
    · exact Or.inl ((hl q).2.1 hq)
    · exact Or.inr (h100 q hq)
  · rw [(hl q).1] at hq; rw [hS, hM]; exact h.running q hq
  · rw [hS, hM] at hq; rw [(hl q).1]; exact h.dispatched q hq
  · exact h100 q (h.strideLev q ((hS q).mp hq))
  · rw [(hl q).1] at hr; exact (hl q).2.1 (h.mlfqLev q ((hM q).mp hq) hr)
  · rw [hf] at hq; rw [(hl q).1]; exact h.child p q hq
  · rw [hf] at hq; exact (hl q).2.1 (h.pushedLev p q hq)
  · rw [hf]; exact h.childInj p p' q

theorem Strided.of_levFrame {s' : Sys 1} {q : ProcId} (hl : LevFrame s s')
    (hc : s'.cpus 0 = s.cpus 0) (hq : Strided s q) : Strided s' q := by
  obtain ⟨hlev, hst⟩ := hq
  refine ⟨by rw [(hl q).2.2 (by rw [hlev]; decide), hlev], ?_⟩
  rw [(hl q).1]
  simpa only [StrideRunning, hc] using hst

/-- A change of the CPU's phase alone, with the tops it needs. -/
theorem StrideInv.setPhase {s' : Sys 1} (h : StrideInv s) (hst : s'.stride = s.stride)
    (hb : s.cpus 0 ≠ .boot) (hS : ∀ q, Strided s q → Strided s' q)
    (htop : ∀ item q, s'.cpus 0 = .stride item q →
      0 < s.stride.q.size ∧ (s.stride.q.items 1).OwnedBy q ∧
        (s.stride.q.items 1).pass = item.pass ∧ item.OwnedBy q ∧ item.Good)
    (hmt : ∀ item q, s'.cpus 0 = .mlfq item q →
      item.isMLFQ = true ∧ item.proc = none ∧ item.Good ∧ 0 < s.stride.q.size) :
    StrideInv s' where
  size_le := hst ▸ h.size_le
  slot0 := hst ▸ h.slot0
  good := hst ▸ h.good
  owned x hx := by
    rw [hst] at hx
    rcases h.owned x hx with hM | ⟨q, hq, hS'⟩
    · exact Or.inl hM
    · exact Or.inr ⟨q, hq, hS q hS'⟩
  atMostOne := hst ▸ h.atMostOne
  sum := hst ▸ h.sum
  maxPass _ := hst ▸ h.maxPass hb
  strideTop item q hq := hst ▸ htop item q hq
  mlfqTop item q hq := hst ▸ hmt item q hq

/-! ## Two ways a round goes on -/

/-- **The end of a round**, from a state where nobody runs and the queues hold every
queued process: the invariant holds again with the CPU idle. -/
theorem Inv.of_stridePass {s' : Sys 1} {item : StrideItem} (hP : ProcInv s)
    (hnr : ∀ q, (s.procs q).state ≠ .running) (hq : QueuesOk s fun _ => False)
    (hbad : s.badLev = false) (hfull : s.pushFull = false) (hS : StrideInv s)
    (hb : s.cpus 0 ≠ .boot) (hn : 0 < s.stride.q.size) (hg : item.Good)
    (hrun : ∀ q, StrideRunning s q → (s.stride.q.items 1).OwnedBy q)
    (hitem : (item.isMLFQ = true ∧ item.proc = none) ∨ ∃ q, item.OwnedBy q ∧
      (s.stride.q.items 1).OwnedBy q ∧ (s.procs q).lev = strideProcLevel ∧
      ((s.procs q).state = .runnable ∨ (s.procs q).state = .sleeping ∨
        (s.procs q).state = .zombie))
    (h : stridePass s 0 item = some s') : Inv s' := by
  obtain ⟨-, -, -, -, -, -, -, hframe, -, -⟩ :=
    stridePass_spec hn hS.size_le hg.2.2.1 (hS.maxPass hb) hg.1 (by have := hg.2.1; omega) h
  have hprocs : s'.procs = s.procs := by rw [hframe]
  have hcpu : s'.cpus 0 = .idle := by rw [hframe]; simp
  refine ⟨hP.idle hnr hprocs (by rw [hframe]) hcpu, ?_, by rw [hframe]; exact hbad,
    by rw [hframe]; exact hfull, hS.stridePass hb hn hg hrun hitem h⟩
  exact (hq.congr hprocs (by rw [hframe]) (by rw [hframe])).of_procs rfl
    (fun x => iff_false_intro (not_mlfqRunning_of (Or.inl hcpu))) fun _ _ => ⟨Iff.rfl, rfl⟩

/-- **The MLFQ scan of a round holding the MLFQ item**, from a state where nobody runs:
either it dispatches the first runnable MLFQ process, or the round ends. -/
theorem Inv.of_mlfqScheduler {s' : Sys 1} {item : StrideItem} (hP : ProcInv s)
    (hnr : ∀ q, (s.procs q).state ≠ .running) (hq : QueuesOk s fun _ => False)
    (hbad : s.badLev = false) (hfull : s.pushFull = false) (hS : StrideInv s)
    (hc : s.cpus 0 = .idle ∨ ∃ p, s.cpus 0 = .mlfq item p)
    (hM : item.isMLFQ = true ∧ item.proc = none) (hg : item.Good) (hn : 0 < s.stride.q.size)
    (h : mlfqScheduler s 0 item = some s') : Inv s' := by
  have hb : s.cpus 0 ≠ .boot := by rcases hc with hc | ⟨p, hc⟩ <;> rw [hc] <;> simp
  have hnS : ∀ q, ¬ StrideRunning s q := fun q => not_strideRunning_of
    (hc.elim Or.inl fun h => h.elim fun p hp => Or.inr (Or.inr ⟨item, p, hp⟩))
  obtain ⟨s1, r, hscan, ⟨p, rfl, rfl⟩ | ⟨rfl, hpass⟩⟩ := mlfqScheduler_cases h
  all_goals obtain ⟨hframe, hnone, hsome⟩ := mlfqScan_spec hq hscan
  all_goals have hp1 : s1.procs = s.procs := by rw [hframe]
  all_goals have hc1 : s1.cpus = s.cpus := by rw [hframe]
  all_goals have hfk1 : s1.forks = s.forks := by rw [hframe]
  all_goals have hst1 : s1.stride = s.stride := by rw [hframe]
  · -- a runnable MLFQ process is dispatched
    obtain ⟨hq1, hrun, hQ, -⟩ := hsome p rfl
    set s' := dispatch s1 0 p (.mlfq item p)
    have hcpu : s'.cpus 0 = .mlfq item p := by simp [s', dispatch]
    have hf' : s'.forks = s.forks := by simp [s', dispatch, hfk1]
    have hM' : ∀ x, MlfqRunning s' x ↔ x = p := fun x => by
      simp only [MlfqRunning, hcpu, Phase.mlfq.injEq]
      exact ⟨fun h => h.elim fun _ hx => hx.2.symm, fun hx => ⟨item, rfl, hx.symm⟩⟩
    have hnS' : ∀ x, ¬ StrideRunning s' x :=
      fun x => not_strideRunning_of (Or.inr (Or.inr ⟨item, p, hcpu⟩))
    have hother : ∀ x, x ≠ p → s'.procs x = s.procs x := fun x hx => by
      simp [s', dispatch, Sys.setState_procs_of_ne _ _ _ hx, hp1]
    have hpp : s'.procs p = { s.procs p with state := .running } := by simp [s', dispatch, hp1]
    refine ⟨⟨fun x => ?_, fun x hx => ?_, fun x hx => ?_, fun x hx => absurd hx (hnS' x),
      fun x hx _ => ?_, fun p' x hx => ?_, fun p' x hx => ?_, fun p₁ p₂ x => ?_⟩, ?_, ?_, ?_, ?_⟩
    · by_cases hxp : x = p
      · subst hxp; rw [hpp]; exact hP.lev x
      · rw [hother x hxp]; exact hP.lev x
    · by_cases hxp : x = p
      · exact Or.inr ((hM' x).mpr hxp)
      · rw [hother x hxp] at hx; exact absurd hx (hnr x)
    · rw [(hM' x).mp (hx.resolve_left (hnS' x)), hpp]
      exact ⟨by simp, by simp⟩
    · rw [(hM' x).mp hx, hpp]; exact hQ.1
    · rw [hf'] at hx
      have hx' : x ≠ p := fun hxp => by
        have := hP.child p' x hx; rw [hxp, hrun] at this; cases this
      rw [hother x hx']; exact hP.child p' x hx
    · rw [hf'] at hx
      rw [hother x fun hxp => by
        have := hP.child p' x (by rw [hx]; rfl); rw [hxp, hrun] at this; cases this]
      exact hP.pushedLev p' x hx
    · rw [hf']; exact hP.childInj p₁ p₂ x
    · exact hq1.of_procs (by simp [s', dispatch]) (fun x => by rw [hM']; simp)
        fun x hx => by
          have hxp : x ≠ p := fun hxp => hx (Or.inr hxp)
          exact ⟨Queued.of_eq (by rw [hother x hxp, hp1]) (by rw [hf', hfk1]),
            by rw [hother x hxp, hp1]⟩
    · simp only [s', dispatch, Sys.setCpu_badLev, Sys.setState_badLev]; rw [hframe]; exact hbad
    · simp only [s', dispatch, Sys.setCpu_pushFull, Sys.setState_pushFull]; rw [hframe]
      exact hfull
    · refine hS.setPhase (by simp [s', dispatch, hst1]) hb (fun x hx => ?_)
        (fun item' q hq' => by rw [hcpu] at hq'; cases hq')
        (fun item' q hq' => by rw [hcpu] at hq'; cases hq'; exact ⟨hM.1, hM.2, hg, hn⟩)
      -- a stride process is not the one dispatched, and was runnable or asleep
      obtain ⟨hlev, hst⟩ := hx
      have hxp : x ≠ p := fun hxp => by
        have := hQ.1; rw [← hxp, hlev] at this; exact absurd this (by decide)
      rw [Strided, hother x hxp]
      exact ⟨hlev, hst.imp_right fun h' => h'.imp_right fun h'' => absurd h'' (hnS x)⟩
  · -- nothing runnable: the round ends
    refine Inv.of_stridePass (hP.of_frame (by rw [hc1]) hfk1 fun x => by rw [hp1]; exact ⟨rfl, rfl⟩)
      (fun x => by rw [hp1]; exact hnr x) (hnone rfl) (by rw [hframe]; exact hbad)
      (by rw [hframe]; exact hfull) (hS.of_procs (by rw [hframe]) (by rw [hc1])
        fun x hx => (Strided.of_eq (by rw [hp1]) (by rw [hc1])).mpr hx)
      (by rw [hc1]; exact hb) (by rw [hframe]; exact hn) hg
      (fun x hx => absurd hx (by simp only [StrideRunning, hc1]; exact hnS x)) (Or.inl hM) hpass

/-! ## The scheduler's steps -/

/-- The MLFQ-dispatched process is a set-aside process of `QueuesOk`. -/
theorem QueuesOk.of_nobody {E : ProcId → Prop} (hq : QueuesOk s E) (hE : ∀ x, ¬ E x) :
    QueuesOk s fun _ => False :=
  hq.of_procs rfl (fun x => iff_of_false id (hE x)) fun _ _ => ⟨Iff.rfl, rfl⟩

/-- **A stride round dispatches the owner of its top item**, a runnable stride process. -/
theorem Inv.dispatchStride {p : ProcId} (h : Inv s) (hi : s.cpus 0 = .idle)
    (hn : 0 < s.stride.q.size) (hg : (s.stride.q.items 1).Good)
    (hown : (s.stride.q.items 1).OwnedBy p ∧ Strided s p) (hrun : (s.procs p).state = .runnable) :
    Inv (dispatch s 0 p (.stride (s.stride.q.items 1) p)) := by
  have hnr := h.procs.not_running (Or.inl hi)
  have hq := h.queues.of_nobody fun x => not_mlfqRunning_of (Or.inl hi)
  have hnS : ∀ q, ¬ StrideRunning s q := fun q => not_strideRunning_of (Or.inl hi)
  have hb : s.cpus 0 ≠ .boot := by rw [hi]; simp
  have hlev := hown.2.1
  set s' := dispatch s 0 p (.stride (s.stride.q.items 1) p)
  have hcpu : s'.cpus 0 = .stride (s.stride.q.items 1) p := by simp [s', dispatch]
  have hf' : s'.forks = s.forks := by simp [s', dispatch]
  have hS' : ∀ x, StrideRunning s' x ↔ x = p := fun x => by
    simp only [StrideRunning, hcpu, Phase.stride.injEq]
    exact ⟨fun h => h.elim fun _ hx => hx.2.symm, fun hx => ⟨_, rfl, hx.symm⟩⟩
  have hnM' : ∀ x, ¬ MlfqRunning s' x :=
    fun x => not_mlfqRunning_of (Or.inr (Or.inr ⟨_, p, hcpu⟩))
  have hother : ∀ x, x ≠ p → s'.procs x = s.procs x := fun x hx => by
    simp [s', dispatch, Sys.setState_procs_of_ne _ _ _ hx]
  have hpp : s'.procs p = { s.procs p with state := .running } := by simp [s', dispatch]
  refine ⟨⟨fun x => ?_, fun x hx => ?_, fun x hx => ?_, fun x hx => ?_,
    fun x hx => absurd hx (hnM' x), fun p' x hx => ?_, fun p' x hx => ?_,
    fun p₁ p₂ x => h.procs.childInj p₁ p₂ x⟩, ?_, h.badLev, h.pushFull, ?_⟩
  · by_cases hxp : x = p
    · subst hxp; rw [hpp]; exact h.procs.lev x
    · rw [hother x hxp]; exact h.procs.lev x
  · by_cases hxp : x = p
    · exact Or.inl ((hS' x).mpr hxp)
    · rw [hother x hxp] at hx; exact absurd hx (hnr x)
  · rw [(hS' x).mp (hx.resolve_right (hnM' x)), hpp]
    exact ⟨by simp, by simp⟩
  · rw [(hS' x).mp hx, hpp]; exact hlev
  · rw [hf'] at hx
    have hx' : x ≠ p := fun hxp => by
      have := h.procs.child p' x hx; rw [hxp, hrun] at this; cases this
    rw [hother x hx']; exact h.procs.child p' x hx
  · rw [hf'] at hx
    rw [hother x fun hxp => by
      have := h.procs.child p' x (by rw [hx]; rfl); rw [hxp, hrun] at this; cases this]
    exact h.procs.pushedLev p' x hx
  · -- `p` is at the stride level, so in no queue, before and after
    refine hq.of_procs (by simp [s', dispatch]) (fun x => iff_of_false (hnM' x) id)
      fun x _ => ?_
    by_cases hxp : x = p
    · subst hxp
      have hl : ¬ (s.procs x).lev < nmlfq := by rw [hlev]; decide
      refine ⟨?_, by rw [hpp]⟩
      simp only [Queued, hpp, hl, false_and]
    · exact ⟨Queued.of_eq (hother x hxp) (by simp [s', dispatch]), by rw [hother x hxp]⟩
  · refine h.stride.setPhase (by simp [s', dispatch]) hb (fun x hx => ?_)
      (fun item' q hq' => ?_) (fun item' q hq' => absurd ⟨item', hq'⟩ (hnM' q))
    · by_cases hxp : x = p
      · subst hxp
        exact ⟨by rw [hpp]; exact hlev, Or.inr (Or.inr ((hS' x).mpr rfl))⟩
      · obtain ⟨hl, hst'⟩ := hx
        rw [Strided, hother x hxp]
        exact ⟨hl, hst'.imp_right fun h' => h'.imp_right fun h'' => absurd h'' (hnS x)⟩
    · rw [hcpu] at hq'
      cases hq'
      exact ⟨hn, hown.1, rfl, hown.1, hg⟩

/-- **The start of a round.** -/
theorem Inv.round {s' : Sys 1} (h : Inv s) (hi : s.cpus 0 = .idle)
    (hs : strideScheduler s 0 = some s') : Inv s' := by
  have hnr := h.procs.not_running (Or.inl hi)
  have hq := h.queues.of_nobody fun x => not_mlfqRunning_of (Or.inl hi)
  have hnS : ∀ q, ¬ StrideRunning s q := fun q => not_strideRunning_of (Or.inl hi)
  have hb : s.cpus 0 ≠ .boot := by rw [hi]; simp
  obtain ⟨hn, ⟨hM, hmlfq⟩ | ⟨hM, p, hpr, hdisp⟩⟩ := strideScheduler_cases hs
  all_goals have htop := s.stride.q.top_mem hn
  all_goals have hg := h.stride.good _ htop
  · -- the MLFQ item: its copy carries no process
    have hproc : (s.stride.q.items 1).proc = none := by
      rcases h.stride.owned _ htop with ⟨-, hn'⟩ | ⟨q, hq', -⟩
      · exact hn'
      · rw [hq'.1] at hM; cases hM
    exact Inv.of_mlfqScheduler h.procs hnr hq h.badLev h.pushFull h.stride (Or.inl hi)
      ⟨hM, hproc⟩ hg hn hmlfq
  · -- a stride item: it is `p`'s, and `p` is a stride process
    have hown : (s.stride.q.items 1).OwnedBy p ∧ Strided s p := by
      rcases h.stride.owned _ htop with ⟨hM', -⟩ | ⟨q, hq', hsq⟩
      · rw [hM] at hM'; cases hM'
      · obtain rfl : q = p := Option.some.inj (hq'.2.symm.trans hpr)
        exact ⟨hq', hsq⟩
    obtain ⟨hlev, hst⟩ := hown.2
    rcases hdisp with ⟨hrun, rfl⟩ | ⟨hnrun, hpass⟩
    · -- `p` runnable: dispatched by the stride round
      exact h.dispatchStride hi hn hg hown hrun
    · -- `p` not runnable: asleep, and the round ends at once
      have hsl : (s.procs p).state = .sleeping := by
        rcases hst with h' | h' | h'
        · exact absurd h' hnrun
        · exact h'
        · exact absurd h' (hnS p)
      exact Inv.of_stridePass h.procs hnr hq h.badLev h.pushFull h.stride hb hn hg
        (fun q hq' => absurd hq' (hnS q))
        (Or.inr ⟨p, hown.1, hown.1, hlev, Or.inr (Or.inl hsl)⟩) hpass

/-- A dispatched process that no longer runs is runnable, asleep or a zombie. -/
theorem ProcInv.state_of_dispatched {p : ProcId} (h : ProcInv s)
    (hd : StrideRunning s p ∨ MlfqRunning s p) (hr : (s.procs p).state ≠ .running) :
    (s.procs p).state = .runnable ∨ (s.procs p).state = .sleeping ∨
      (s.procs p).state = .zombie := by
  obtain ⟨hu, he⟩ := h.dispatched p hd
  cases hst : (s.procs p).state <;> simp_all

/-- On one CPU, only the dispatched process may run. -/
theorem ProcInv.not_running_of_dispatched {p : ProcId} (h : ProcInv s)
    (hd : StrideRunning s p ∨ MlfqRunning s p) (hr : (s.procs p).state ≠ .running)
    (q : ProcId) : (s.procs q).state ≠ .running := fun hq => by
  obtain rfl := dispatched_eq hd (h.running q hq)
  exact hr hq

/-- **The end of a stride dispatch.** -/
theorem Inv.resumeStride {s' : Sys 1} {item : StrideItem} {p : ProcId} (h : Inv s)
    (hc : s.cpus 0 = .stride item p) (hr : (s.procs p).state ≠ .running)
    (hs : stridePass s 0 item = some s') : Inv s' := by
  have hd : StrideRunning s p := ⟨item, hc⟩
  obtain ⟨hn, htop, -, hown, hg⟩ := h.stride.strideTop item p hc
  have hq := h.queues.of_nobody fun x => not_mlfqRunning_of (Or.inr (Or.inr ⟨item, p, hc⟩))
  exact Inv.of_stridePass h.procs (h.procs.not_running_of_dispatched (Or.inl hd) hr) hq
    h.badLev h.pushFull h.stride (by rw [hc]; simp) hn hg
    (fun q hq' => by obtain rfl := hq'.eq hd; exact htop)
    (Or.inr ⟨p, hown, htop, h.procs.strideLev p hd, h.procs.state_of_dispatched (Or.inl hd) hr⟩) hs

/-- **The end of an MLFQ dispatch**: `mlfq_scheduler` re-pushes the process, demotes and
boosts, and then goes back to the stride round or scans again. -/
theorem Inv.resumeMlfq {s' : Sys 1} {item : StrideItem} {p : ProcId} (h : Inv s)
    (hc : s.cpus 0 = .mlfq item p) (hr : (s.procs p).state ≠ .running)
    (hs : mlfqResume s 0 item p = some s') : Inv s' := by
  have hd : MlfqRunning s p := ⟨item, hc⟩
  obtain ⟨hM, hproc, hg, hn⟩ := h.stride.mlfqTop item p hc
  have hnr := h.procs.not_running_of_dispatched (Or.inr hd) hr
  have hnS : ∀ q, ¬ StrideRunning s q := fun q => not_strideRunning_of (Or.inr (Or.inr ⟨item, p, hc⟩))
  -- `p` is the set-aside process of the queues
  have hqp : QueuesOk s fun x => False ∨ x = p :=
    h.queues.of_procs rfl (fun x => ⟨fun hx => hx.elim False.elim fun hxp => hxp ▸ hd,
      fun hx => Or.inr (hx.eq hd)⟩) fun _ _ => ⟨Iff.rfl, rfl⟩
  obtain ⟨s1, hafter, hnext⟩ := mlfqResume_cases hs
  obtain ⟨hf1, hl1, hq1⟩ := mlfqAfterRun_spec hqp id (h.procs.state_of_dispatched (Or.inr hd) hr)
    hafter
  set s2 := s1.modifyProc p fun pr => { pr with yieldBy := 0 }
  have ht : TickFrame s1 s2 := TickFrame.modifyProc ⟨rfl, rfl⟩
  have hc1 : s1.cpus = s.cpus := by rw [hf1]
  have hc2 : s2.cpus 0 = s.cpus 0 := by rw [ht.2.2.1, hc1]
  have hP2 : ProcInv s2 :=
    (h.procs.of_levFrame hl1 (by rw [hc1]) (by rw [hf1])).of_frame (by rw [ht.2.2.1])
      ht.2.2.2.1 ht.2.2.2.2.2.2
  have hnr2 : ∀ q, (s2.procs q).state ≠ .running := fun q => by
    rw [(ht.2.2.2.2.2.2 q).1, (hl1 q).1]; exact hnr q
  have hq2 := hq1.of_tickFrame ht
  have hb2 : s2.badLev = false := by rw [ht.2.2.2.2.1]; rw [hf1]; exact h.badLev
  have hf2 : s2.pushFull = false := by rw [ht.2.2.2.2.2.1]; rw [hf1]; exact h.pushFull
  have hst2 : s2.stride = s.stride := by rw [ht.1, hf1]
  have hS2 : StrideInv s2 := h.stride.of_procs hst2 hc2 fun x hx => by
    have := Strided.of_levFrame hl1 (by rw [hc1]) hx
    obtain ⟨hl, hst⟩ := this
    exact ⟨by rw [(ht.2.2.2.2.2.2 x).2]; exact hl, by
      rw [(ht.2.2.2.2.2.2 x).1]; simpa only [StrideRunning, ht.2.2.1] using hst⟩
  rcases hnext with ⟨-, hpass⟩ | ⟨-, hsched⟩
  · exact Inv.of_stridePass hP2 hnr2 hq2 hb2 hf2 hS2 (by rw [hc2, hc]; simp)
      (by rw [hst2]; exact hn) hg (fun q hq' => absurd hq' (by
        simp only [StrideRunning, hc2]; exact hnS q)) (Or.inl ⟨hM, hproc⟩) hpass
  · exact Inv.of_mlfqScheduler hP2 hnr2 hq2 hb2 hf2 hS2 (Or.inr ⟨p, by rw [hc2, hc]⟩)
      ⟨hM, hproc⟩ hg (by rw [hst2]; exact hn) hsched

end Xv6
