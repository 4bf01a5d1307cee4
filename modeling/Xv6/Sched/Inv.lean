import Xv6.Sched.System
import Xv6.Sched.RoundSpec

/-!
# The invariant of a one-CPU kernel

`Inv s` is what every reachable state of a kernel with one CPU satisfies, whatever the
pass arithmetic does:

* `ProcInv`: levels are `0 … 2` or `STRIDE_PROC_LEVEL`; only the process the CPU has
  dispatched runs, and it is never `UNUSED` or an `EMBRYO`; the child of a `fork` in
  progress is an `EMBRYO`, and no two calls share one;
* `QueuesOk s (MlfqRunning s)`: each MLFQ queue holds, once each, the queued processes of
  its level, except the one `mlfq_scheduler` has dispatched; the two error flags are down;
* `StrideInv`: every item of the heap is the MLFQ item or the item of a stride process
  (runnable, asleep, or the one the current round runs), no process has two, `all_share`
  is the sum of the shares, and during a stride round the top is still the item the
  round copied.

The stride part needs no assumption on wrapping because the only place where wrapping
could change which items the heap holds is a failing `frac_add`, and `Frac.SmallTwos`
rules that out (`chargeItem_smallTwos`).
-/

set_option autoImplicit false

namespace Xv6

/-- CPU 0 waits for `q`, dispatched by a stride round. -/
def StrideRunning (s : Sys 1) (q : ProcId) : Prop := ∃ item, s.cpus 0 = .stride item q

/-- CPU 0 waits for `q`, dispatched by `mlfq_scheduler`. -/
def MlfqRunning (s : Sys 1) (q : ProcId) : Prop := ∃ item, s.cpus 0 = .mlfq item q

/-- `q` is a stride process the scheduler may run: at `STRIDE_PROC_LEVEL` and runnable,
asleep, or run by the current stride round. -/
def Strided (s : Sys 1) (q : ProcId) : Prop :=
  (s.procs q).lev = strideProcLevel ∧
    ((s.procs q).state = .runnable ∨ (s.procs q).state = .sleeping ∨ StrideRunning s q)

/-- The item is `q`'s own. -/
def StrideItem.OwnedBy (x : StrideItem) (q : ProcId) : Prop := x.isMLFQ = false ∧ x.proc = some q

instance (x : StrideItem) (q : ProcId) : Decidable (x.OwnedBy q) :=
  inferInstanceAs (Decidable (_ ∧ _))

/-- An item the round can charge: its share is one `sys_set_cpu_share` accepts (the MLFQ
item's is `STRIDE_MLFQ_SHARE`), and its pass has a denominator off multiples of `2^7`. -/
def StrideItem.Good (x : StrideItem) : Prop :=
  0 < x.share ∧ x.share ≤ 80 ∧ x.pass.SmallTwos ∧ (x.isMLFQ = true → x.share = strideMlfqShare)

/-- The child of a `fork` in progress. -/
def ForkStage.child : ForkStage → Option ProcId
  | .none => Option.none
  | .allocated np => some np
  | .pushed np => some np

/-- The process table. -/
structure ProcInv (s : Sys 1) : Prop where
  lev : ∀ q, (s.procs q).lev < nmlfq ∨ (s.procs q).lev = strideProcLevel
  running : ∀ q, (s.procs q).state = .running → StrideRunning s q ∨ MlfqRunning s q
  dispatched : ∀ q, StrideRunning s q ∨ MlfqRunning s q →
    (s.procs q).state ≠ .unused ∧ (s.procs q).state ≠ .embryo
  strideLev : ∀ q, StrideRunning s q → (s.procs q).lev = strideProcLevel
  mlfqLev : ∀ q, MlfqRunning s q → (s.procs q).state = .running → (s.procs q).lev < nmlfq
  child : ∀ p q, (s.forks p).child = some q → (s.procs q).state = .embryo
  pushedLev : ∀ p q, s.forks p = .pushed q → (s.procs q).lev < nmlfq
  childInj : ∀ p p' q, (s.forks p).child = some q → (s.forks p').child = some q → p = p'

/-- The stride queue. -/
structure StrideInv (s : Sys 1) : Prop where
  size_le : s.stride.q.size ≤ nproc
  slot0 : (s.stride.q.items 0).proc = none
  good : ∀ x ∈ s.stride.q.contents, x.Good
  owned : ∀ x ∈ s.stride.q.contents,
    (x.isMLFQ = true ∧ x.proc = none) ∨ ∃ q, x.OwnedBy q ∧ Strided s q
  atMostOne : ∀ q, s.stride.q.contents.countP (·.OwnedBy q) ≤ 1
  sum : s.stride.allShare = (s.stride.q.contents.map (·.share)).sum
  maxPass : s.cpus 0 ≠ .boot → s.stride.maxPass.SmallTwos
  strideTop : ∀ item q, s.cpus 0 = .stride item q →
    0 < s.stride.q.size ∧ (s.stride.q.items 1).OwnedBy q ∧
      (s.stride.q.items 1).pass = item.pass ∧ item.OwnedBy q ∧ item.Good
  mlfqTop : ∀ item q, s.cpus 0 = .mlfq item q →
    item.isMLFQ = true ∧ item.proc = none ∧ item.Good ∧ 0 < s.stride.q.size

/-- **The invariant of a one-CPU kernel.** -/
structure Inv (s : Sys 1) : Prop where
  procs : ProcInv s
  queues : QueuesOk s (MlfqRunning s)
  badLev : s.badLev = false
  pushFull : s.pushFull = false
  stride : StrideInv s

/-! ## The stride invariant under steps that leave the heap alone -/

theorem StrideInv.of_procs {s s' : Sys 1} (h : StrideInv s) (hst : s'.stride = s.stride)
    (hc : s'.cpus 0 = s.cpus 0) (hS : ∀ q, Strided s q → Strided s' q) : StrideInv s' where
  size_le := hst ▸ h.size_le
  slot0 := hst ▸ h.slot0
  good := hst ▸ h.good
  owned x hx := by
    rw [hst] at hx
    rcases h.owned x hx with hM | ⟨q, hq, hS'⟩
    · exact Or.inl hM
    · exact Or.inr ⟨q, hq, hS q hS'⟩
  atMostOne := hst ▸ h.atMostOne
  sum := hst ▸ h.sum
  maxPass hb := hst ▸ h.maxPass (hc ▸ hb)
  strideTop item q hq := hst ▸ h.strideTop item q (hc ▸ hq)
  mlfqTop item q hq := hst ▸ h.mlfqTop item q (hc ▸ hq)

/-! ## The stride invariant at the end of a round -/

/-- Two items of one owner would make its count two. -/
theorem StrideInv.not_owned_of_mem {s : Sys 1} (h : StrideInv s) {R : StrideItem}
    {C : Multiset StrideItem} (hC : R ::ₘ C = s.stride.q.contents) {q : ProcId}
    (hR : R.OwnedBy q) {x : StrideItem} (hx : x ∈ C) (hxq : x.OwnedBy q) : False := by
  have h1 := h.atMostOne q
  rw [← hC, Multiset.countP_cons, if_pos hR] at h1
  have : 0 < C.countP (·.OwnedBy q) := Multiset.countP_pos.mpr ⟨x, hx, hxq⟩
  omega

/-- **`stride_pass` keeps the stride invariant** when the copy is charged, the processes a
stride round is running own the top, and a process's copy belongs to the owner of the
top, who is a stride process that has given the CPU back. -/
theorem StrideInv.stridePass {s s' : Sys 1} {item : StrideItem} (h : StrideInv s)
    (hb : s.cpus 0 ≠ .boot) (hn : 0 < s.stride.q.size) (hg : item.Good)
    (hrun : ∀ q, StrideRunning s q → (s.stride.q.items 1).OwnedBy q)
    (hitem : (item.isMLFQ = true ∧ item.proc = none) ∨ ∃ q, item.OwnedBy q ∧ (s.stride.q.items 1).OwnedBy q ∧
      (s.procs q).lev = strideProcLevel ∧ ((s.procs q).state = .runnable ∨
        (s.procs q).state = .sleeping ∨ (s.procs q).state = .zombie))
    (hpass : stridePass s 0 item = some s') : StrideInv s' := by
  obtain ⟨hs0, hs80, hsp, hsM⟩ := hg
  have hle := h.size_le
  obtain ⟨q1, pass, hpop, -, hpass2, -, hmax, hframe, hPB, hNPB⟩ :=
    stridePass_spec hn h.size_le hsp (h.maxPass hb) hs0 (by omega) hpass
  obtain ⟨q1', hpop', hsize1, hcont1, hslot1⟩ := heapPopItem_contents hn
  rw [hpop] at hpop'; cases hpop'
  set R := s.stride.q.items 1
  have hCR : R ::ₘ q1.contents = s.stride.q.contents := hcont1
  have hprocs : s'.procs = s.procs := by rw [hframe]
  have hcpu : s'.cpus 0 = .idle := by rw [hframe]; simp
  -- the owners of the items that stay are still stride processes
  have hstay : ∀ x ∈ q1.contents,
      (x.isMLFQ = true ∧ x.proc = none) ∨ ∃ q, x.OwnedBy q ∧ Strided s' q := by
    intro x hx
    rcases h.owned x (hCR ▸ Multiset.mem_cons_of_mem hx) with hM | ⟨q, hq, hlev, hst⟩
    · exact Or.inl hM
    · refine Or.inr ⟨q, hq, by rw [hprocs]; exact hlev, ?_⟩
      rcases hst with hst | hst | hst
      · exact Or.inl (hprocs ▸ hst)
      · exact Or.inr (Or.inl (hprocs ▸ hst))
      · exact absurd (h.not_owned_of_mem hCR (hrun q hst) hx hq) id
  have hgood1 : ∀ x ∈ q1.contents, x.Good := fun x hx => h.good x (hCR ▸ Multiset.mem_cons_of_mem hx)
  have hsum1 : (q1.contents.map (·.share)).sum = s.stride.allShare - R.share := by
    rw [h.sum, ← hCR, Multiset.map_cons, Multiset.sum_cons]; ring
  have hcount1 : ∀ q, q1.contents.countP (·.OwnedBy q) ≤ 1 := fun q =>
    le_trans (Multiset.countP_le_of_le _ (hCR ▸ Multiset.le_cons_self q1.contents R)) (h.atMostOne q)
  by_cases hp : PushedBack s item
  · -- the charged copy is back
    obtain ⟨hpush, hall⟩ := hPB hp
    obtain ⟨q2, hpush', hsize2, hcont2, hslot2⟩ :=
      heapPushItem_contents (h := q1) { item with pass } (by omega)
    have hq2 : s'.stride.q = q2 := Option.some.inj (hpush.symm.trans hpush')
    refine ⟨by rw [hq2]; omega, by rw [hq2, hslot2, hslot1]; exact h.slot0, ?_, ?_, ?_, ?_,
      fun _ => hmax, ?_, ?_⟩
    · rw [hq2, hcont2]
      intro x hx
      rcases Multiset.mem_cons.mp hx with rfl | hx
      · exact ⟨hs0, hs80, hpass2, hsM⟩
      · exact hgood1 x hx
    · rw [hq2, hcont2]
      intro x hx
      rcases Multiset.mem_cons.mp hx with rfl | hx
      · rcases hitem with hM | ⟨q, hq, -, hlev, hst⟩
        · exact Or.inl hM
        · refine Or.inr ⟨q, hq, by rw [hprocs]; exact hlev, ?_⟩
          rw [hprocs]
          rcases hp with hM | ⟨p, hp, hz⟩
          · exact absurd hM (by rw [hq.1]; simp)
          · obtain rfl : p = q := Option.some.inj (hp.symm.trans hq.2)
            rcases hst with hst | hst | hst
            · exact Or.inl hst
            · exact Or.inr (Or.inl hst)
            · exact absurd hst hz
      · exact hstay x hx
    · intro q
      rw [hq2, hcont2]
      by_cases hq : ({ item with pass } : StrideItem).OwnedBy q
      · rw [Multiset.countP_cons, if_pos hq]
        -- the copy's owner owned the popped top, so no other item of it stays
        rcases hitem with hM | ⟨q', hq', hR, -⟩
        · exact absurd hM.1 (by rw [hq.1]; simp)
        · obtain rfl : q' = q := Option.some.inj (hq'.2.symm.trans hq.2)
          have : q1.contents.countP (·.OwnedBy q') = 0 :=
            Multiset.countP_eq_zero.mpr fun x hx hxq => h.not_owned_of_mem hCR hR hx hxq
          omega
      · rw [Multiset.countP_cons, if_neg hq]; exact hcount1 q
    · rw [hq2, hcont2, Multiset.map_cons, Multiset.sum_cons, hsum1, hall]; ring
    · intro item' q hq; rw [hcpu] at hq; cases hq
    · intro item' q hq; rw [hcpu] at hq; cases hq
  · -- no push: the top is gone
    obtain ⟨hq1, hall⟩ := hNPB hp
    refine ⟨by rw [hq1]; omega, by rw [hq1, hslot1]; exact h.slot0, hq1 ▸ hgood1, hq1 ▸ hstay,
      hq1 ▸ hcount1, ?_, fun _ => hmax, ?_, ?_⟩
    · rw [hq1, hsum1, hall]
    · intro item' q hq; rw [hcpu] at hq; cases hq
    · intro item' q hq; rw [hcpu] at hq; cases hq

end Xv6
