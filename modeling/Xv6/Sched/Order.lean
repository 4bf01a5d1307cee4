import Xv6.Sched.InvRun

/-!
# The order of the stride heap, while no comparison wraps

`frac_is_less_than` is the order of the passes only while its products fit in a `uint`
(`fracIsLessThan_iff`). `NoWrapStep` is a transition in which every comparison between
the passes the queue holds fits, before and after, including the comparison of the old and
the new `max_pass`. Along such transitions `OrderInv` holds besides `Inv`: the heap is a
min-heap, no pass is past `max_pass`, the MLFQ item is there once, every stride process has
an item, and while `mlfq_scheduler` runs the top is still the MLFQ item the round read.
These are the facts the pass arithmetic takes away in `pass_wraps`.
-/

set_option autoImplicit false

namespace Xv6

variable {s : Sys 1}

/-! ## Comparisons that fit -/

/-- The passes the stride queue holds: `max_pass` and those of the items in the heap. -/
def heapPasses (s : Sys 1) : Multiset Frac :=
  s.stride.maxPass ::ₘ s.stride.q.contents.map (·.pass)

/-- No comparison between two passes the stride queue holds wraps. -/
def NoWrap (s : Sys 1) : Prop := ∀ a ∈ heapPasses s, ∀ b ∈ heapPasses s, CmpFits a b

/-- A transition in which no comparison of passes wraps: one from before `stride_init`
(when `max_pass` is still `0 / 0`), or one whose two ends are `NoWrap` and whose old and new
`max_pass` compare without wrapping. -/
def NoWrapStep (s s' : Sys 1) : Prop :=
  s.cpus 0 = .boot ∨ (NoWrap s ∧ NoWrap s' ∧ CmpFits s.stride.maxPass s'.stride.maxPass)

theorem NoWrap.passesFit (h : NoWrap s) : PassesFit s.stride.q.contents := fun _ hx _ hy =>
  h _ (Multiset.mem_cons_of_mem (Multiset.mem_map_of_mem _ hx)) _
    (Multiset.mem_cons_of_mem (Multiset.mem_map_of_mem _ hy))

theorem NoWrap.maxPass_fits (h : NoWrap s) {x : StrideItem} (hx : x ∈ s.stride.q.contents) :
    CmpFits s.stride.maxPass x.pass :=
  h _ (Multiset.mem_cons_self _ _) _ (Multiset.mem_cons_of_mem (Multiset.mem_map_of_mem _ hx))

theorem NoWrap.of_stride {s' : Sys 1} (h : NoWrap s) (hst : s'.stride = s.stride) : NoWrap s' := by
  unfold NoWrap heapPasses
  rw [hst]
  exact h

/-! ## The invariant -/

/-- **The order invariant.** -/
structure OrderInv (s : Sys 1) : Prop where
  atBoot : s.cpus 0 = .boot → ∀ q, ¬ Strided s q
  ordered : s.stride.q.Ordered
  belowMax : ∀ x ∈ s.stride.q.contents, x.pass.val ≤ s.stride.maxPass.val
  oneMlfq : s.cpus 0 ≠ .boot → s.stride.q.contents.countP (·.isMLFQ) = 1
  hasItem : ∀ q, Strided s q → ∃ x ∈ s.stride.q.contents, x.OwnedBy q
  mlfqTop : ∀ item q, s.cpus 0 = .mlfq item q → s.stride.q.items 1 = item

/-- Only the stride queue, the CPU's phase and who is a stride process count; a step that
makes nobody a stride process keeps the invariant. -/
theorem OrderInv.of_procs {s' : Sys 1} (h : OrderInv s) (hst : s'.stride = s.stride)
    (hc : s'.cpus 0 = s.cpus 0) (hS : ∀ q, Strided s' q → Strided s q) : OrderInv s' where
  atBoot hb q hq := h.atBoot (hc ▸ hb) q (hS q hq)
  ordered := hst ▸ h.ordered
  belowMax := hst ▸ h.belowMax
  oneMlfq hb := hst ▸ h.oneMlfq (hc ▸ hb)
  hasItem q hq := hst ▸ h.hasItem q (hS q hq)
  mlfqTop item q hq := hst ▸ h.mlfqTop item q (hc ▸ hq)

/-- A step that writes one process's record only. -/
theorem OrderInv.of_one {s' : Sys 1} {p : ProcId} (h : OrderInv s) (hst : s'.stride = s.stride)
    (hc : s'.cpus 0 = s.cpus 0) (hx : ∀ x, x ≠ p → s'.procs x = s.procs x)
    (hp : Strided s' p → Strided s p) : OrderInv s' :=
  h.of_procs hst hc fun q hq => by
    by_cases hqp : q = p
    · subst hqp; exact hp hq
    · exact (Strided.of_eq (hx q hqp) hc).mp hq

/-- A change of state that makes a stride process runnable or asleep only if it was a stride
process already. -/
theorem OrderInv.setState {p : ProcId} {st : ProcState} (h : OrderInv s)
    (hp : st = .runnable ∨ st = .sleeping → (s.procs p).lev = strideProcLevel → Strided s p) :
    OrderInv (s.setState p st) := by
  refine h.of_one rfl rfl (fun x hx => Sys.setState_procs_of_ne _ _ _ hx) ?_
  rintro ⟨hl, hst⟩
  simp only [Sys.setState_procs_self] at hl hst
  rcases hst with hst | hst | hst
  · exact hp (Or.inl hst) hl
  · exact hp (Or.inr hst) hl
  · exact ⟨hl, Or.inr (Or.inr hst)⟩

/-- The running process at `STRIDE_PROC_LEVEL` is the one a stride round runs. -/
theorem ProcInv.strided_of_running {p : ProcId} (h : ProcInv s)
    (hr : (s.procs p).state = .running) (hl : (s.procs p).lev = strideProcLevel) :
    Strided s p := by
  refine ⟨hl, Or.inr (Or.inr ?_)⟩
  rcases h.running p hr with hS | hM
  · exact hS
  · have hlt := h.mlfqLev p hM hr
    rw [hl] at hlt
    exact absurd hlt (by decide)

/-- The MLFQ operations make nobody a stride process: they keep every state, keep levels
below `NMLFQ` there, and touch no other level. -/
theorem Strided.of_levFrame_rev {s' : Sys 1} {q : ProcId} (hl : LevFrame s s')
    (hc : s'.cpus 0 = s.cpus 0) (hq : Strided s' q) : Strided s q := by
  obtain ⟨hlev, hst⟩ := hq
  have hlev' : (s.procs q).lev = strideProcLevel := by
    by_cases hlt : (s.procs q).lev < nmlfq
    · have := (hl q).2.1 hlt
      rw [hlev] at this
      exact absurd this (by decide)
    · rw [← (hl q).2.2 hlt, hlev]
  refine ⟨hlev', ?_⟩
  rw [← (hl q).1]
  simpa only [StrideRunning, hc] using hst

/-- The timer tick and the bookkeeping of `yield_by` keep every state and level. -/
theorem OrderInv.of_tickFrame {s' : Sys 1} (h : OrderInv s) (ht : TickFrame s s') :
    OrderInv s' := by
  refine h.of_procs ht.1 (by rw [ht.2.2.1]) fun q ⟨hl, hst⟩ => ⟨?_, ?_⟩
  · rw [← (ht.2.2.2.2.2.2 q).2]; exact hl
  · rw [← (ht.2.2.2.2.2.2 q).1]
    simpa only [StrideRunning, ht.2.2.1] using hst

/-! ## The heap operations -/

/-- Items with the same pass, flag and process. -/
def StrideItem.key (x : StrideItem) : Frac × Bool × Option ProcId := (x.pass, x.isMLFQ, x.proc)

/-- A write that keeps the key of every slot, the size, `max_pass` and the CPU's phase
keeps the invariant, except for the top in an MLFQ round. -/
theorem OrderInv.of_keys {s' : Sys 1} (h : OrderInv s) (hsize : s'.stride.q.size = s.stride.q.size)
    (hkey : ∀ j, (s'.stride.q.items j).key = (s.stride.q.items j).key)
    (hmax : s'.stride.maxPass = s.stride.maxPass) (hc : s'.cpus 0 = s.cpus 0)
    (hS : ∀ q, Strided s' q → Strided s q) (hm : ∀ item q, s.cpus 0 ≠ .mlfq item q) :
    OrderInv s' := by
  have hcont : s'.stride.q.contents.map StrideItem.key = s.stride.q.contents.map StrideItem.key := by
    unfold StrideHeap.contents
    rw [ImplicitHeap.map_contents, ImplicitHeap.map_contents, hsize]
    exact congrArg (ImplicitHeap.contents · s.stride.q.size) (funext hkey)
  -- what the invariant reads of an item is a function of its key
  have hmem : ∀ x ∈ s.stride.q.contents, ∃ y ∈ s'.stride.q.contents, y.key = x.key := by
    intro x hx
    have : x.key ∈ s'.stride.q.contents.map StrideItem.key := by
      rw [hcont]; exact Multiset.mem_map_of_mem _ hx
    obtain ⟨y, hy, hyx⟩ := Multiset.mem_map.mp this
    exact ⟨y, hy, hyx⟩
  have hmem' : ∀ y ∈ s'.stride.q.contents, ∃ x ∈ s.stride.q.contents, x.key = y.key := by
    intro y hy
    have : y.key ∈ s.stride.q.contents.map StrideItem.key := by
      rw [← hcont]; exact Multiset.mem_map_of_mem _ hy
    obtain ⟨x, hx, hxy⟩ := Multiset.mem_map.mp this
    exact ⟨x, hx, hxy⟩
  refine ⟨fun hb q hq => h.atBoot (hc ▸ hb) q (hS q hq), ?_, ?_, fun hb => ?_, fun q hq => ?_,
    fun item q hq => absurd (hc ▸ hq) (hm item q)⟩
  · intro i h2 hi
    have hp : ∀ j, (s'.stride.q.items j).pass = (s.stride.q.items j).pass := fun j =>
      congrArg Prod.fst (hkey j)
    show (s'.stride.q.items (i / 2)).pass.val ≤ (s'.stride.q.items i).pass.val
    rw [hp, hp]
    exact h.ordered i h2 (hsize ▸ hi)
  · intro y hy
    obtain ⟨x, hx, hxy⟩ := hmem' y hy
    have : x.pass = y.pass := congrArg Prod.fst hxy
    rw [← this, hmax]
    exact h.belowMax x hx
  · have hc' := h.oneMlfq (hc ▸ hb)
    have hk : ∀ M : Multiset StrideItem, M.countP (·.isMLFQ) =
        (M.map StrideItem.key).countP (fun k => k.2.1 = true) := fun M => by
      rw [Multiset.countP_map, Multiset.countP_eq_card_filter]; rfl
    rw [hk, hcont, ← hk]
    exact hc'
  · obtain ⟨x, hx, hxq⟩ := h.hasItem q (hS q hq)
    obtain ⟨y, hy, hyx⟩ := hmem x hx
    have h1 : y.isMLFQ = x.isMLFQ := congrArg (·.2.1) hyx
    have h2 : y.proc = x.proc := congrArg (·.2.2) hyx
    exact ⟨y, hy, h1 ▸ hxq.1, h2 ▸ hxq.2⟩

/-! ## The end of a round -/

/-- **`stride_pass` keeps the order invariant** when the top is the item the round copied,
with its flag and its process, and no comparison wraps. -/
theorem OrderInv.stridePass {s' : Sys 1} {item : StrideItem} (h : OrderInv s)
    (hle : s.stride.q.size ≤ nproc) (hmp : s.stride.maxPass.SmallTwos)
    (hw : NoWrap s) (hw' : NoWrap s') (hm : CmpFits s.stride.maxPass s'.stride.maxPass)
    (hb : s.cpus 0 ≠ .boot) (hn : 0 < s.stride.q.size) (hg : item.Good)
    (htop : (s.stride.q.items 1).isMLFQ = item.isMLFQ ∧ (s.stride.q.items 1).proc = item.proc)
    (hpass : stridePass s 0 item = some s') : OrderInv s' := by
  obtain ⟨hs0, hs80, hsp, -⟩ := hg
  obtain ⟨q1, pass, hpop, hch, -, hmax, -, hframe, hPB, hNPB⟩ :=
    stridePass_spec hn hle hsp hmp hs0 (by omega) hpass
  obtain ⟨q1', hpop', hsize1, hord1, hcont1, -⟩ := heapPopItem_spec h.ordered hw.passesFit hn
  obtain rfl : q1' = q1 := Option.some.inj (hpop'.symm.trans hpop)
  have hprocs : s'.procs = s.procs := by rw [hframe]
  have hcpu : s'.cpus 0 = .idle := by rw [hframe]; simp
  obtain ⟨hcop, hden⟩ := chargeItem_reduced hch
  obtain ⟨hgrow, hbelow⟩ := updateMaxPass_val hcop hden hmax hm
  -- a stride process after the round was one before it
  have hS' : ∀ q, Strided s' q → Strided s q := by
    rintro q ⟨hl, hst⟩
    rw [hprocs] at hl hst
    rcases hst with hst | hst | ⟨it, hit⟩
    · exact ⟨hl, Or.inl hst⟩
    · exact ⟨hl, Or.inr (Or.inl hst)⟩
    · rw [hcpu] at hit; cases hit
  have hleft : ∀ x ∈ q1'.contents, x.pass.val ≤ s'.stride.maxPass.val := fun x hx =>
    (h.belowMax x (hcont1 ▸ Multiset.mem_cons_of_mem hx)).trans hgrow
  have hcount := h.oneMlfq hb
  rw [← hcont1, Multiset.countP_cons, htop.1] at hcount
  by_cases hp : PushedBack s item
  · obtain ⟨hpush, -⟩ := hPB hp
    obtain ⟨q2, hpush', -, hcont2, -⟩ := heapPushItem_contents (h := q1') { item with pass }
      (by omega)
    obtain rfl : q2 = s'.stride.q := Option.some.inj (hpush'.symm.trans hpush)
    have hfit : PassesFit ({ item with pass } ::ₘ q1'.contents) := hcont2 ▸ hw'.passesFit
    obtain ⟨q3, hpush'', -, hord3, -, -⟩ := heapPushItem_spec hord1 hfit (by omega)
    obtain rfl : q3 = s'.stride.q := Option.some.inj (hpush''.symm.trans hpush)
    have hcopy : ({ item with pass } : StrideItem) ∈ s'.stride.q.contents := by
      rw [hcont2]; exact Multiset.mem_cons_self _ _
    refine ⟨fun hb' => absurd hb' (by rw [hcpu]; simp), hord3, ?_, fun _ => ?_,
      fun q hq => ?_, fun it q hq => by rw [hcpu] at hq; cases hq⟩
    · rw [hcont2]
      intro x hx
      rcases Multiset.mem_cons.mp hx with rfl | hx
      · exact hbelow (hw'.maxPass_fits hcopy)
      · exact hleft x hx
    · -- the copy has the top's flag
      rw [hcont2, Multiset.countP_cons]
      exact hcount
    · obtain ⟨x, hx, hxq⟩ := h.hasItem q (hS' q hq)
      rw [← hcont1] at hx
      rcases Multiset.mem_cons.mp hx with rfl | hx
      · exact ⟨_, hcopy, htop.1 ▸ hxq.1, htop.2 ▸ hxq.2⟩
      · exact ⟨x, by rw [hcont2]; exact Multiset.mem_cons_of_mem hx, hxq⟩
  · -- the copy stays out: it is the item of a process that has exited
    obtain ⟨hq1, -⟩ := hNPB hp
    have hM : item.isMLFQ = false := by
      cases hI : item.isMLFQ
      · rfl
      · exact absurd (Or.inl hI) hp
    refine ⟨fun hb' => absurd hb' (by rw [hcpu]; simp), hq1 ▸ hord1, hq1 ▸ hleft, fun _ => ?_,
      fun q hq => ?_, fun it q hq => by rw [hcpu] at hq; cases hq⟩
    · rw [hq1]
      simpa [hM] using hcount
    · obtain ⟨x, hx, hxq⟩ := h.hasItem q (hS' q hq)
      rw [← hcont1] at hx
      rcases Multiset.mem_cons.mp hx with rfl | hx
      · -- the top was `q`'s, so the copy is, and `q` would have been pushed back
        refine absurd (Or.inr ⟨q, htop.2 ▸ hxq.2, fun hz => ?_⟩) hp
        obtain ⟨-, hst | hst | ⟨it, hit⟩⟩ := hq
        · rw [hprocs, hz] at hst; cases hst
        · rw [hprocs, hz] at hst; cases hst
        · rw [hcpu] at hit; cases hit
      · exact ⟨x, by rw [hq1]; exact hx, hxq⟩

/-! ## The start of a round, and `set_cpu_share` -/

/-- **A dispatch** leaves the heap alone: an MLFQ round dispatches while the MLFQ item is on
top, and the process a stride round runs is a stride process already. -/
theorem OrderInv.dispatch {p : ProcId} {ph : Phase} (h : OrderInv s) (hc : s.cpus 0 ≠ .boot)
    (hb : ph ≠ .boot) (hM : ∀ item q, ph = .mlfq item q → s.stride.q.items 1 = item)
    (hS : ∀ item q, ph = .stride item q → q = p)
    (hp : (s.procs p).lev = strideProcLevel → Strided s p) : OrderInv (Xv6.dispatch s 0 p ph) := by
  have hcpu : (Xv6.dispatch s 0 p ph).cpus 0 = ph := by simp [Xv6.dispatch]
  have hst : (Xv6.dispatch s 0 p ph).stride = s.stride := by simp [Xv6.dispatch]
  -- a stride process after the dispatch was one before it
  have hS' : ∀ q, Strided (Xv6.dispatch s 0 p ph) q → Strided s q := by
    rintro q ⟨hl, hq⟩
    by_cases hqp : q = p
    · subst hqp
      exact hp (by simpa [Xv6.dispatch] using hl)
    · have hpq : (Xv6.dispatch s 0 p ph).procs q = s.procs q := by
        simp [Xv6.dispatch, Sys.setState_procs_of_ne _ _ _ hqp]
      rw [hpq] at hl hq
      rcases hq with hq | hq | ⟨it, hit⟩
      · exact ⟨hl, Or.inl hq⟩
      · exact ⟨hl, Or.inr (Or.inl hq)⟩
      · rw [hcpu] at hit
        exact absurd (hS it q hit) hqp
  refine ⟨fun hb' => absurd (hcpu ▸ hb') hb, hst ▸ h.ordered, hst ▸ h.belowMax,
    fun _ => hst ▸ h.oneMlfq hc, fun q hq => hst ▸ h.hasItem q (hS' q hq), fun item q hq => ?_⟩
  rw [hst]
  exact hM item q (hcpu ▸ hq)

/-- **A join** pushes the new item at `max_pass`: it is not before the MLFQ item on top, and
the process that joins now has an item. -/
theorem OrderInv.join {s' : Sys 1} {p : ProcId} {share : Int} {q' : StrideHeap}
    (hS : StrideInv s) (h : OrderInv s) (hw : NoWrap s) (hw' : NoWrap s') (hd : MlfqRunning s p)
    (hq : heapPushItem s.stride.q (strideItemInit s.stride share (some p) false) = some q')
    (hst : s'.stride = { s.stride with allShare := s.stride.allShare + share, q := q' })
    (hc : s'.cpus 0 = s.cpus 0) (hother : ∀ q, q ≠ p → Strided s' q → Strided s q) :
    OrderInv s' := by
  obtain ⟨item, hitem⟩ := hd
  obtain ⟨-, -, -, hn⟩ := hS.mlfqTop item p hitem
  set J := strideItemInit s.stride share (some p) false
  have hsz : s.stride.q.size < nproc := by
    by_contra hfull
    rw [heapPushItem_full (by omega)] at hq
    cases hq
  obtain ⟨q2, hq2, -, hcont2, -⟩ := heapPushItem_contents J hsz
  obtain rfl : q2 = q' := Option.some.inj (hq2.symm.trans hq)
  have hfit : PassesFit (J ::ₘ s.stride.q.contents) := by
    rw [← hcont2]
    have := hw'.passesFit
    rwa [hst] at this
  obtain ⟨q3, hq3, -, hord3, -, -⟩ := heapPushItem_spec h.ordered hfit hsz
  obtain rfl : q3 = q2 := Option.some.inj (hq3.symm.trans hq2)
  refine ⟨fun hb => absurd (hc ▸ hb) (by rw [hitem]; simp), by rw [hst]; exact hord3, ?_,
    fun _ => ?_, fun q hq => ?_, fun it q hq => ?_⟩
  · rw [hst, hcont2]
    intro x hx
    rcases Multiset.mem_cons.mp hx with rfl | hx
    · exact le_rfl
    · exact h.belowMax x hx
  · rw [hst, hcont2, Multiset.countP_cons]
    simpa [J, strideItemInit] using h.oneMlfq (by rw [hitem]; simp)
  · rw [hst, hcont2]
    by_cases hqp : q = p
    · subst hqp
      exact ⟨J, Multiset.mem_cons_self _ _, rfl, rfl⟩
    · obtain ⟨x, hx, hxq⟩ := h.hasItem q (hother q hqp hq)
      exact ⟨x, Multiset.mem_cons_of_mem hx, hxq⟩
  · -- the MLFQ item stays on top: its pass is at or below `max_pass`
    rw [hc] at hq
    rw [hst, ← h.mlfqTop it q hq]
    have htop := StrideHeap.top_mem hn
    have hnot : passLt J (s.stride.q.items 1) = false := by
      show fracIsLessThan s.stride.maxPass (s.stride.q.items 1).pass = false
      rw [Bool.eq_false_iff, ne_eq, fracIsLessThan_iff (hw.maxPass_fits htop), not_lt]
      exact h.belowMax _ htop
    exact heapPushItem_top hn hnot hq2

end Xv6
