import Xv6.Sched.InvProc

/-!
# The invariant under `set_cpu_share`

An MLFQ process that calls `set_cpu_share` joins the stride queue: its level becomes
`STRIDE_PROC_LEVEL`, a new item for it is pushed at `max_pass`, and it yields. It was the
process `mlfq_scheduler` dispatched, so it is in no MLFQ queue, and it owned no item
before. A stride process adjusts the share of the item `stride_find_item` returns, which
is its own, since MLFQ items carry no process.
-/

set_option autoImplicit false

namespace Xv6

/-- `set_cpu_share` either changes nothing, or lets an MLFQ process join the stride queue
(the push succeeding), or adjusts the share of the item found for a stride process. -/
theorem setCpuShare_cases {n : Nat} {s s' : Sys n} {p : ProcId} {share r : Int}
    (h : setCpuShare s p share = some (r, s')) :
    s' = s ∨
    ((s.procs p).lev < nmlfq ∧ strideCanChangeShare s.stride 0 share = true ∧
      s.stride.q.size < nproc ∧ ∃ q',
        heapPushItem s.stride.q (strideItemInit s.stride share (some p) false) = some q' ∧
        s' = ({ s.modifyProc p fun pr => { pr with lev := strideProcLevel, cticks := 0 } with
          stride := { s.stride with allShare := s.stride.allShare + share, q := q' } }).setState
            p .runnable) ∨
    ((s.procs p).lev = strideProcLevel ∧
      s' = { s with stride := (strideAdjust s.stride (strideFindItem s.stride p) share).2 }) := by
  unfold setCpuShare at h
  by_cases hm : isMlfq (s.procs p) = true
  · rw [if_pos hm] at h
    by_cases hc : strideCanChangeShare s.stride 0 share = true
    · rw [if_neg (by simp [hc])] at h
      simp only [Sys.modifyProc_stride] at h
      by_cases hn : s.stride.q.size < nproc
      · -- the join
        obtain ⟨q', hq', hpush⟩ := stridePush_ok (strideItemInit s.stride share (some p) false) hn
        simp only [hpush, ne_eq, not_true_eq_false, if_false, Option.some.injEq,
          Prod.mk.injEq] at h
        refine Or.inr (Or.inl ⟨by simpa [isMlfq] using hm, hc, hn, q', hq', ?_⟩)
        rw [← h.2]; rfl
      · -- a full heap: `stride_push` fails and the call panics
        have hfull : (stridePush s.stride (strideItemInit s.stride share (some p) false)).1 = -1 :=
          stridePush_full _ (by omega)
        simp [hfull] at h
    · rw [if_pos (by simp [hc])] at h
      simp only [Option.some.injEq, Prod.mk.injEq] at h
      exact Or.inl h.2.symm
  · rw [if_neg hm] at h
    by_cases hs : isStride (s.procs p) = true
    · rw [if_pos hs] at h
      rcases hadj : strideAdjust s.stride (strideFindItem s.stride p) share with ⟨r0, sq⟩
      rw [hadj] at h
      simp only [Option.some.injEq, Prod.mk.injEq] at h
      refine Or.inr (Or.inr ⟨by simpa [isStride] using hs, ?_⟩)
      rw [← h.2]
    · rw [if_neg hs] at h
      simp only [Option.some.injEq, Prod.mk.injEq] at h
      exact Or.inl h.2.symm

/-! ## The stride queue -/

section Stride

variable {s s' : Sys 1}

/-- **A join keeps the stride invariant**: the new item is the joining process's only
one, and the process is a stride process after the call. -/
theorem StrideInv.join {p : ProcId} {share : Int} {q' : StrideHeap} (h : StrideInv s)
    (hb : s.cpus 0 ≠ .boot) (hmr : MlfqRunning s p) (hl : (s.procs p).lev < nmlfq)
    (h0 : 0 < share) (h80 : share ≤ 80) (hn : s.stride.q.size < nproc)
    (hq : heapPushItem s.stride.q (strideItemInit s.stride share (some p) false) = some q')
    (hst : s'.stride = { s.stride with allShare := s.stride.allShare + share, q := q' })
    (hc : s'.cpus 0 = s.cpus 0) (hS : ∀ x, x ≠ p → Strided s x → Strided s' x)
    (hp : Strided s' p) : StrideInv s' := by
  set J := strideItemInit s.stride share (some p) false
  obtain ⟨q2, hq2, hsize, hcont, hslot⟩ := heapPushItem_contents (h := s.stride.q) J hn
  rw [hq] at hq2; cases hq2
  have hJ : J.OwnedBy p := ⟨rfl, rfl⟩
  -- `p` was an MLFQ process, so it owned no item
  have hnone : ∀ x ∈ s.stride.q.contents, ¬ x.OwnedBy p := fun x hx hxp => by
    rcases h.owned x hx with ⟨hM, -⟩ | ⟨q, hq, hlev, -⟩
    · rw [hxp.1] at hM; cases hM
    · obtain rfl : q = p := Option.some.inj (hq.2.symm.trans hxp.2)
      rw [hlev] at hl; exact absurd hl (by decide)
  refine ⟨?_, ?_, ?_, ?_, fun q => ?_, ?_, ?_, ?_, ?_⟩
  · rw [hst, hsize]; omega
  · rw [hst, hslot]; exact h.slot0
  · rw [hst, hcont]
    intro x hx
    rcases Multiset.mem_cons.mp hx with rfl | hx
    · exact ⟨h0, h80, h.maxPass hb, fun hM => by simp [J, strideItemInit] at hM⟩
    · exact h.good x hx
  · rw [hst, hcont]
    intro x hx
    rcases Multiset.mem_cons.mp hx with rfl | hx
    · exact Or.inr ⟨p, hJ, hp⟩
    · rcases h.owned x hx with hM | ⟨q, hq, hsq⟩
      · exact Or.inl hM
      · exact Or.inr ⟨q, hq, hS q (fun hqp => hnone x hx (hqp ▸ hq)) hsq⟩
  · rw [hst, hcont, Multiset.countP_cons]
    by_cases hqp : q = p
    · subst hqp
      rw [if_pos hJ, Multiset.countP_eq_zero.mpr hnone]
    · rw [if_neg fun hq => hqp (Option.some.inj (hq.2.symm.trans hJ.2))]
      simpa using h.atMostOne q
  · rw [hst, hcont, Multiset.map_cons, Multiset.sum_cons, h.sum]
    simp only [J, strideItemInit]; ring
  · intro _; rw [hst]; exact h.maxPass hb
  · intro item q hsq
    obtain ⟨i, hi⟩ := hmr
    rw [hc, hi] at hsq; cases hsq
  · intro item q hmq
    rw [hc] at hmq
    obtain ⟨h1, h2, h3, -⟩ := h.mlfqTop item q hmq
    exact ⟨h1, h2, h3, by rw [hst, hsize]; omega⟩

/-- **An adjust keeps the stride invariant**: the item found is the caller's own, and
only its share changes, with `all_share` by the same amount. -/
theorem StrideInv.adjust {p : ProcId} {share : Int} (h : StrideInv s) (h0 : 0 < share)
    (h80 : share ≤ 80) (hst : s'.stride = (strideAdjust s.stride (strideFindItem s.stride p) share).2)
    (hc : s'.cpus 0 = s.cpus 0) (hS : ∀ x, Strided s x → Strided s' x) : StrideInv s' := by
  rcases hf : strideFindItem s.stride p with _ | i
  · rw [hf] at hst
    exact h.of_procs hst hc hS
  obtain ⟨hi, hpi⟩ := strideFindItem_spec hf
  have hi0 : i ≠ 0 := fun hi0 => by
    have := h.slot0; rw [← hi0, hpi] at this; cases this
  rw [hf, strideAdjust_slot share (by omega)] at hst
  split_ifs at hst with hcap
  swap
  · exact h.of_procs hst hc hS
  set a := s.stride.q.items i
  set u : StrideItem := { a with share := share }
  -- the adjusted item is the caller's
  have ha : a ∈ s.stride.q.contents := ImplicitHeap.mem_contents_of (by omega) (by omega)
  have hown : a.OwnedBy p ∧ Strided s p := by
    rcases h.owned a ha with ⟨-, hn⟩ | ⟨q, hq, hsq⟩
    · rw [hpi] at hn; cases hn
    · obtain rfl : q = p := Option.some.inj (hq.2.symm.trans hpi)
      exact ⟨hq, hsq⟩
  have hsame : ∀ q, u.OwnedBy q ↔ a.OwnedBy q := fun q => Iff.rfl
  have hcont : s'.stride.q.contents + {a} = s.stride.q.contents + {u} := by
    rw [hst]
    show ImplicitHeap.contents (Function.update s.stride.q.items i u) s.stride.q.size + {a} =
      ImplicitHeap.contents s.stride.q.items s.stride.q.size + {u}
    exact ImplicitHeap.contents_update u (by omega) (by omega)
  have hmem : ∀ x ∈ s'.stride.q.contents, x ∈ s.stride.q.contents ∨ x = u := fun x hx => by
    have : x ∈ s.stride.q.contents + {u} := hcont ▸ Multiset.mem_add.mpr (Or.inl hx)
    simpa using this
  have hsize : s'.stride.q.size = s.stride.q.size := by rw [hst]
  refine ⟨hsize ▸ h.size_le, ?_, ?_, ?_, fun q => ?_, ?_, ?_, ?_, ?_⟩
  · rw [hst]; simp only [Function.update_of_ne (Ne.symm hi0)]; exact h.slot0
  · intro x hx
    rcases hmem x hx with hx | rfl
    · exact h.good x hx
    · obtain ⟨-, -, hpass, -⟩ := h.good a ha
      exact ⟨h0, h80, hpass, fun hM => absurd hM (by rw [hown.1.1]; decide)⟩
  · intro x hx
    rcases hmem x hx with hx | rfl
    · rcases h.owned x hx with hM | ⟨q, hq, hsq⟩
      · exact Or.inl hM
      · exact Or.inr ⟨q, hq, hS q hsq⟩
    · exact Or.inr ⟨p, hown.1, hS p hown.2⟩
  · -- the count of every owner is as before
    have hc' := congrArg (Multiset.countP (·.OwnedBy q)) hcont
    simp only [Multiset.countP_add, ← Multiset.cons_zero, Multiset.countP_cons,
      Multiset.countP_zero, hsame] at hc'
    have := h.atMostOne q
    omega
  · have hs' := congrArg (fun M => (M.map (·.share)).sum) hcont
    simp only [Multiset.map_add, Multiset.sum_add, Multiset.map_singleton,
      Multiset.sum_singleton] at hs'
    have hall : s'.stride.allShare = s.stride.allShare - a.share + share := by rw [hst]
    have hus : u.share = share := rfl
    rw [hall, h.sum]
    linarith
  · intro hb; rw [hst]; exact h.maxPass (hc ▸ hb)
  · intro item q hsq
    rw [hc] at hsq
    obtain ⟨h1, h2, h3, h4, h5⟩ := h.strideTop item q hsq
    refine ⟨by omega, ?_, ?_, h4, h5⟩
    · rw [hst]
      by_cases h1i : 1 = i
      · subst h1i; simpa using (hsame q).mpr h2
      · simpa [Function.update_of_ne h1i] using h2
    · rw [hst]
      by_cases h1i : 1 = i
      · subst h1i; simpa using h3
      · simpa [Function.update_of_ne h1i] using h3
  · intro item q hmq
    rw [hc] at hmq
    obtain ⟨h1, h2, h3, h4⟩ := h.mlfqTop item q hmq
    exact ⟨h1, h2, h3, by omega⟩

end Stride

/-! ## The call -/

variable {s : Sys 1}

/-- A write to the running process's own record that leaves it not running, a real
process, at a valid level, and at the stride level if a stride round runs it. -/
theorem ProcInv.update_dispatched {s' : Sys 1} {p : ProcId} (h : ProcInv s)
    (hp : runningOn s 0 = some p) (hcpu : s'.cpus 0 = s.cpus 0) (hf : s'.forks = s.forks)
    (hother : ∀ x, x ≠ p → s'.procs x = s.procs x)
    (hst : (s'.procs p).state ≠ .running ∧ (s'.procs p).state ≠ .unused ∧
      (s'.procs p).state ≠ .embryo)
    (hl : (s'.procs p).lev < nmlfq ∨ (s'.procs p).lev = strideProcLevel)
    (hsl : StrideRunning s p → (s'.procs p).lev = strideProcLevel) : ProcInv s' := by
  obtain ⟨hd, hr⟩ := runningOn_spec hp
  have hS : ∀ x, StrideRunning s' x ↔ StrideRunning s x := fun x => by
    simp only [StrideRunning, hcpu]
  have hM : ∀ x, MlfqRunning s' x ↔ MlfqRunning s x := fun x => by simp only [MlfqRunning, hcpu]
  -- `p` is running, so it is not the child of a `fork`
  have hnc : ∀ p', (s.forks p').child ≠ some p := fun p' hc => by
    have := h.child p' p hc; rw [hr] at this; cases this
  refine ⟨fun x => ?_, fun x hx => ?_, fun x hx => ?_, fun x hx => ?_, fun x hx hr' => ?_,
    fun p' x hx => ?_, fun p' x hx => ?_, fun p₁ p₂ x => ?_⟩
  · by_cases hxp : x = p
    · subst hxp; exact hl
    · rw [hother x hxp]; exact h.lev x
  · have hxp : x ≠ p := fun hxp => hst.1 (hxp ▸ hx)
    rw [hother x hxp] at hx; rw [hS, hM]; exact h.running x hx
  · by_cases hxp : x = p
    · subst hxp; exact hst.2
    · rw [hother x hxp]; exact h.dispatched x (by rwa [hS, hM] at hx)
  · rw [hS] at hx
    by_cases hxp : x = p
    · subst hxp; exact hsl hx
    · rw [hother x hxp]; exact h.strideLev x hx
  · have hxp : x ≠ p := fun hxp => hst.1 (hxp ▸ hr')
    rw [hother x hxp] at hr' ⊢; exact h.mlfqLev x ((hM x).mp hx) hr'
  · rw [hf] at hx
    have hxp : x ≠ p := fun hxp => hnc p' (hxp ▸ hx)
    rw [hother x hxp]; exact h.child p' x hx
  · rw [hf] at hx
    have hxp : x ≠ p := fun hxp => hnc p' (by rw [← hxp, hx]; rfl)
    rw [hother x hxp]; exact h.pushedLev p' x hx
  · rw [hf]; exact h.childInj p₁ p₂ x

/-- **`set_cpu_share`** keeps the invariant, for the join and for the adjust. -/
theorem Inv.setCpuShare {p : ProcId} {share : Int} {s' : Sys 1} (h : Inv s)
    (hp : runningOn s 0 = some p) (he : (sysSetCpuShare s p share).map Prod.snd = some s') :
    Inv s' := by
  obtain ⟨⟨r, s''⟩, hs, rfl⟩ := Option.map_eq_some_iff.mp he
  unfold sysSetCpuShare at hs
  split_ifs at hs with hbad
  · simp only [Option.some.injEq, Prod.mk.injEq] at hs
    rw [← hs.2]; exact h
  have h0 : 0 < share := by omega
  have h80 : share ≤ 80 := by omega
  obtain ⟨hd, hr⟩ := runningOn_spec hp
  have hb : s.cpus 0 ≠ .boot := fun hb => by
    rcases hd with ⟨i, hi⟩ | ⟨i, hi⟩ <;> rw [hb] at hi <;> cases hi
  rcases setCpuShare_cases hs with rfl | ⟨hl, -, hn, q', hq, rfl⟩ | ⟨hl, rfl⟩
  · exact h
  · -- the join: `p` was dispatched by `mlfq_scheduler`
    have hmr : MlfqRunning s p := hd.resolve_left fun hsr => by
      rw [h.procs.strideLev p hsr] at hl; exact absurd hl (by decide)
    set s1 := ({ s.modifyProc p fun pr => { pr with lev := strideProcLevel, cticks := 0 } with
      stride := { s.stride with allShare := s.stride.allShare + share, q := q' } }).setState
        p .runnable
    have hother : ∀ x, x ≠ p → s1.procs x = s.procs x := fun x hx => by
      simp [s1, Sys.setState_procs_of_ne _ _ _ hx, Sys.modifyProc_procs_of_ne _ _ _ hx]
    have hpst : (s1.procs p).state = .runnable := by simp [s1]
    have hplev : (s1.procs p).lev = strideProcLevel := by simp [s1]
    refine ⟨h.procs.update_dispatched hp rfl rfl hother
        ⟨by rw [hpst]; decide, by rw [hpst]; decide, by rw [hpst]; decide⟩ (Or.inr hplev)
        (fun _ => hplev), ?_, h.badLev, h.pushFull, ?_⟩
    · exact h.queues.of_procs rfl (fun _ => Iff.rfl) fun x hx =>
        have hxp : x ≠ p := fun hxp => hx (hxp ▸ hmr)
        ⟨Queued.of_eq (hother x hxp) rfl, by rw [hother x hxp]⟩
    · exact h.stride.join hb hmr hl h0 h80 hn hq rfl rfl
        (fun x hxp hx => (Strided.of_eq (hother x hxp) rfl).mpr hx)
        ⟨hplev, Or.inl hpst⟩
  · -- the adjust of a stride process's own item
    refine ⟨h.procs.of_frame rfl rfl fun _ => ⟨rfl, rfl⟩, h.queues.congr rfl rfl rfl,
      h.badLev, h.pushFull, h.stride.adjust h0 h80 rfl rfl fun x hx => hx⟩

end Xv6
