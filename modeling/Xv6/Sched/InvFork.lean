import Xv6.Sched.InvProc

/-!
# The invariant under `fork` and `userinit`

`fork` is three steps of the model: `allocproc` (or its failure, which frees the slot
again), `mlfq_push(np)`, and `np->state = RUNNABLE`. Between the first two the child is an
`EMBRYO` in no queue; from the push on it belongs in `mlfq[0]` (`Queued`'s third case).
`userinit` does all three at once for the first process. A push is proved in two moves:
the child is first set aside (`QueuesOk.aside`), with the stage or state it has after the
step, and then pushed (`QueuesOk.push`); `mlfqPush_congr` says that the order of the
push and of those writes does not matter.
-/

set_option autoImplicit false

namespace Xv6

variable {s : Sys 1}

/-! ## Fork stages -/

theorem ForkStage.child_update {f : ProcId → ForkStage} {p p' x : ProcId} {b : ForkStage}
    (h : (Function.update f p b p').child = some x) :
    (p' = p ∧ b.child = some x) ∨ (p' ≠ p ∧ (f p').child = some x) := by
  by_cases hp : p' = p
  · subst hp; rw [Function.update_self] at h; exact Or.inl ⟨rfl, h⟩
  · rw [Function.update_of_ne hp] at h; exact Or.inr ⟨hp, h⟩

/-- A change of one call's stage that neither was nor becomes `pushed x`. -/
theorem pushed_update_iff {f : ProcId → ForkStage} {p x : ProcId} {b : ForkStage}
    (ha : f p ≠ .pushed x) (hb : b ≠ .pushed x) :
    (∃ p', Function.update f p b p' = .pushed x) ↔ ∃ p', f p' = .pushed x := by
  constructor
  · rintro ⟨p', hp'⟩
    by_cases h : p' = p
    · subst h; rw [Function.update_self] at hp'; exact absurd hp' hb
    · rw [Function.update_of_ne h] at hp'; exact ⟨p', hp'⟩
  · rintro ⟨p', hp'⟩
    by_cases h : p' = p
    · subst h; exact absurd hp' ha
    · exact ⟨p', by rw [Function.update_of_ne h]; exact hp'⟩

/-- The child of a `fork` in progress is an embryo nobody has dispatched, and no other
call has it. -/
theorem ProcInv.child_spec {p np : ProcId} (h : ProcInv s) (hf : (s.forks p).child = some np) :
    (s.procs np).state = .embryo ∧ ¬ (StrideRunning s np ∨ MlfqRunning s np) ∧
      ∀ p', (s.forks p').child = some np → p' = p := by
  have he := h.child p np hf
  exact ⟨he, fun hd => (h.dispatched np hd).2 he, fun p' hp' => h.childInj p' p np hp' hf⟩

/-- An `UNUSED` slot is nobody's child and not dispatched. -/
theorem ProcInv.unused_spec {np : ProcId} (h : ProcInv s) (hu : (s.procs np).state = .unused) :
    ¬ (StrideRunning s np ∨ MlfqRunning s np) ∧ ∀ p, (s.forks p).child ≠ some np :=
  h.free_of_state (Or.inl hu)

/-- A change of the forks in progress, with what it needs: children are embryos, a pushed
child is at an MLFQ level, and no two calls share a child. -/
theorem ProcInv.setForks {f : ProcId → ForkStage} (h : ProcInv s)
    (hchild : ∀ p x, (f p).child = some x → (s.procs x).state = .embryo)
    (hpushed : ∀ p x, f p = .pushed x → (s.procs x).lev < nmlfq)
    (hinj : ∀ p p' x, (f p).child = some x → (f p').child = some x → p = p') :
    ProcInv { s with forks := f } :=
  ⟨h.lev, h.running, h.dispatched, h.strideLev, h.mlfqLev, hchild, hpushed, hinj⟩

/-- Ending a call (`p`'s stage becomes `none`) keeps the fork part of `ProcInv`. -/
theorem ProcInv.endFork {p : ProcId} (h : ProcInv s) :
    ProcInv { s with forks := Function.update s.forks p .none } := by
  refine h.setForks (fun p' x hx => ?_) (fun p' x hx => ?_) (fun p₁ p₂ x h₁ h₂ => ?_)
  · rcases ForkStage.child_update hx with ⟨-, hb⟩ | ⟨-, hx⟩
    · cases hb
    · exact h.child p' x hx
  · by_cases hp : p' = p
    · subst hp; rw [Function.update_self] at hx; cases hx
    · rw [Function.update_of_ne hp] at hx; exact h.pushedLev p' x hx
  · rcases ForkStage.child_update h₁ with ⟨-, hb⟩ | ⟨-, h₁⟩
    · cases hb
    rcases ForkStage.child_update h₂ with ⟨-, hb⟩ | ⟨-, h₂⟩
    · cases hb
    exact h.childInj p₁ p₂ x h₁ h₂

/-! ## The three steps of `fork` -/

/-- `allocproc` takes an `UNUSED` slot and makes it an `EMBRYO`. -/
theorem allocproc_spec {np : ProcId} {s' : Sys 1} (h : allocproc s = some (np, s')) :
    (s.procs np).state = .unused ∧ s' = s.setState np .embryo := by
  unfold allocproc at h
  split at h
  · cases h
  · rename_i q hq
    simp only [Option.some.injEq, Prod.mk.injEq] at h
    obtain ⟨rfl, rfl⟩ := h
    exact ⟨by simpa using List.find?_some hq, rfl⟩

/-- `userinit` takes an `UNUSED` slot, makes it `initproc` at level 0, pushes it into the MLFQ
and makes it `RUNNABLE`. -/
theorem userinit_cases {s' : Sys 1} (he : userinit s = some s') :
    ∃ np, (s.procs np).state = .unused ∧
      s' = (mlfqPush ({ s.setState np .embryo with initproc := some np }.modifyProc np
        fun pr => { pr with lev := 0, cticks := 0 }) np).setState np .runnable := by
  unfold userinit at he
  split at he
  · cases he
  · rename_i np s₁ hal
    obtain ⟨hu, rfl⟩ := allocproc_spec hal
    exact ⟨np, hu, (Option.some.inj he).symm⟩

/-- **The allocation step of `fork`**: the new embryo is in no queue and owns nothing. -/
theorem Inv.forkAlloc {p np : ProcId} (h : Inv s) (hf : s.forks p = .none)
    (hu : (s.procs np).state = .unused) :
    Inv { s.setState np .embryo with forks := Function.update s.forks p (.allocated np) } := by
  obtain ⟨hnd, hnc⟩ := h.procs.unused_spec hu
  have hpu : ∀ p', s.forks p' ≠ .pushed np := fun p' hp' => hnc p' (by rw [hp']; rfl)
  have hP1 : ProcInv (s.setState np .embryo) :=
    h.procs.setState (fun h' => absurd h' (by decide)) (fun hd => absurd hd hnd)
      (fun _ h' => absurd h' (by decide)) (fun _ _ => rfl)
  -- the new stage's only child is `np`
  have hch : ∀ p' x, (Function.update s.forks p (.allocated np) p').child = some x →
      (p' = p ∧ x = np) ∨ (p' ≠ p ∧ (s.forks p').child = some x ∧ x ≠ np) := by
    intro p' x hx
    rcases ForkStage.child_update hx with ⟨hp', hb⟩ | ⟨hp', hx⟩
    · exact Or.inl ⟨hp', (Option.some.inj hb).symm⟩
    · exact Or.inr ⟨hp', hx, fun hxn => hnc p' (hxn ▸ hx)⟩
  refine ⟨hP1.setForks (fun p' x hx => ?_) (fun p' x hx => ?_) (fun p₁ p₂ x h₁ h₂ => ?_),
    ?_, h.badLev, h.pushFull, ?_⟩
  · rcases hch p' x hx with ⟨-, rfl⟩ | ⟨-, hx, hxn⟩
    · simp
    · rw [Sys.setState_procs_of_ne _ _ _ hxn]; exact h.procs.child p' x hx
  · have hp' : p' ≠ p := fun hp' => by subst hp'; rw [Function.update_self] at hx; cases hx
    rw [Function.update_of_ne hp'] at hx
    have hxn : x ≠ np := fun hxn => hpu p' (hxn ▸ hx)
    rw [Sys.setState_procs_of_ne _ _ _ hxn]; exact h.procs.pushedLev p' x hx
  · rcases hch p₁ x h₁ with ⟨rfl, rfl⟩ | ⟨hp₁, h₁, hxn⟩ <;>
      rcases hch p₂ x h₂ with ⟨rfl, h2x⟩ | ⟨hp₂, h₂, hxn'⟩
    · rfl
    · exact absurd rfl hxn'
    · exact absurd h2x hxn
    · exact h.procs.childInj p₁ p₂ x h₁ h₂
  · -- `np` is in no queue before or after: it is not pushed
    have hpx : ∀ x, (∃ p', Function.update s.forks p (.allocated np) p' = .pushed x) ↔
        ∃ p', s.forks p' = .pushed x := fun x => pushed_update_iff (by rw [hf]; simp) (by simp)
    refine h.queues.of_procs rfl (fun _ => Iff.rfl) fun x _ => ⟨?_, ?_⟩
    · by_cases hxn : x = np
      · subst hxn
        simp only [Queued, Sys.setState_procs_self, hu, hpx]
        simp [hpu]
      · simp only [Queued, Sys.setState_procs_of_ne _ _ _ hxn, hpx]
    · by_cases hxn : x = np
      · subst hxn; simp
      · simp [Sys.setState_procs_of_ne _ _ _ hxn]
  · refine h.stride.of_procs rfl rfl fun x hx => ?_
    by_cases hxn : x = np
    · subst hxn
      obtain ⟨-, hst | hst | hst⟩ := hx
      · rw [hu] at hst; cases hst
      · rw [hu] at hst; cases hst
      · exact absurd (Or.inl hst) hnd
    · exact (Strided.setState_of_ne hxn).mpr hx

/-- **A failed `fork`** frees the embryo again: it was in no queue yet. -/
theorem Inv.forkFail {p np : ProcId} (h : Inv s) (hf : s.forks p = .allocated np) :
    Inv { s.setState np .unused with forks := Function.update s.forks p .none } := by
  obtain ⟨he, hnd, honly⟩ := h.procs.child_spec
    (show (s.forks p).child = some np by rw [hf]; rfl)
  have hpu : ∀ p', s.forks p' ≠ .pushed np := fun p' hp' => by
    obtain rfl := honly p' (by rw [hp']; rfl)
    rw [hf] at hp'; cases hp'
  -- the call ends first, then the slot is freed
  have hP : ProcInv ({ s with forks := Function.update s.forks p .none }.setState np .unused) := by
    refine h.procs.endFork.setState (fun h' => absurd h' (by decide)) (fun hd => absurd hd hnd)
      (fun _ h' => absurd h' (by decide)) fun p' hc => ?_
    rcases ForkStage.child_update hc with ⟨-, hb⟩ | ⟨hp', hc⟩
    · cases hb
    · exact absurd (honly p' hc) hp'
  have hpx : ∀ x, (∃ p', Function.update s.forks p .none p' = .pushed x) ↔
      ∃ p', s.forks p' = .pushed x := fun x => pushed_update_iff (by rw [hf]; simp) (by simp)
  refine ⟨hP, ?_, h.badLev, h.pushFull, ?_⟩
  · refine h.queues.of_procs rfl (fun _ => Iff.rfl) fun x _ => ⟨?_, ?_⟩
    · by_cases hxn : x = np
      · subst hxn
        simp only [Queued, Sys.setState_procs_self]
        simp [hpu, he]
      · simp only [Queued, Sys.setState_procs_of_ne _ _ _ hxn, hpx]
    · by_cases hxn : x = np
      · subst hxn; simp
      · simp [Sys.setState_procs_of_ne _ _ _ hxn]
  · refine h.stride.of_procs rfl rfl fun x hx => ?_
    by_cases hxn : x = np
    · subst hxn
      obtain ⟨-, hst | hst | hst⟩ := hx
      · rw [he] at hst; cases hst
      · rw [he] at hst; cases hst
      · exact absurd (Or.inl hst) hnd
    · exact (Strided.setState_of_ne hxn).mpr hx

/-- **The push step of `fork`**: the embryo goes to the rear of `mlfq[0]`. -/
theorem Inv.forkPush {p np : ProcId} (h : Inv s) (hf : s.forks p = .allocated np) :
    Inv { mlfqPush (s.modifyProc np fun pr => { pr with lev := 0, cticks := 0 }) np with
      forks := Function.update s.forks p (.pushed np) } := by
  obtain ⟨he, hnd, honly⟩ := h.procs.child_spec
    (show (s.forks p).child = some np by rw [hf]; rfl)
  have hpu : ∀ p', s.forks p' ≠ .pushed np := fun p' hp' => by
    obtain rfl := honly p' (by rw [hp']; rfl)
    rw [hf] at hp'; cases hp'
  set s2 := s.modifyProc np fun pr => { pr with lev := 0, cticks := 0 }
  set f := Function.update s.forks p (.pushed np)
  set t : Sys 1 := { s2 with forks := f }
  have h2 : ∀ x, x ≠ np → s2.procs x = s.procs x := fun x hx => Sys.modifyProc_procs_of_ne _ _ _ hx
  have hs2 : ∀ x, (s2.procs x).state = (s.procs x).state := fun x => by
    by_cases hxn : x = np
    · subst hxn; simp [s2]
    · rw [h2 x hxn]
  have hchild : ∀ p', (f p').child = (s.forks p').child := fun p' => by
    by_cases hp' : p' = p
    · subst hp'; simp only [f, Function.update_self, hf]; rfl
    · simp only [f, Function.update_of_ne hp']
  -- the process table and the forks after the step
  have hP2 : ProcInv s2 :=
    h.procs.update_free hnd (fun _ _ => by simpa [s2] using he)
      (fun p' hp' => absurd hp' (hpu p')) rfl rfl h2 (by simp [s2, he])
      (Or.inl (by simp only [s2, Sys.modifyProc_procs_self]; decide))
  have hPt : ProcInv t := by
    refine hP2.setForks (fun p' x hx => ?_) (fun p' x hx => ?_) (fun p₁ p₂ x h₁ h₂ => ?_)
    · rw [hchild] at hx; rw [hs2]; exact h.procs.child p' x hx
    · by_cases hp' : p' = p
      · subst hp'; simp only [f, Function.update_self, ForkStage.pushed.injEq] at hx
        subst hx; simp only [s2, Sys.modifyProc_procs_self]; decide
      · simp only [f, Function.update_of_ne hp'] at hx
        have hxn : x ≠ np := fun hxn => hpu p' (hxn ▸ hx)
        rw [h2 x hxn]; exact h.procs.pushedLev p' x hx
    · rw [hchild] at h₁ h₂; exact h.procs.childInj p₁ p₂ x h₁ h₂
  -- set `np` aside with its new level and stage, then push it
  have hfne : ∀ x, x ≠ np → ((∃ p', f p' = .pushed x) ↔ ∃ p', s.forks p' = .pushed x) :=
    fun x hxn => pushed_update_iff (by rw [hf]; simp) fun h' => hxn (ForkStage.pushed.inj h').symm
  have hqt : QueuesOk t (fun x => MlfqRunning s x ∨ x = np) := by
    refine h.queues.aside (Or.inl fun hQ => ?_) rfl fun x hxn _ => ⟨?_, by simp [t, h2 x hxn]⟩
    · obtain ⟨-, hst | hst | ⟨-, p', hp'⟩⟩ := hQ
      · rw [he] at hst; cases hst
      · rw [he] at hst; cases hst
      · exact hpu p' hp'
    · simp only [Queued, t, h2 x hxn, hfne x hxn]
  have hQt : Queued t np := ⟨by simp only [t, s2, Sys.modifyProc_procs_self]; decide,
    Or.inr (Or.inr ⟨by simpa [t, s2] using he, p, by simp [t, f]⟩)⟩
  obtain ⟨lev, q', hpush, hq', -, -⟩ := hqt.push hQt fun hm => hnd (Or.inr hm)
  obtain ⟨hcm, hcb, hcf⟩ := mlfqPush_congr (s := s2) (t := t) (p := np) rfl rfl rfl rfl
  rw [hpush] at hcm hcb hcf
  refine ⟨hPt.of_frame (by simp [t]) rfl fun x => by simp [t], ?_, ?_, ?_, ?_⟩
  · have hq2 : QueuesOk { mlfqPush s2 np with forks := f } (MlfqRunning s) :=
      hq'.congr (by simp [t]) hcm.symm rfl
    exact hq2.of_procs rfl (fun x => by simp only [MlfqRunning, mlfqPush_cpus, s2, Sys.modifyProc_cpus])
      fun _ _ => ⟨Iff.rfl, rfl⟩
  · rw [← hcb]; exact h.badLev
  · rw [← hcf]; exact h.pushFull
  · refine h.stride.of_procs (by simp [s2]) (by simp [s2]) fun x hx => ?_
    by_cases hxn : x = np
    · subst hxn
      obtain ⟨-, hst | hst | hst⟩ := hx
      · rw [he] at hst; cases hst
      · rw [he] at hst; cases hst
      · exact absurd (Or.inl hst) hnd
    · exact (Strided.of_eq (by simp [h2 x hxn]) (by simp [s2])).mpr hx

/-- **The last step of `fork`**: the pushed child becomes runnable in `mlfq[0]`. -/
theorem Inv.forkDone {p np : ProcId} (h : Inv s) (hf : s.forks p = .pushed np) :
    Inv { s.setState np .runnable with forks := Function.update s.forks p .none } := by
  obtain ⟨he, hnd, honly⟩ := h.procs.child_spec
    (show (s.forks p).child = some np by rw [hf]; rfl)
  have hl0 := h.procs.pushedLev p np hf
  have hP : ProcInv ({ s with forks := Function.update s.forks p .none }.setState np .runnable) := by
    refine h.procs.endFork.setState (fun h' => absurd h' (by decide)) (fun hd => absurd hd hnd)
      (fun _ h' => absurd h' (by decide)) fun p' hc => ?_
    rcases ForkStage.child_update hc with ⟨-, hb⟩ | ⟨hp', hc⟩
    · cases hb
    · exact absurd (honly p' hc) hp'
  have hpx : ∀ x, x ≠ np → ((∃ p', Function.update s.forks p .none p' = .pushed x) ↔
      ∃ p', s.forks p' = .pushed x) := fun x hxn =>
    pushed_update_iff (by rw [hf]; exact fun h' => hxn (ForkStage.pushed.inj h').symm) (by simp)
  refine ⟨hP, ?_, h.badLev, h.pushFull, ?_⟩
  · refine h.queues.of_procs rfl (fun _ => Iff.rfl) fun x _ => ⟨?_, ?_⟩
    · by_cases hxn : x = np
      · -- queued before as a pushed embryo, after as a runnable process
        subst hxn
        constructor
        · intro _; exact ⟨hl0, Or.inr (Or.inr ⟨he, p, hf⟩)⟩
        · intro _; exact ⟨by simpa using hl0, Or.inl (by simp)⟩
      · simp only [Queued, Sys.setState_procs_of_ne _ _ _ hxn, hpx x hxn]
    · by_cases hxn : x = np
      · subst hxn; simp
      · simp [Sys.setState_procs_of_ne _ _ _ hxn]
  · refine h.stride.of_procs rfl rfl fun x hx => ?_
    by_cases hxn : x = np
    · subst hxn
      have := hx.1
      rw [this] at hl0; exact absurd hl0 (by decide)
    · exact (Strided.setState_of_ne hxn).mpr hx

/-! ## `userinit` -/

/-- **`userinit`**: the first process is allocated, put at level 0, pushed and made
runnable. -/
theorem Inv.userinit {s' : Sys 1} (h : Inv s) (he : userinit s = some s') : Inv s' := by
  obtain ⟨np, hu, rfl⟩ := userinit_cases he
  obtain ⟨hnd, hnc⟩ := h.procs.unused_spec hu
  set s2 := { s.setState np .embryo with initproc := some np }.modifyProc np
    fun pr => { pr with lev := 0, cticks := 0 }
  set t := s2.setState np .runnable
  have h2 : ∀ x, x ≠ np → t.procs x = s.procs x := fun x hx => by
    simp [t, s2, Sys.setState_procs_of_ne _ _ _ hx, Sys.modifyProc_procs_of_ne _ _ _ hx]
  have hqt : QueuesOk t (fun x => MlfqRunning s x ∨ x = np) := by
    refine h.queues.aside (Or.inl fun hQ => ?_) rfl fun x hxn _ =>
      ⟨Queued.of_eq (h2 x hxn) rfl, by rw [h2 x hxn]⟩
    obtain ⟨-, hst | hst | ⟨hst, -⟩⟩ := hQ <;> rw [hu] at hst <;> cases hst
  have hQt : Queued t np := ⟨by simp [t, s2, nmlfq], Or.inl (by simp [t])⟩
  obtain ⟨lev, q', hpush, hq', -, -⟩ := hqt.push hQt fun hm => hnd (Or.inr hm)
  obtain ⟨hcm, hcb, hcf⟩ := mlfqPush_congr (s := s2) (t := t) (p := np) (by simp [t]) rfl rfl rfl
  rw [hpush] at hcm hcb hcf
  have hprocs : ((mlfqPush s2 np).setState np .runnable).procs = t.procs := by
    simp only [t, Sys.setState, Sys.modifyProc, mlfqPush_procs]
  refine ⟨?_, ?_, ?_, ?_, ?_⟩
  · refine h.procs.update_free hnd (fun p hc => absurd hc (hnc p)) (fun p hp => ?_)
      (by simp [s2]) (by simp [s2]) (fun x hx => hprocs ▸ h2 x hx) (by rw [hprocs]; simp [t])
      (Or.inl (by rw [hprocs]; simp [t, s2, nmlfq]))
    exact absurd (by rw [hp]; rfl) (hnc p)
  · exact (hq'.congr (by rw [hprocs]; rfl) (by rw [Sys.setState_mlfq, ← hcm]) (by simp [t, s2])).of_procs
      rfl (fun x => by simp [MlfqRunning, s2])
      fun _ _ => ⟨Iff.rfl, rfl⟩
  · rw [Sys.setState_badLev, ← hcb]; exact h.badLev
  · rw [Sys.setState_pushFull, ← hcf]; exact h.pushFull
  · refine h.stride.of_procs (by simp [s2]) (by simp [s2]) fun x hx => ?_
    by_cases hxn : x = np
    · subst hxn
      obtain ⟨-, hst | hst | hst⟩ := hx
      · rw [hu] at hst; cases hst
      · rw [hu] at hst; cases hst
      · exact absurd (Or.inl hst) hnd
    · exact (Strided.of_eq (by rw [hprocs]; exact h2 x hxn) (by simp [s2])).mpr hx

end Xv6
