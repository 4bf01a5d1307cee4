import Xv6.Sched.Inv

/-!
# The invariant under the calls of the running process

`exit`, `sleep`, `yield`, the timer tick, `wait`, the stages of `fork` and
`set_cpu_share`, and the two events that do not come from the running process,
`userinit` and `wakeup`. On one CPU the process that acts is the one the CPU has
dispatched, so a call changes its own record or that of a process nobody has
dispatched: `ProcInv.setState` and `ProcInv.update_free` say once what each of the two
needs, and the event lemmas only supply the side conditions.
-/

set_option autoImplicit false

namespace Xv6

variable {s : Sys 1}

/-! ## The dispatched process -/

theorem StrideRunning.eq {p q : ProcId} (hp : StrideRunning s p) (hq : StrideRunning s q) :
    p = q := by
  obtain ⟨i, hi⟩ := hp
  obtain ⟨j, hj⟩ := hq
  rw [hi] at hj
  cases hj
  rfl

theorem MlfqRunning.eq {p q : ProcId} (hp : MlfqRunning s p) (hq : MlfqRunning s q) : p = q := by
  obtain ⟨i, hi⟩ := hp
  obtain ⟨j, hj⟩ := hq
  rw [hi] at hj
  cases hj
  rfl

theorem StrideRunning.not_mlfq {p q : ProcId} (hp : StrideRunning s p) (hq : MlfqRunning s q) :
    False := by
  obtain ⟨i, hi⟩ := hp
  obtain ⟨j, hj⟩ := hq
  rw [hi] at hj
  cases hj

/-- The process a CPU has dispatched is the one of either kind. -/
theorem dispatched_eq {p q : ProcId} (hp : StrideRunning s p ∨ MlfqRunning s p)
    (hq : StrideRunning s q ∨ MlfqRunning s q) : q = p := by
  rcases hp with hp | hp <;> rcases hq with hq | hq
  · exact hq.eq hp
  · exact (hp.not_mlfq hq).elim
  · exact (hq.not_mlfq hp).elim
  · exact hq.eq hp

theorem runningOn_spec {p : ProcId} (h : runningOn s 0 = some p) :
    (StrideRunning s p ∨ MlfqRunning s p) ∧ (s.procs p).state = .running := by
  unfold runningOn at h
  split at h
  · rename_i item q hc
    by_cases hr : (s.procs q).state = .running
    · rw [if_pos hr] at h
      cases h
      exact ⟨Or.inl ⟨item, hc⟩, hr⟩
    · rw [if_neg hr] at h
      cases h
  · rename_i item q hc
    by_cases hr : (s.procs q).state = .running
    · rw [if_pos hr] at h
      cases h
      exact ⟨Or.inr ⟨item, hc⟩, hr⟩
    · rw [if_neg hr] at h
      cases h
  · cases h

/-- The process that acts on CPU 0 is the only one dispatched there. -/
theorem runningOn_dispatched {p q : ProcId} (hp : runningOn s 0 = some p)
    (hq : StrideRunning s q ∨ MlfqRunning s q) : q = p :=
  dispatched_eq (runningOn_spec hp).1 hq

/-- A process that runs and is not MLFQ-dispatched is stride-dispatched. -/
theorem StrideRunning.of_runningOn {p : ProcId} (hp : runningOn s 0 = some p)
    (hm : ¬ MlfqRunning s p) : StrideRunning s p :=
  (runningOn_spec hp).1.resolve_right hm

/-! ## Writes to one process -/

theorem Queued.of_eq {s' : Sys 1} {x : ProcId} (hp : s'.procs x = s.procs x)
    (hf : s'.forks = s.forks) : Queued s' x ↔ Queued s x := by
  simp only [Queued, hp, hf]

theorem Strided.of_eq {s' : Sys 1} {x : ProcId} (hp : s'.procs x = s.procs x)
    (hc : s'.cpus 0 = s.cpus 0) : Strided s' x ↔ Strided s x := by
  simp only [Strided, StrideRunning, hp, hc]

theorem Queued.setState_of_ne {q x : ProcId} {st : ProcState} (hx : x ≠ q) :
    Queued (s.setState q st) x ↔ Queued s x := by
  simp only [Queued, Sys.setState_procs_of_ne _ _ _ hx, Sys.setState_forks]

theorem Strided.setState_of_ne {q x : ProcId} {st : ProcState} (hx : x ≠ q) :
    Strided (s.setState q st) x ↔ Strided s x := by
  simp only [Strided, StrideRunning, Sys.setState_procs_of_ne _ _ _ hx, Sys.setState_cpus]

/-- Everything `ProcInv` reads is the state and the level of each process, the CPU's
phase and the forks. -/
theorem ProcInv.of_frame {s' : Sys 1} (h : ProcInv s) (hc : s'.cpus 0 = s.cpus 0)
    (hf : s'.forks = s.forks)
    (hp : ∀ q, (s'.procs q).state = (s.procs q).state ∧ (s'.procs q).lev = (s.procs q).lev) :
    ProcInv s' := by
  have hS : ∀ q, StrideRunning s' q ↔ StrideRunning s q := fun q => by simp only [StrideRunning, hc]
  have hM : ∀ q, MlfqRunning s' q ↔ MlfqRunning s q := fun q => by simp only [MlfqRunning, hc]
  refine ⟨fun q => ?_, fun q hq => ?_, fun q hq => ?_, fun q hq => ?_, fun q hq hr => ?_,
    fun p q hq => ?_, fun p q hq => ?_, fun p p' q => ?_⟩
  · rw [(hp q).2]; exact h.lev q
  · rw [(hp q).1] at hq; rw [hS, hM]; exact h.running q hq
  · rw [hS, hM] at hq; rw [(hp q).1]; exact h.dispatched q hq
  · rw [(hp q).2]; exact h.strideLev q ((hS q).mp hq)
  · rw [(hp q).1] at hr; rw [(hp q).2]; exact h.mlfqLev q ((hM q).mp hq) hr
  · rw [hf] at hq; rw [(hp q).1]; exact h.child p q hq
  · rw [hf] at hq; rw [(hp q).2]; exact h.pushedLev p q hq
  · rw [hf]; exact h.childInj p p' q

/-- A change of one process's state, with what it needs: a process that runs now was
dispatched, a dispatched process stays a real one, an MLFQ-dispatched process that runs
has an MLFQ level, and the child of a `fork` stays an embryo. -/
theorem ProcInv.setState {q : ProcId} {st : ProcState} (h : ProcInv s)
    (hrun : st = .running → StrideRunning s q ∨ MlfqRunning s q)
    (hdisp : StrideRunning s q ∨ MlfqRunning s q → st ≠ .unused ∧ st ≠ .embryo)
    (hmlfq : MlfqRunning s q → st = .running → (s.procs q).lev < nmlfq)
    (hchild : ∀ p, (s.forks p).child = some q → st = .embryo) :
    ProcInv (s.setState q st) := by
  refine ⟨fun x => ?_, fun x hx => ?_, fun x hx => ?_, fun x hx => ?_, fun x hx hr => ?_,
    fun p x hx => ?_, fun p x hx => ?_, h.childInj⟩
  · by_cases hxq : x = q
    · subst hxq; simpa using h.lev x
    · rw [Sys.setState_procs_of_ne _ _ _ hxq]; exact h.lev x
  · by_cases hxq : x = q
    · subst hxq; exact hrun (by simpa using hx)
    · rw [Sys.setState_procs_of_ne _ _ _ hxq] at hx; exact h.running x hx
  · by_cases hxq : x = q
    · subst hxq; simpa using hdisp hx
    · rw [Sys.setState_procs_of_ne _ _ _ hxq]; exact h.dispatched x hx
  · by_cases hxq : x = q
    · subst hxq; simpa using h.strideLev x hx
    · rw [Sys.setState_procs_of_ne _ _ _ hxq]; exact h.strideLev x hx
  · by_cases hxq : x = q
    · subst hxq; simpa using hmlfq hx (by simpa using hr)
    · rw [Sys.setState_procs_of_ne _ _ _ hxq] at hr ⊢; exact h.mlfqLev x hx hr
  · by_cases hxq : x = q
    · subst hxq; simpa using hchild p hx
    · rw [Sys.setState_procs_of_ne _ _ _ hxq]; exact h.child p x hx
  · by_cases hxq : x = q
    · subst hxq; simpa using h.pushedLev p x hx
    · rw [Sys.setState_procs_of_ne _ _ _ hxq]; exact h.pushedLev p x hx

/-- A write to a process nobody has dispatched, which leaves it not running at a valid
level; if a `fork` is creating it, it stays an embryo, at an MLFQ level once pushed. -/
theorem ProcInv.update_free {s' : Sys 1} {q : ProcId} (h : ProcInv s)
    (hd : ¬ (StrideRunning s q ∨ MlfqRunning s q))
    (hchild : ∀ p, (s.forks p).child = some q → (s'.procs q).state = .embryo)
    (hpush : ∀ p, s.forks p = .pushed q → (s'.procs q).lev < nmlfq)
    (hcpu : s'.cpus 0 = s.cpus 0) (hf : s'.forks = s.forks)
    (hp : ∀ x, x ≠ q → s'.procs x = s.procs x) (hst : (s'.procs q).state ≠ .running)
    (hl : (s'.procs q).lev < nmlfq ∨ (s'.procs q).lev = strideProcLevel) : ProcInv s' := by
  have hS : ∀ x, StrideRunning s' x ↔ StrideRunning s x := fun x => by
    simp only [StrideRunning, hcpu]
  have hM : ∀ x, MlfqRunning s' x ↔ MlfqRunning s x := fun x => by simp only [MlfqRunning, hcpu]
  have hd' : ∀ x, StrideRunning s' x ∨ MlfqRunning s' x → x ≠ q := fun x hx hxq =>
    hd (hxq ▸ (by rwa [hS, hM] at hx))
  refine ⟨fun x => ?_, fun x hx => ?_, fun x hx => ?_, fun x hx => ?_, fun x hx hr => ?_,
    fun p x hx => ?_, fun p x hx => ?_, fun p p' x => ?_⟩
  · by_cases hxq : x = q
    · exact hxq ▸ hl
    · rw [hp x hxq]; exact h.lev x
  · have hxq : x ≠ q := fun hxq => hst (hxq ▸ hx)
    rw [hp x hxq] at hx
    rw [hS, hM]; exact h.running x hx
  · rw [hp x (hd' x hx)]; exact h.dispatched x (by rwa [hS, hM] at hx)
  · rw [hp x (hd' x (Or.inl hx))]; exact h.strideLev x ((hS x).mp hx)
  · have hxq := hd' x (Or.inr hx)
    rw [hp x hxq] at hr ⊢; exact h.mlfqLev x ((hM x).mp hx) hr
  · rw [hf] at hx
    by_cases hxq : x = q
    · subst hxq; exact hchild p hx
    · rw [hp x hxq]; exact h.child p x hx
  · rw [hf] at hx
    by_cases hxq : x = q
    · subst hxq; exact hpush p hx
    · rw [hp x hxq]; exact h.pushedLev p x hx
  · rw [hf]; exact h.childInj p p' x

/-- A change of one process's state keeps the invariant when `ProcInv.setState`'s
conditions hold, the process stays queued or not as before (unless MLFQ-dispatched),
and a stride process stays one. -/
theorem Inv.setState {q : ProcId} {st : ProcState} (h : Inv s)
    (hrun : st = .running → StrideRunning s q ∨ MlfqRunning s q)
    (hdisp : StrideRunning s q ∨ MlfqRunning s q → st ≠ .unused ∧ st ≠ .embryo)
    (hmlfq : MlfqRunning s q → st = .running → (s.procs q).lev < nmlfq)
    (hchild : ∀ p, (s.forks p).child = some q → st = .embryo)
    (hQ : ¬ MlfqRunning s q → (Queued (s.setState q st) q ↔ Queued s q))
    (hS : Strided s q → Strided (s.setState q st) q) : Inv (s.setState q st) where
  procs := h.procs.setState hrun hdisp hmlfq hchild
  queues := h.queues.of_procs rfl (fun _ => Iff.rfl) fun x hx => by
    by_cases hxq : x = q
    · subst hxq; exact ⟨hQ hx, by simp⟩
    · exact ⟨Queued.setState_of_ne hxq, by rw [Sys.setState_procs_of_ne _ _ _ hxq]⟩
  badLev := h.badLev
  pushFull := h.pushFull
  stride := h.stride.of_procs rfl rfl fun x hx => by
    by_cases hxq : x = q
    · subst hxq; exact hS hx
    · exact (Strided.setState_of_ne hxq).mpr hx

/-! ## Bookkeeping writes -/

/-- What the yield tests and the end of a dispatch write besides states: tick counters,
`cticks` and `yield_by`. -/
def TickFrame (s s' : Sys 1) : Prop :=
  s'.stride = s.stride ∧ s'.mlfq = s.mlfq ∧ s'.cpus = s.cpus ∧ s'.forks = s.forks ∧
    s'.badLev = s.badLev ∧ s'.pushFull = s.pushFull ∧
    ∀ q, (s'.procs q).state = (s.procs q).state ∧ (s'.procs q).lev = (s.procs q).lev

theorem TickFrame.refl (s : Sys 1) : TickFrame s s :=
  ⟨rfl, rfl, rfl, rfl, rfl, rfl, fun _ => ⟨rfl, rfl⟩⟩

theorem TickFrame.trans {s₁ s₂ s₃ : Sys 1} (h₁ : TickFrame s₁ s₂) (h₂ : TickFrame s₂ s₃) :
    TickFrame s₁ s₃ := by
  obtain ⟨a₁, b₁, c₁, d₁, e₁, f₁, g₁⟩ := h₁
  obtain ⟨a₂, b₂, c₂, d₂, e₂, f₂, g₂⟩ := h₂
  exact ⟨a₂.trans a₁, b₂.trans b₁, c₂.trans c₁, d₂.trans d₁, e₂.trans e₁, f₂.trans f₁,
    fun q => ⟨(g₂ q).1.trans (g₁ q).1, (g₂ q).2.trans (g₁ q).2⟩⟩

theorem TickFrame.modifyProc {p : ProcId} {f : Proc → Proc}
    (hf : (f (s.procs p)).state = (s.procs p).state ∧ (f (s.procs p)).lev = (s.procs p).lev) :
    TickFrame s (s.modifyProc p f) := by
  refine ⟨rfl, rfl, rfl, rfl, rfl, rfl, fun q => ?_⟩
  by_cases hq : q = p
  · subst hq; simpa using hf
  · rw [Sys.modifyProc_procs_of_ne _ _ _ hq]; exact ⟨rfl, rfl⟩

theorem TickFrame.runningOn {s' : Sys 1} (h : TickFrame s s') : runningOn s' 0 = runningOn s 0 := by
  obtain ⟨-, -, hc, -, -, -, hp⟩ := h
  simp only [Xv6.runningOn, hc, (hp _).1]

theorem QueuesOk.of_tickFrame {s' : Sys 1} {E : ProcId → Prop} (hq : QueuesOk s E)
    (hf : TickFrame s s') : QueuesOk s' E := by
  obtain ⟨-, hm, -, hfk, -, -, hp⟩ := hf
  exact hq.of_procs hm (fun _ => Iff.rfl) fun x _ =>
    ⟨by simp only [Queued, (hp x).1, (hp x).2, hfk], (hp x).2⟩

theorem Inv.of_tickFrame {s' : Sys 1} (h : Inv s) (hf : TickFrame s s') : Inv s' := by
  have hq := h.queues.of_tickFrame hf
  obtain ⟨hst, -, hc, hfk, hb, hpf, hp⟩ := hf
  have hc0 : s'.cpus 0 = s.cpus 0 := by rw [hc]
  refine ⟨h.procs.of_frame hc0 hfk hp, ?_, hb.trans h.badLev, hpf.trans h.pushFull, ?_⟩
  · exact hq.of_procs rfl (fun x => by simp only [MlfqRunning, hc0]) fun _ _ => ⟨Iff.rfl, rfl⟩
  · exact h.stride.of_procs hst hc0 fun x hx => by
      simpa only [Strided, StrideRunning, (hp x).1, (hp x).2, hc0] using hx

theorem strideHasToYield_tickFrame (s : Sys 1) (p : ProcId) :
    TickFrame s (strideHasToYield s p).2 := by
  unfold strideHasToYield
  refine TickFrame.trans ?_ (TickFrame.modifyProc ?_)
  · exact ⟨rfl, rfl, rfl, rfl, rfl, rfl, fun _ => ⟨rfl, rfl⟩⟩
  constructor <;> simp only [apply_ite Proc.state, apply_ite Proc.lev, ite_self]

theorem mlfqHasToYield_tickFrame (s : Sys 1) (p : ProcId) :
    TickFrame s (mlfqHasToYield s p).2 := by
  unfold mlfqHasToYield
  refine TickFrame.trans ?_ (TickFrame.modifyProc ?_)
  · exact ⟨rfl, rfl, rfl, rfl, rfl, rfl, fun _ => ⟨rfl, rfl⟩⟩
  constructor <;> simp only [apply_ite Proc.state, apply_ite Proc.lev, ite_self]

/-- A timer tick either only counts, or counts and yields. -/
theorem trapTick_cases (s : Sys 1) (p : ProcId) :
    ∃ t, TickFrame s t ∧ (trapTick s p = t ∨ trapTick s p = yieldProc t p) := by
  unfold trapTick
  have h1 := strideHasToYield_tickFrame s p
  generalize strideHasToYield s p = r at h1 ⊢
  obtain ⟨y, s1⟩ := r
  cases y
  · simp only [Bool.false_eq_true, if_false]
    split
    · have h2 := mlfqHasToYield_tickFrame s1 p
      generalize mlfqHasToYield s1 p = r2 at h2 ⊢
      obtain ⟨y2, s2⟩ := r2
      cases y2
      · exact ⟨s2, h1.trans h2, Or.inl rfl⟩
      · exact ⟨s2, h1.trans h2, Or.inr rfl⟩
    · exact ⟨s1, h1, Or.inl rfl⟩
  · exact ⟨s1, h1, Or.inr rfl⟩

/-! ## Giving the CPU back -/

/-- **`exit`, `sleep` and `yield`** of the running process keep the invariant: it leaves
the CPU as a zombie, asleep or runnable, still dispatched until the round goes on. -/
theorem Inv.release {p : ProcId} {st : ProcState} (h : Inv s) (hp : runningOn s 0 = some p)
    (hst : st = .runnable ∨ st = .sleeping ∨ st = .zombie) : Inv (s.setState p st) := by
  obtain ⟨hd, hr⟩ := runningOn_spec hp
  have hnr : st ≠ .running := by rcases hst with rfl | rfl | rfl <;> decide
  have hemb : (s.procs p).state ≠ .embryo := by rw [hr]; decide
  refine h.setState (fun h' => absurd h' hnr)
    (fun _ => by rcases hst with rfl | rfl | rfl <;> decide) (fun _ h' => absurd h' hnr)
    (fun p' hc => absurd (h.procs.child p' p hc) hemb) (fun hm => ?_) (fun hS => ?_)
  · -- a stride process is in no queue, before and after
    have hl : ¬ (s.procs p).lev < nmlfq := by
      rw [h.procs.strideLev p (StrideRunning.of_runningOn hp hm)]; decide
    simp only [Queued, Sys.setState_procs_self, hl, false_and]
  · -- a running stride process is the one the round dispatched
    have hS' : StrideRunning s p := by
      rcases hd with hd | hd
      · exact hd
      · have := h.procs.mlfqLev p hd hr
        rw [hS.1] at this; exact absurd this (by decide)
    exact ⟨by simpa using hS.1, Or.inr (Or.inr hS')⟩

theorem Inv.yield {p : ProcId} (h : Inv s) (hp : runningOn s 0 = some p) :
    Inv (yieldProc s p) :=
  h.release hp (Or.inl rfl)

theorem Inv.tick {p : ProcId} (h : Inv s) (hp : runningOn s 0 = some p) :
    Inv (trapTick s p) := by
  obtain ⟨t, ht, he | he⟩ := trapTick_cases s p
  · rw [he]; exact h.of_tickFrame ht
  · rw [he]; exact (h.of_tickFrame ht).yield (by rw [ht.runningOn]; exact hp)

theorem Inv.exit {p : ProcId} {s' : Sys 1} (h : Inv s) (hp : runningOn s 0 = some p)
    (he : exitProc s p = some s') : Inv s' := by
  unfold exitProc at he
  split at he
  · cases he
  · cases he; exact h.release hp (Or.inr (Or.inr rfl))

/-! ## Processes nobody has dispatched -/

/-- **`wakeup`** turns a sleeping process runnable; it stays in its queue. -/
theorem Inv.wakeup (h : Inv s) (q : ProcId) : Inv (wakeupProc s q) := by
  unfold wakeupProc
  split
  · rename_i hs
    refine h.setState (fun h' => absurd h' (by decide)) (fun _ => ⟨by decide, by decide⟩)
      (fun _ h' => absurd h' (by decide))
      (fun p hp => absurd (h.procs.child p q hp) (by rw [hs]; decide)) (fun _ => ?_) ?_
    · simp [Queued, hs]
    · rintro ⟨hl, -⟩
      exact ⟨by simpa using hl, Or.inl (by simp)⟩
  · exact h

/-- A process that is not dispatched and not the child of a `fork` in progress. -/
theorem ProcInv.free_of_state {q : ProcId} (h : ProcInv s)
    (hq : (s.procs q).state = .unused ∨ (s.procs q).state = .zombie ∧ ∃ p, runningOn s 0 = some p) :
    ¬ (StrideRunning s q ∨ MlfqRunning s q) ∧ ∀ p, (s.forks p).child ≠ some q := by
  refine ⟨fun hd => ?_, fun p hc => ?_⟩
  · rcases hq with hq | ⟨hq, p, hp⟩
    · exact (h.dispatched q hd).1 hq
    · obtain rfl := runningOn_dispatched hp hd
      rw [(runningOn_spec hp).2] at hq; cases hq
  · have := h.child p q hc
    rcases hq with hq | ⟨hq, -⟩ <;> rw [hq] at this <;> cases this

/-- **`wait`** reaps a zombie: it is in no queue, owns no stride item, and is not the
process the CPU runs. -/
theorem Inv.reap {p q : ProcId} (h : Inv s) (hp : runningOn s 0 = some p)
    (hz : (s.procs q).state = .zombie) : Inv (s.setState q .unused) := by
  obtain ⟨hd, hc⟩ := h.procs.free_of_state (Or.inr ⟨hz, p, hp⟩)
  refine h.setState (fun h' => absurd h' (by decide)) (fun hd' => absurd hd' hd)
    (fun _ h' => absurd h' (by decide)) (fun p' hp' => absurd hp' (hc p')) (fun _ => ?_) ?_
  · simp [Queued, hz]
  · rintro ⟨-, hst | hst | hst⟩
    · rw [hz] at hst; cases hst
    · rw [hz] at hst; cases hst
    · exact absurd (Or.inl hst) hd

end Xv6
