import Xv6.Sched.Mlfq

/-!
# What the MLFQ operations do to the queues

`QueuesOk s E` is the membership invariant of the three queues with the processes of `E`
set aside: every queue holds, once each, exactly the processes of its level that belong in
a queue (`Queued`) and are not in `E`. `E` is where a process popped by the scan, or
dispatched by it, stays until `mlfq_scheduler` pushes it back.

For each operation there is one lemma saying what it does under `QueuesOk`: a pop takes
the front out (into `E`), `mlfq_push` of a process of `E` puts it back at the rear (the
duplicate test against `queue_rear` never fires, and the queue is never full, since a
queue of distinct processes that lacks the one pushed has at most `NPROC - 1` of them),
the scan and the boost keep the invariant, and nothing else of the state changes.
-/

set_option autoImplicit false

namespace Xv6

variable {n : Nat}

/-- `q` belongs in an MLFQ queue: its level is below `NMLFQ`, and it is runnable, asleep,
or an embryo that its parent's `fork` has pushed. -/
def Queued (s : Sys n) (q : ProcId) : Prop :=
  (s.procs q).lev < nmlfq ∧ ((s.procs q).state = .runnable ∨ (s.procs q).state = .sleeping ∨
    ((s.procs q).state = .embryo ∧ ∃ p, s.forks p = .pushed q))

/-- Queue `lev` holds, without repetition, the queued processes of level `lev` outside `E`. -/
def LevelOk (s : Sys n) (E : ProcId → Prop) (lev : Fin nmlfq) : Prop :=
  ∃ L, (s.mlfq lev).Holds L ∧ L.Nodup ∧
    ∀ q, q ∈ L ↔ Queued s q ∧ ¬ E q ∧ (s.procs q).lev = lev.val

/-- The membership invariant of all three queues, with `E` set aside. -/
def QueuesOk (s : Sys n) (E : ProcId → Prop) : Prop := ∀ lev, LevelOk s E lev

/-- The state of every process is kept, a level below `NMLFQ` stays below it, and any
other level is kept: what every MLFQ operation does to `ptable`. -/
def LevFrame (s s' : Sys n) : Prop :=
  ∀ q, (s'.procs q).state = (s.procs q).state ∧
    ((s.procs q).lev < nmlfq → (s'.procs q).lev < nmlfq) ∧
    (¬ (s.procs q).lev < nmlfq → (s'.procs q).lev = (s.procs q).lev)

theorem LevFrame.refl (s : Sys n) : LevFrame s s := fun _ => ⟨rfl, id, fun _ => rfl⟩

/-- A write that keeps every state and every level. -/
theorem LevFrame.of_eq {s s' : Sys n}
    (hp : ∀ q, (s'.procs q).state = (s.procs q).state ∧ (s'.procs q).lev = (s.procs q).lev) :
    LevFrame s s' :=
  fun q => ⟨(hp q).1, fun h => (hp q).2 ▸ h, fun _ => (hp q).2⟩

theorem LevFrame.trans {s₁ s₂ s₃ : Sys n} (h₁ : LevFrame s₁ s₂) (h₂ : LevFrame s₂ s₃) :
    LevFrame s₁ s₃ := by
  intro q
  obtain ⟨hs₁, hl₁, hu₁⟩ := h₁ q
  obtain ⟨hs₂, hl₂, hu₂⟩ := h₂ q
  refine ⟨hs₂.trans hs₁, fun h => hl₂ (hl₁ h), fun h => ?_⟩
  have h' : ¬ (s₂.procs q).lev < nmlfq := by rw [hu₁ h]; exact h
  rw [hu₂ h', hu₁ h]

/-- A write to the process table that keeps `q`'s state and a level below `NMLFQ`. -/
theorem LevFrame.modifyProc {s : Sys n} {p : ProcId} {f : Proc → Proc}
    (hs : (f (s.procs p)).state = (s.procs p).state) (hl : (s.procs p).lev < nmlfq)
    (hl' : (f (s.procs p)).lev < nmlfq) : LevFrame s (s.modifyProc p f) := by
  intro q
  by_cases hq : q = p
  · subst hq
    simp only [Sys.modifyProc_procs_self]
    exact ⟨hs, fun _ => hl', fun h => absurd hl h⟩
  · rw [Sys.modifyProc_procs_of_ne _ _ _ hq]
    exact ⟨rfl, id, fun _ => rfl⟩

/-- A queue of distinct processes that lacks one of them has room for it. -/
theorem room_of_nodup {p : ProcId} {L : List ProcId} (h : (p :: L).Nodup) :
    L.length + 1 < queueCap := by
  have hc := h.length_le_card
  simp only [Fintype.card_fin, List.length_cons] at hc
  simp only [queueCap, nproc] at hc ⊢
  omega

/-! ## Pop and push -/

theorem mlfqPop_holds {s : Sys n} {lev : Fin nmlfq} {p : ProcId} {L : List ProcId}
    (h : (s.mlfq lev).Holds (p :: L)) :
    ∃ q', mlfqPop s lev = (some p, s.setQueue lev q') ∧ q'.Holds L := by
  obtain ⟨hfront, q', hq', hL⟩ := h.pop
  exact ⟨q', by simp [mlfqPop, hfront, hq'], hL⟩

theorem queuePushAt_holds {s : Sys n} {lev : Fin nmlfq} {p : ProcId} {L : List ProcId}
    (h : (s.mlfq lev).Holds L) (hroom : L.length + 1 < queueCap) :
    ∃ q', queuePushAt s lev p = s.setQueue lev q' ∧ q'.Holds (L ++ [p]) := by
  obtain ⟨q', hq', hL⟩ := h.push hroom p
  exact ⟨q', by simp [queuePushAt, hq'], hL⟩

/-- `mlfq_push` of a process not in the queue of its level appends it there. -/
theorem mlfqPush_holds {s : Sys n} {lev : Fin nmlfq} {p : ProcId} {L : List ProcId}
    (hlev : (s.procs p).lev = lev.val) (h : (s.mlfq lev).Holds L) (hp : p ∉ L)
    (hroom : L.length + 1 < queueCap) :
    ∃ q', mlfqPush s p = s.setQueue lev q' ∧ q'.Holds (L ++ [p]) := by
  have hl : (s.procs p).lev < nmlfq := hlev ▸ lev.isLt
  have hfin : (⟨(s.procs p).lev, hl⟩ : Fin nmlfq) = lev := Fin.ext hlev
  obtain ⟨q', hq', hL⟩ := queuePushAt_holds (p := p) h hroom
  refine ⟨q', ?_, hL⟩
  rw [mlfqPush, dif_pos hl, hfin, if_neg (h.rear_ne hp)]
  exact hq'

/-! ## What `mlfq_push` writes -/

/-- `mlfq_push` writes the queues and the two error flags, nothing else. -/
theorem mlfqPush_eq (s : Sys n) (p : ProcId) :
    ∃ m b f, mlfqPush s p = { s with mlfq := m, badLev := b, pushFull := f } := by
  unfold mlfqPush queuePushAt
  split
  · split
    · exact ⟨_, _, _, rfl⟩
    · split
      · exact ⟨_, _, _, rfl⟩
      · exact ⟨_, _, _, rfl⟩
  · exact ⟨_, _, _, rfl⟩

section PushFrame

variable (s : Sys n) (p : ProcId)

@[simp] theorem mlfqPush_procs : (mlfqPush s p).procs = s.procs := by
  obtain ⟨m, b, f, h⟩ := mlfqPush_eq s p; rw [h]
@[simp] theorem mlfqPush_stride : (mlfqPush s p).stride = s.stride := by
  obtain ⟨m, b, f, h⟩ := mlfqPush_eq s p; rw [h]
@[simp] theorem mlfqPush_cpus : (mlfqPush s p).cpus = s.cpus := by
  obtain ⟨m, b, f, h⟩ := mlfqPush_eq s p; rw [h]
@[simp] theorem mlfqPush_forks : (mlfqPush s p).forks = s.forks := by
  obtain ⟨m, b, f, h⟩ := mlfqPush_eq s p; rw [h]

end PushFrame

/-- What `mlfq_push` writes depends on the process's level, the queues and the flags only. -/
theorem mlfqPush_congr {s t : Sys n} {p : ProcId} (hl : (t.procs p).lev = (s.procs p).lev)
    (hm : t.mlfq = s.mlfq) (hb : t.badLev = s.badLev) (hf : t.pushFull = s.pushFull) :
    (mlfqPush t p).mlfq = (mlfqPush s p).mlfq ∧ (mlfqPush t p).badLev = (mlfqPush s p).badLev ∧
      (mlfqPush t p).pushFull = (mlfqPush s p).pushFull := by
  unfold mlfqPush
  by_cases h : (s.procs p).lev < nmlfq
  · have h' : (t.procs p).lev < nmlfq := hl ▸ h
    have hfin : (⟨(t.procs p).lev, h'⟩ : Fin nmlfq) = ⟨(s.procs p).lev, h⟩ := Fin.ext hl
    rw [dif_pos h, dif_pos h', hfin, hm]
    split
    · exact ⟨hm, hb, hf⟩
    · unfold queuePushAt
      rw [hm]
      split
      · exact ⟨by simp [hm], hb, hf⟩
      · exact ⟨rfl, hb, rfl⟩
  · have h' : ¬ (t.procs p).lev < nmlfq := hl ▸ h
    rw [dif_neg h, dif_neg h']
    exact ⟨hm, rfl, hf⟩

/-! ## The membership invariant under the operations -/

section Invariant

variable {s : Sys n} {E : ProcId → Prop}

/-- Taking the front `p` of level `lev` out sets it aside. -/
theorem QueuesOk.pop (hq : QueuesOk s E) {lev : Fin nmlfq} {p : ProcId} {L : List ProcId}
    (hh : (s.mlfq lev).Holds (p :: L)) (hnd : (p :: L).Nodup)
    (hmem : ∀ q, q ∈ p :: L ↔ Queued s q ∧ ¬ E q ∧ (s.procs q).lev = lev.val) :
    ∃ q', mlfqPop s lev = (some p, s.setQueue lev q') ∧
      QueuesOk (s.setQueue lev q') (fun x => E x ∨ x = p) ∧
      queueSize q' + 1 = queueSize (s.mlfq lev) ∧
      Queued s p ∧ ¬ E p ∧ (s.procs p).lev = lev.val := by
  obtain ⟨q', hpop, hL⟩ := mlfqPop_holds hh
  have hp := (hmem p).mp (List.mem_cons_self ..)
  refine ⟨q', hpop, fun lev' => ?_, by rw [hL.size, hh.size]; rfl, hp⟩
  by_cases hl : lev' = lev
  · subst hl
    refine ⟨L, by simpa using hL, hnd.of_cons, fun q => ?_⟩
    simp only [Sys.setQueue_procs, Queued, Sys.setQueue_forks] at hmem ⊢
    constructor
    · intro hqL
      have hne : q ≠ p := fun h => (List.nodup_cons.mp hnd).1 (h ▸ hqL)
      obtain ⟨h1, h2, h3⟩ := (hmem q).mp (List.mem_cons_of_mem _ hqL)
      exact ⟨h1, fun h => h.elim h2 hne, h3⟩
    · rintro ⟨h1, h2, h3⟩
      have : q ∈ p :: L := (hmem q).mpr ⟨h1, fun h => h2 (Or.inl h), h3⟩
      rcases List.mem_cons.mp this with h | h
      · exact absurd (Or.inr h) h2
      · exact h
  · obtain ⟨L', hh', hnd', hmem'⟩ := hq lev'
    refine ⟨L', by simpa [Function.update_of_ne hl] using hh', hnd', fun q => ?_⟩
    simp only [Sys.setQueue_procs, Queued, Sys.setQueue_forks] at hmem' ⊢
    rw [hmem' q]
    constructor
    · rintro ⟨h1, h2, h3⟩
      refine ⟨h1, fun h => h.elim h2 fun hqp => hl ?_, h3⟩
      subst hqp
      exact Fin.ext (h3.symm.trans hp.2.2)
    · rintro ⟨h1, h2, h3⟩
      exact ⟨h1, fun h => h2 (Or.inl h), h3⟩

/-- `queue_push_item` of a set-aside queued process onto the queue of its level puts it
back at the rear; the rear was not that process before. -/
theorem QueuesOk.pushAt {p : ProcId} (hq : QueuesOk s (fun x => E x ∨ x = p)) (hQ : Queued s p)
    (hE : ¬ E p) (lev : Fin nmlfq) (hlev : (s.procs p).lev = lev.val) :
    ∃ q', queuePushAt s lev p = s.setQueue lev q' ∧ QueuesOk (s.setQueue lev q') E ∧
      queueSize q' = queueSize (s.mlfq lev) + 1 ∧ queueRear (s.mlfq lev) ≠ some p := by
  obtain ⟨L, hh, hnd, hmem⟩ := hq lev
  have hpL : p ∉ L := fun h => ((hmem p).mp h).2.1 (Or.inr rfl)
  obtain ⟨q', hpush, hL⟩ := queuePushAt_holds (p := p) hh
    (room_of_nodup (List.nodup_cons.mpr ⟨hpL, hnd⟩))
  have hnd2 : (L ++ [p]).Nodup := List.nodup_append_comm.mp (List.nodup_cons.mpr ⟨hpL, hnd⟩)
  refine ⟨q', hpush, fun lev' => ?_, by rw [hL.size, hh.size, List.length_append]; rfl,
    hh.rear_ne hpL⟩
  by_cases hl : lev' = lev
  · subst hl
    refine ⟨L ++ [p], by simpa using hL, hnd2, fun q => ?_⟩
    simp only [Sys.setQueue_procs, Queued, Sys.setQueue_forks] at hmem ⊢
    rw [List.mem_append, List.mem_singleton, hmem q]
    constructor
    · rintro (⟨h1, h2, h3⟩ | rfl)
      · exact ⟨h1, fun h => h2 (Or.inl h), h3⟩
      · exact ⟨hQ, hE, hlev⟩
    · rintro ⟨h1, h2, h3⟩
      by_cases hqp : q = p
      · exact Or.inr hqp
      · exact Or.inl ⟨h1, fun h => h.elim h2 hqp, h3⟩
  · obtain ⟨L', hh', hnd', hmem'⟩ := hq lev'
    refine ⟨L', by simpa [Function.update_of_ne hl] using hh', hnd', fun q => ?_⟩
    simp only [Sys.setQueue_procs, Queued, Sys.setQueue_forks] at hmem' ⊢
    rw [hmem' q]
    constructor
    · rintro ⟨h1, h2, h3⟩
      exact ⟨h1, fun h => h2 (Or.inl h), h3⟩
    · rintro ⟨h1, h2, h3⟩
      refine ⟨h1, fun h => h.elim h2 fun hqp => hl ?_, h3⟩
      subst hqp
      exact Fin.ext (h3.symm.trans hlev)

/-- `mlfq_push` of a set-aside queued process puts it back at the rear of its level. -/
theorem QueuesOk.push {p : ProcId} (hq : QueuesOk s (fun x => E x ∨ x = p)) (hQ : Queued s p)
    (hE : ¬ E p) :
    ∃ lev q', mlfqPush s p = s.setQueue lev q' ∧ QueuesOk (s.setQueue lev q') E ∧
      (s.procs p).lev = lev.val ∧ queueSize q' = queueSize (s.mlfq lev) + 1 := by
  let lev : Fin nmlfq := ⟨(s.procs p).lev, hQ.1⟩
  obtain ⟨q', hpush, hq', hsize, hrear⟩ := hq.pushAt hQ hE lev rfl
  refine ⟨lev, q', ?_, hq', rfl, hsize⟩
  rw [mlfqPush, dif_pos hQ.1, if_neg hrear]
  exact hpush

/-- A set-aside process that no longer belongs in a queue is simply dropped from `E`. -/
theorem QueuesOk.release {p : ProcId} (hq : QueuesOk s (fun x => E x ∨ x = p))
    (hQ : ¬ Queued s p) : QueuesOk s E := by
  intro lev
  obtain ⟨L, hh, hnd, hmem⟩ := hq lev
  refine ⟨L, hh, hnd, fun q => ?_⟩
  rw [hmem q]
  constructor
  · rintro ⟨h1, h2, h3⟩
    exact ⟨h1, fun h => h2 (Or.inl h), h3⟩
  · rintro ⟨h1, h2, h3⟩
    refine ⟨h1, fun h => h.elim h2 fun hqp => hQ (hqp ▸ h1), h3⟩

/-- Queues unchanged, and every process outside `E` queued and at its level as before. -/
theorem QueuesOk.of_procs {s' : Sys n} {E' : ProcId → Prop} (hq : QueuesOk s E)
    (hm : s'.mlfq = s.mlfq) (hE : ∀ x, E' x ↔ E x)
    (hp : ∀ x, ¬ E x → (Queued s' x ↔ Queued s x) ∧ (s'.procs x).lev = (s.procs x).lev) :
    QueuesOk s' E' := by
  intro lev
  obtain ⟨L, hh, hnd, hmem⟩ := hq lev
  refine ⟨L, by rw [hm]; exact hh, hnd, fun q => ?_⟩
  rw [hmem q, hE q]
  by_cases hx : E q
  · simp [hx]
  · rw [(hp q hx).1, (hp q hx).2]

/-- The invariant reads the process table, the forks and the queues only. -/
theorem QueuesOk.congr {s' : Sys n} (hq : QueuesOk s E) (hp : s'.procs = s.procs)
    (hm : s'.mlfq = s.mlfq) (hf : s'.forks = s.forks) : QueuesOk s' E :=
  hq.of_procs hm (fun _ => Iff.rfl) fun x _ => ⟨by simp only [Queued, hp, hf], by rw [hp]⟩

/-- A process in no queue can be set aside, whatever the step makes of it. -/
theorem QueuesOk.aside {s' : Sys n} {p : ProcId} (hq : QueuesOk s E) (hQ : ¬ Queued s p ∨ E p)
    (hm : s'.mlfq = s.mlfq)
    (hp : ∀ x, x ≠ p → ¬ E x → (Queued s' x ↔ Queued s x) ∧ (s'.procs x).lev = (s.procs x).lev) :
    QueuesOk s' (fun x => E x ∨ x = p) := by
  intro lev
  obtain ⟨L, hh, hnd, hmem⟩ := hq lev
  refine ⟨L, by rw [hm]; exact hh, hnd, fun q => ?_⟩
  rw [hmem q]
  by_cases hqp : q = p
  · subst hqp
    constructor
    · rintro ⟨h1, h2, -⟩; exact absurd (hQ.resolve_right h2) (not_not.mpr h1)
    · rintro ⟨-, h2, -⟩; exact absurd (Or.inr rfl) h2
  · by_cases hx : E q
    · simp [hx]
    · rw [(hp q hqp hx).1, (hp q hqp hx).2]
      simp [hx, hqp]

end Invariant

/-! ## The scan -/

section Scan

/-- One turn of the inner loop on a level with turns left: it pops the front `p`, queued
outside `E`, and either stops at it, which sets `p` aside, or pushes it back to the rear of
the same level, which keeps the invariant and the length of the level. -/
theorem scanLevel_succ {lev : Fin nmlfq} {k : Nat} {s : Sys n} {E : ProcId → Prop}
    (hq : QueuesOk s E) (hk : k + 1 ≤ queueSize (s.mlfq lev)) :
    ∃ p q1, Queued s p ∧ ¬ E p ∧
      ((((s.setQueue lev q1).procs p).state = .runnable ∧
          QueuesOk (s.setQueue lev q1) (fun x => E x ∨ x = p) ∧
          scanLevel s lev (k + 1) = some (s.setQueue lev q1, some p)) ∨
        ∃ q2, scanLevel s lev (k + 1) = scanLevel ((s.setQueue lev q1).setQueue lev q2) lev k ∧
          QueuesOk ((s.setQueue lev q1).setQueue lev q2) E ∧
          k ≤ queueSize (((s.setQueue lev q1).setQueue lev q2).mlfq lev)) := by
  obtain ⟨L, hh, hnd, hmem⟩ := hq lev
  -- the queue has a front, since the scan has turns left
  obtain ⟨p, L, rfl⟩ : ∃ p L', L = p :: L' := by
    cases L with
    | nil => rw [hh.size] at hk; simp at hk
    | cons p L' => exact ⟨p, L', rfl⟩
  obtain ⟨q1, hpop, hq1, hsz1, hQ, hE, hlev⟩ := hq.pop hh hnd hmem
  refine ⟨p, q1, hQ, hE, ?_⟩
  by_cases hrun : ((s.setQueue lev q1).procs p).state = .runnable
  · exact Or.inl ⟨hrun, hq1, by simp only [scanLevel, hpop, if_pos hrun]⟩
  · -- `p` goes back to the rear of its level, which is `lev`
    obtain ⟨lev', q2, hpush, hq2, hlev', hsz2⟩ := hq1.push (p := p) hQ hE
    obtain rfl : lev' = lev := Fin.ext (hlev'.symm.trans hlev)
    refine Or.inr ⟨q2, by simp only [scanLevel, hpop, if_neg hrun, hpush], hq2, ?_⟩
    simp only [Sys.setQueue_mlfq, Function.update_self] at hsz2 ⊢
    omega

/-- **The inner loop of the scan**, with at most as many turns as the queue is long:
either no `RUNNABLE` process was found and the invariant holds, or the one found, `p`,
is set aside. Only the queues change. -/
theorem scanLevel_spec (lev : Fin nmlfq) :
    ∀ (k : Nat) (s : Sys n) (E : ProcId → Prop), QueuesOk s E → k ≤ queueSize (s.mlfq lev) →
      ∀ s' r, scanLevel s lev k = some (s', r) →
        s' = { s with mlfq := s'.mlfq } ∧ (r = none → QueuesOk s' E) ∧
        ∀ p, r = some p → QueuesOk s' (fun x => E x ∨ x = p) ∧
          (s.procs p).state = .runnable ∧ Queued s p ∧ ¬ E p
  | 0, s, E, hq, _, s', r, h => by
    simp only [scanLevel, Option.some.injEq, Prod.mk.injEq] at h
    obtain ⟨rfl, rfl⟩ := h
    exact ⟨rfl, fun _ => hq, fun p hp => absurd hp (by simp)⟩
  | k + 1, s, E, hq, hk, s', r, h => by
    obtain ⟨p, q1, hQ, hE, ⟨hrun, hq1, heq⟩ | ⟨q2, heq, hq2, hsize⟩⟩ := scanLevel_succ hq hk
    · -- `p` is runnable: found
      rw [heq, Option.some.injEq, Prod.mk.injEq] at h
      obtain ⟨rfl, rfl⟩ := h
      exact ⟨rfl, fun h => absurd h (by simp), fun p' hp' => by
        obtain rfl := Option.some.inj hp'
        exact ⟨hq1, hrun, hQ, hE⟩⟩
    · -- `p` is back at the rear: the remaining turns
      rw [heq] at h
      obtain ⟨hframe, hnone, hsome⟩ := scanLevel_spec lev k _ E hq2 hsize s' r h
      exact ⟨by rw [hframe]; rfl, hnone, hsome⟩

/-- The inner loop never reads a null slot while the invariant holds. -/
theorem scanLevel_isSome (lev : Fin nmlfq) :
    ∀ (k : Nat) (s : Sys n) (E : ProcId → Prop), QueuesOk s E → k ≤ queueSize (s.mlfq lev) →
      (scanLevel s lev k).isSome
  | 0, _, _, _, _ => rfl
  | k + 1, s, E, hq, hk => by
    obtain ⟨p, q1, -, -, ⟨-, -, heq⟩ | ⟨q2, heq, hq2, hsize⟩⟩ := scanLevel_succ hq hk
    · rw [heq]; rfl
    · rw [heq]; exact scanLevel_isSome lev k _ E hq2 hsize

/-- The outer loop of the scan: the same, over the levels in order. -/
theorem scanLevels_spec :
    ∀ (levs : List (Fin nmlfq)) (s : Sys n) (E : ProcId → Prop), QueuesOk s E →
      ∀ s' r, scanLevels s levs = some (s', r) →
        s' = { s with mlfq := s'.mlfq } ∧ (r = none → QueuesOk s' E) ∧
        ∀ p, r = some p → QueuesOk s' (fun x => E x ∨ x = p) ∧
          (s.procs p).state = .runnable ∧ Queued s p ∧ ¬ E p
  | [], s, E, hq, s', r, h => by
    simp only [scanLevels, Option.some.injEq, Prod.mk.injEq] at h
    obtain ⟨rfl, rfl⟩ := h
    exact ⟨rfl, fun _ => hq, fun p hp => absurd hp (by simp)⟩
  | lev :: levs, s, E, hq, s', r, h => by
    simp only [scanLevels] at h
    split at h
    · exact absurd h (by simp)
    · -- found on this level
      rename_i s1 p h1
      simp only [Option.some.injEq, Prod.mk.injEq] at h
      obtain ⟨rfl, rfl⟩ := h
      exact scanLevel_spec lev _ s E hq le_rfl _ (some p) h1
    · -- nothing on this level: on to the next with the rotated queues
      rename_i s1 h1
      obtain ⟨hframe1, hnone1, -⟩ := scanLevel_spec lev _ s E hq le_rfl s1 none h1
      obtain ⟨hframe, hnone, hsome⟩ := scanLevels_spec levs s1 E (hnone1 rfl) s' r h
      have hprocs : s1.procs = s.procs := by rw [hframe1]
      have hQ : ∀ p, Queued s1 p ↔ Queued s p := by
        intro p; rw [hframe1]; rfl
      refine ⟨by rw [hframe, hframe1], hnone, fun p hp => ?_⟩
      obtain ⟨h1, h2, h3, h4⟩ := hsome p hp
      exact ⟨h1, hprocs ▸ h2, (hQ p).mp h3, h4⟩

theorem mlfqScan_spec {s : Sys n} {E : ProcId → Prop} (hq : QueuesOk s E) {s' : Sys n}
    {r : Option ProcId} (h : mlfqScan s = some (s', r)) :
    s' = { s with mlfq := s'.mlfq } ∧ (r = none → QueuesOk s' E) ∧
      ∀ p, r = some p → QueuesOk s' (fun x => E x ∨ x = p) ∧
        (s.procs p).state = .runnable ∧ Queued s p ∧ ¬ E p :=
  scanLevels_spec _ s E hq s' r h

theorem scanLevels_isSome :
    ∀ (levs : List (Fin nmlfq)) (s : Sys n) (E : ProcId → Prop), QueuesOk s E →
      (scanLevels s levs).isSome
  | [], _, _, _ => rfl
  | lev :: levs, s, E, hq => by
    obtain ⟨⟨s1, r⟩, h1⟩ := Option.isSome_iff_exists.mp (scanLevel_isSome lev _ s E hq le_rfl)
    simp only [scanLevels, h1]
    rcases r with _ | p
    · exact scanLevels_isSome levs s1 E ((scanLevel_spec lev _ s E hq le_rfl s1 none h1).2.1 rfl)
    · rfl

/-- **A scan that finds nobody**: while the invariant holds and no process is `RUNNABLE`,
the scan returns without a process, having only rotated the queues. -/
theorem mlfqScan_none {s : Sys n} {E : ProcId → Prop} (hq : QueuesOk s E)
    (hr : ∀ q, (s.procs q).state ≠ .runnable) :
    ∃ s1, mlfqScan s = some (s1, none) ∧ s1 = { s with mlfq := s1.mlfq } ∧ QueuesOk s1 E := by
  obtain ⟨⟨s1, r⟩, h1⟩ := Option.isSome_iff_exists.mp (scanLevels_isSome _ s E hq)
  obtain ⟨hframe, hnone, hsome⟩ := mlfqScan_spec hq h1
  rcases r with _ | p
  · exact ⟨s1, h1, hframe, hnone rfl⟩
  · exact absurd (hsome p rfl).2.1 (hr p)


end Scan

/-! ## The boost and the end of a dispatch -/

section Boost

/-- Resetting `cticks` touches nothing the invariants read. -/
theorem resetTicks_spec : ∀ (L : List (Option ProcId)) (s s' : Sys n), resetTicks s L = some s' →
    s' = { s with procs := s'.procs } ∧
      ∀ q, (s'.procs q).state = (s.procs q).state ∧ (s'.procs q).lev = (s.procs q).lev
  | [], s, s', h => by
    simp only [resetTicks, Option.some.injEq] at h
    subst h; exact ⟨rfl, fun _ => ⟨rfl, rfl⟩⟩
  | none :: _, s, s', h => by simp [resetTicks] at h
  | some p :: L, s, s', h => by
    simp only [resetTicks] at h
    obtain ⟨hframe, hq⟩ := resetTicks_spec L _ s' h
    refine ⟨by rw [hframe]; rfl, fun q => ?_⟩
    rw [(hq q).1, (hq q).2]
    by_cases hqp : q = p
    · subst hqp; simp
    · rw [Sys.modifyProc_procs_of_ne _ _ _ hqp]; exact ⟨rfl, rfl⟩

theorem QueuesOk.of_ticks {s s' : Sys n} {E : ProcId → Prop} (hq : QueuesOk s E)
    (hframe : s' = { s with procs := s'.procs })
    (hp : ∀ q, (s'.procs q).state = (s.procs q).state ∧ (s'.procs q).lev = (s.procs q).lev) :
    QueuesOk s' E := by
  refine hq.of_procs (by rw [hframe]) (fun _ => Iff.rfl) fun x _ => ⟨?_, (hp x).2⟩
  have hf : s'.forks = s.forks := by rw [hframe]
  simp only [Queued, (hp x).1, (hp x).2, hf]

/-- **Draining level `lev` into level 0** keeps the invariant; the drained processes go
to level 0, so levels below `NMLFQ` stay below it. -/
theorem drainLevel_spec (lev : Fin nmlfq) (h0 : lev ≠ 0) :
    ∀ (k : Nat) (s : Sys n) (E : ProcId → Prop), QueuesOk s E → ∀ s', drainLevel s lev k = some s' →
      s' = { s with procs := s'.procs, mlfq := s'.mlfq } ∧ LevFrame s s' ∧ QueuesOk s' E
  | 0, s, E, hq, s', h => by
    simp only [drainLevel, Option.some.injEq] at h
    subst h; exact ⟨rfl, LevFrame.refl _, hq⟩
  | k + 1, s, E, hq, s', h => by
    simp only [drainLevel] at h
    split at h
    · simp only [Option.some.injEq] at h
      subst h; exact ⟨rfl, LevFrame.refl _, hq⟩
    · rename_i hne
      obtain ⟨L, hh, hnd, hmem⟩ := hq lev
      obtain ⟨p, L, rfl⟩ : ∃ p L', L = p :: L' := by
        cases L with
        | nil => exact absurd hh.size hne
        | cons p L' => exact ⟨p, L', rfl⟩
      obtain ⟨q1, hpop, hq1, -, hQ, hE, hlev⟩ := hq.pop hh hnd hmem
      rw [hpop] at h
      simp only at h
      -- `p` at level 0 with no ticks, still set aside
      set s2 := (s.setQueue lev q1).modifyProc p fun pr => { pr with lev := 0, cticks := 0 }
      have hl2 : (s2.procs p).lev = (0 : Fin nmlfq).val := by simp [s2]
      have hq2 : QueuesOk s2 (fun x => E x ∨ x = p) := by
        refine hq1.of_procs rfl (fun _ => Iff.rfl) fun x hx => ?_
        have hxp : x ≠ p := fun h => hx (Or.inr h)
        simp only [s2, Queued, Sys.modifyProc_procs_of_ne _ _ _ hxp, Sys.modifyProc_forks]
        simp
      have hQ2 : Queued s2 p := by
        simp only [s2, Queued, Sys.modifyProc_procs_self, Sys.modifyProc_forks, Sys.setQueue_procs,
          Sys.setQueue_forks]
        exact ⟨by decide, hQ.2⟩
      obtain ⟨q3, hpush, hq3, -, -⟩ := hq2.pushAt hQ2 hE 0 hl2
      rw [hpush] at h
      obtain ⟨hframe, hlf, hq'⟩ := drainLevel_spec lev h0 k _ E hq3 s' h
      have hlf2 : LevFrame s s2 := by
        have := LevFrame.modifyProc (s := s.setQueue lev q1) (p := p)
          (f := fun pr => { pr with lev := 0, cticks := 0 }) rfl (hlev ▸ lev.isLt)
          (show 0 < nmlfq by decide)
        exact this
      refine ⟨by rw [hframe]; rfl, hlf2.trans hlf, hq'⟩

theorem mlfqBoostPriority_spec {s s' : Sys n} {E : ProcId → Prop} (hq : QueuesOk s E)
    (h : mlfqBoostPriority s = some s') :
    s' = { s with procs := s'.procs, mlfq := s'.mlfq } ∧ LevFrame s s' ∧ QueuesOk s' E := by
  obtain ⟨s1, h1, h⟩ := Option.bind_eq_some_iff.mp h
  obtain ⟨s2, h2, h3⟩ := Option.bind_eq_some_iff.mp h
  obtain ⟨hf1, hp1⟩ := resetTicks_spec _ s s1 h1
  obtain ⟨hf2, hl2, hq2⟩ :=
    drainLevel_spec 2 (by decide) _ s1 E (hq.of_ticks hf1 hp1) s2 h2
  obtain ⟨hf3, hl3, hq3⟩ := drainLevel_spec 1 (by decide) _ s2 E hq2 s' h3
  refine ⟨?_, (LevFrame.of_eq hp1).trans (hl2.trans hl3), hq3⟩
  rw [hf3, hf2, hf1]

/-- **What `mlfq_scheduler` does once `p` is back**: `p`, set aside since its dispatch, is
pushed back unless it exited or left the MLFQ, and the boost keeps the invariant. Only the
queues, the levels and ticks of MLFQ processes and `mlfq_ticks` change. -/
theorem mlfqAfterRun_spec {s s' : Sys n} {E : ProcId → Prop} {p : ProcId}
    (hq : QueuesOk s (fun x => E x ∨ x = p)) (hE : ¬ E p)
    (hst : (s.procs p).state = .runnable ∨ (s.procs p).state = .sleeping ∨
      (s.procs p).state = .zombie)
    (h : mlfqAfterRun s p = some s') :
    s' = { s with procs := s'.procs, mlfq := s'.mlfq, mlfqTicks := s'.mlfqTicks } ∧
      LevFrame s s' ∧ QueuesOk s' E := by
  unfold mlfqAfterRun at h
  by_cases hm : isMlfq (s.procs p) = true
  · rw [if_pos hm] at h
    have hlt : (s.procs p).lev < nmlfq := by simpa [isMlfq] using hm
    -- demotion: `p` stays below `NMLFQ`, and is still set aside
    set s1 := if mlfqTimeAllots (s.procs p).lev ≤ (s.procs p).cticks then
        s.modifyProc p fun pr => { pr with cticks := 0, lev := min (pr.lev + 1) (nmlfq - 1) }
      else s with hs1
    have hf1 : s1 = { s with procs := s1.procs } := by rw [hs1]; split <;> rfl
    have hl1 : LevFrame s s1 := by
      rw [hs1]; split
      · exact LevFrame.modifyProc rfl hlt (by simp only [nmlfq]; omega)
      · exact LevFrame.refl s
    have hq1 : QueuesOk s1 (fun x => E x ∨ x = p) := by
      refine hq.of_procs (by rw [hf1]) (fun _ => Iff.rfl) fun x hx => ?_
      have hxp : x ≠ p := fun h => hx (Or.inr h)
      have hx1 : s1.procs x = s.procs x := by
        rw [hs1]; split
        · exact Sys.modifyProc_procs_of_ne _ _ _ hxp
        · rfl
      have hfk : s1.forks = s.forks := by rw [hf1]
      exact ⟨by simp only [Queued, hx1, hfk], by rw [hx1]⟩
    have hst1 : (s1.procs p).state = (s.procs p).state := (hl1 p).1
    have hlt1 : (s1.procs p).lev < nmlfq := (hl1 p).2.1 hlt
    -- the push back, or nothing for a zombie
    obtain ⟨s2, hs2, hf2, hq2⟩ : ∃ s2, (if (s1.procs p).state ≠ .zombie then mlfqPush s1 p else s1) = s2 ∧
        s2 = { s1 with mlfq := s2.mlfq } ∧ QueuesOk s2 E := by
      by_cases hz : (s1.procs p).state = .zombie
      · refine ⟨s1, by simp [hz], rfl, hq1.release fun hQ => ?_⟩
        rcases hQ.2 with h | h | ⟨h, -⟩ <;> rw [hz] at h <;> cases h
      · have hQ : Queued s1 p := ⟨hlt1, by
          rw [hst1] at hz ⊢; rcases hst with h | h | h
          · exact Or.inl h
          · exact Or.inr (Or.inl h)
          · exact absurd h hz⟩
        obtain ⟨lev, q', hpush, hq', -, -⟩ := hq1.push hQ hE
        exact ⟨_, by rw [if_pos hz, hpush], rfl, hq'⟩
    simp only at h
    rw [hs2] at h
    simp only [mlfqNeedBoosting] at h
    set s3 : Sys n := { s2 with mlfqTicks := s2.mlfqTicks % mlfqBoostingTicks }
    have hq3 : QueuesOk s3 E := hq2.of_procs rfl (fun _ => Iff.rfl) fun _ _ => ⟨Iff.rfl, rfl⟩
    have hl23 : LevFrame s s3 := by
      have : s3.procs = s1.procs := by simp only [s3]; rw [hf2]
      exact hl1.trans (LevFrame.of_eq fun q => by rw [this]; exact ⟨rfl, rfl⟩)
    cases hb : decide (mlfqBoostingTicks ≤ s2.mlfqTicks)
    · simp only [hb, Bool.false_eq_true, if_false, Option.some.injEq] at h
      subst h
      refine ⟨?_, hl23, hq3⟩
      simp only [s3]; rw [hf2, hf1]
    · simp only [hb, if_true] at h
      obtain ⟨hf4, hl4, hq4⟩ := mlfqBoostPriority_spec hq3 h
      refine ⟨?_, hl23.trans hl4, hq4⟩
      rw [hf4]; simp only [s3]; rw [hf2, hf1]
  · -- a process that left the MLFQ is not pushed back
    rw [if_neg hm] at h
    simp only [Option.some.injEq] at h
    subst h
    refine ⟨rfl, LevFrame.refl s, hq.release fun hQ => hm ?_⟩
    simpa [isMlfq] using hQ.1

end Boost

end Xv6
