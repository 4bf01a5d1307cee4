import Xv6.Pipe.Pipe

/-!
# The pipe refines a bounded queue

While its counters are `uint`s at most `PIPESIZE` apart (`Pipe.Inv`), the buffer holds the
bytes `Pipe.bytes`, and the two loops are the queue's operations: `copyIn` appends as many
bytes as there is room for (`copyIn_spec`) and `copyOut` takes up to `n` from the front
(`copyOut_spec`); `p->nread == p->nwrite` is the empty queue and
`p->nwrite == p->nread + PIPESIZE` the full one. So each event of the pipe does to the queue
it holds what the event does to the queue system (`step_abs`), and every run of the pipe,
under every interleaving of its threads, is a run of the queue system (`pipeRun_refines`):
no byte is lost, duplicated or reordered, and none is overwritten before it is read.

Over the queue system, a writer sleeps only at a full queue with the read end open
(`QueueSys.Inv`): every step that makes room or closes the read end wakes the writers. So in
every state a pipe reaches from `pipealloc`, a sleeping writer has
`p->nwrite == p->nread + PIPESIZE` and `p->readopen` (`pipe_reachable_inv`). Readers have no
such guarantee: at a full buffer a killed writer returns `-1` without `wakeup(&p->nread)`.
-/

set_option autoImplicit false

namespace Xv6.Pipes

/-! ## 1. The buffer -/

/-- The pipe's counters are `uint`s at most `PIPESIZE` apart. -/
structure Pipe.Inv (p : Pipe) : Prop where
  nread_lt : p.nread < 2 ^ 32
  nwrite_lt : p.nwrite < 2 ^ 32
  count_le : CountRing.count (2 ^ 32) p.nread p.nwrite ≤ pipesize

theorem pipesize_dvd : pipesize ∣ 2 ^ 32 := ⟨2 ^ 23, rfl⟩

theorem pipesize_lt : pipesize < 2 ^ 32 := by decide

section Buffer

variable {p : Pipe}

theorem Pipe.length_bytes (p : Pipe) :
    p.bytes.length = CountRing.count (2 ^ 32) p.nread p.nwrite :=
  CountRing.length_elems _

theorem Pipe.Inv.length_le (h : p.Inv) : p.bytes.length ≤ pipesize :=
  p.length_bytes ▸ h.count_le

/-- `p->nwrite == p->nread + PIPESIZE` is a full buffer. -/
theorem Pipe.Inv.full_iff (h : p.Inv) :
    p.nwrite = (p.nread + pipesize) % 2 ^ 32 ↔ p.bytes.length = pipesize := by
  rw [Pipe.length_bytes, CountRing.count_eq_iff h.nread_lt h.nwrite_lt pipesize_lt]

/-- `p->nread == p->nwrite` is an empty buffer. -/
theorem Pipe.Inv.empty_iff (h : p.Inv) : p.nread = p.nwrite ↔ p.bytes = [] := by
  rw [← List.length_eq_zero_iff, Pipe.length_bytes, CountRing.count_eq_zero h.nread_lt h.nwrite_lt]

/-- One byte copied in at a buffer with room goes in at the back. -/
theorem Pipe.Inv.push (h : p.Inv) (hroom : p.bytes.length < pipesize) (b : UInt8) :
    Pipe.Inv
        { p with
          data := Function.update p.data (p.nwrite % pipesize) b
          nwrite := (p.nwrite + 1) % 2 ^ 32 } ∧
      Pipe.bytes
          { p with
            data := Function.update p.data (p.nwrite % pipesize) b
            nwrite := (p.nwrite + 1) % 2 ^ 32 } = p.bytes ++ [b] := by
  rw [Pipe.length_bytes] at hroom
  have hc := CountRing.count_push h.nread_lt h.nwrite_lt
    (lt_of_lt_of_le (Nat.add_lt_add_right hroom 1) (by decide))
  refine ⟨⟨h.nread_lt, Nat.mod_lt _ (by decide), ?_⟩, ?_⟩
  · simp only
    omega
  · exact CountRing.elems_push pipesize_dvd pipesize_lt h.nread_lt h.nwrite_lt hroom _ _

/-- One byte copied out of a nonempty buffer is its front. -/
theorem Pipe.Inv.pop (h : p.Inv) (hne : p.bytes ≠ []) :
    Pipe.Inv { p with nread := (p.nread + 1) % 2 ^ 32 } ∧
      p.bytes = p.data (p.nread % pipesize) :: Pipe.bytes { p with nread := (p.nread + 1) % 2 ^ 32 } := by
  have hpos : 0 < CountRing.count (2 ^ 32) p.nread p.nwrite := by
    rw [← Pipe.length_bytes]
    exact List.length_pos_iff.mpr hne
  have hc := CountRing.count_pop h.nread_lt h.nwrite_lt hpos
  refine ⟨⟨Nat.mod_lt _ (by decide), h.nwrite_lt, ?_⟩, ?_⟩
  · simp only
    have := h.count_le
    omega
  · exact CountRing.elems_pop pipesize_dvd h.nread_lt h.nwrite_lt hpos _

/-- **`copyIn` appends what fits.** From a pipe with the invariant, the loop of `pipewrite`
puts the first `PIPESIZE - len` bytes of `rest` at the back, leaves the rest to copy, and
keeps the invariant and the ends. -/
theorem copyIn_spec : ∀ (rest : List UInt8) {p : Pipe}, p.Inv →
    (copyIn p rest).1.Inv ∧
      (copyIn p rest).1.bytes = p.bytes ++ rest.take (pipesize - p.bytes.length) ∧
      (copyIn p rest).2 = rest.drop (pipesize - p.bytes.length) ∧
      (copyIn p rest).1.readopen = p.readopen ∧ (copyIn p rest).1.writeopen = p.writeopen
  | [], p, h => by simp [copyIn, h]
  | b :: bs, p, h => by
    by_cases hfull : p.nwrite = (p.nread + pipesize) % 2 ^ 32
    · -- a full buffer takes nothing
      rw [copyIn, if_pos hfull, h.full_iff.mp hfull, Nat.sub_self]
      simp [h]
    · have hroom : p.bytes.length < pipesize := lt_of_le_of_ne h.length_le (mt h.full_iff.mpr hfull)
      obtain ⟨h₁, hb₁⟩ := h.push hroom b
      obtain ⟨h₂, hb₂, hr₂, hro, hwo⟩ := copyIn_spec bs h₁
      rw [copyIn, if_neg hfull]
      refine ⟨h₂, ?_, ?_, hro, hwo⟩
      · -- the byte `b`, then what fits of the rest
        rw [hb₂, hb₁, List.length_append, List.length_singleton,
          show pipesize - p.bytes.length = (pipesize - (p.bytes.length + 1)) + 1 by omega,
          List.take_succ_cons, List.append_assoc, List.singleton_append]
      · rw [hr₂, hb₁, List.length_append, List.length_singleton,
          show pipesize - p.bytes.length = (pipesize - (p.bytes.length + 1)) + 1 by omega,
          List.drop_succ_cons]

/-- **`copyOut` takes from the front.** From a pipe with the invariant, the loop of
`piperead` copies the first `n` bytes, or all of them, and leaves the rest, keeping the
invariant and the ends. -/
theorem copyOut_spec : ∀ (n : Nat) {p : Pipe}, p.Inv →
    (copyOut p n).1.Inv ∧ (copyOut p n).1.bytes = p.bytes.drop n ∧
      (copyOut p n).2 = p.bytes.take n ∧
      (copyOut p n).1.readopen = p.readopen ∧ (copyOut p n).1.writeopen = p.writeopen
  | 0, p, h => by simp [copyOut, h]
  | n + 1, p, h => by
    by_cases he : p.nread = p.nwrite
    · -- an empty buffer gives nothing
      rw [copyOut, if_pos he, h.empty_iff.mp he]
      simp [h]
    · obtain ⟨h₁, hb⟩ := h.pop (mt h.empty_iff.mpr he)
      obtain ⟨h₂, hb₂, hr₂, hro, hwo⟩ := copyOut_spec n h₁
      rw [copyOut, if_neg he]
      refine ⟨h₂, ?_, ?_, hro, hwo⟩
      · rw [Prod.map_fst, id_eq, hb₂, hb, List.drop_succ_cons]
      · rw [Prod.map_snd, hr₂, hb, List.take_succ_cons]

end Buffer

/-! ## 2. Each event, and every run -/

namespace PipeSys

variable {T : Type} [DecidableEq T] {s : PipeSys T}

theorem pipewrite_abs (h : s.pipe.Inv) (t : T) (rest : List UInt8) (n : Nat) :
    (s.pipewrite t rest n).abs = s.abs.write t rest n := by
  obtain ⟨-, hb, hr, hro, hwo⟩ := copyIn_spec rest h
  simp only [pipewrite, abs, QueueSys.write, hb, hr, hro, hwo]

theorem piperead_abs (h : s.pipe.Inv) (t : T) (n : Nat) :
    (s.piperead t n).abs = s.abs.read t n := by
  unfold piperead QueueSys.read
  by_cases hw : s.pipe.nread = s.pipe.nwrite ∧ s.pipe.writeopen = true
  · rw [if_pos hw, if_pos ⟨h.empty_iff.mp hw.1, hw.2⟩]
    rfl
  · rw [if_neg hw, if_neg (fun hq => hw ⟨h.empty_iff.mpr hq.1, hq.2⟩)]
    obtain ⟨-, hb, hr, hro, hwo⟩ := copyOut_spec n h
    simp only [abs, hb, hr, hro, hwo]

omit [DecidableEq T] in
theorem pipeclose_abs (w : Bool) : (s.pipeclose w).abs = s.abs.close w := by
  cases w <;> rfl

/-- **Each event of the pipe is the event on the queue it holds.** -/
theorem step_abs (h : s.pipe.Inv) (e : PipeEv T) : (s.step e).map abs = s.abs.step e := by
  cases e with
  | write t src =>
    simp only [step, QueueSys.step, abs]
    cases enter s.th t (.write src src.length) <;> rfl
  | read t n =>
    simp only [step, QueueSys.step, abs]
    cases enter s.th t (.read n) <;> rfl
  | run t =>
    by_cases ha : (s.th t).asleep = true
    · simp only [step, QueueSys.step, abs, ha, if_true, Option.map_none]
    · simp only [step, QueueSys.step, abs, ha, Bool.false_eq_true, if_false]
      cases (s.th t).phase with
      | done r bytes => rfl
      | write rest n => exact congrArg some (pipewrite_abs h t rest n)
      | read n => exact congrArg some (piperead_abs h t n)
  | close w => exact congrArg some (pipeclose_abs w)
  | kill t => rfl

/-- Every event keeps the invariant of the buffer. -/
theorem step_inv (h : s.pipe.Inv) {e : PipeEv T} {s' : PipeSys T} (he : s.step e = some s') :
    s'.pipe.Inv := by
  cases e with
  | write t src =>
    obtain ⟨th, -, rfl⟩ := Option.map_eq_some_iff.mp he
    exact h
  | read t n =>
    obtain ⟨th, -, rfl⟩ := Option.map_eq_some_iff.mp he
    exact h
  | run t =>
    simp only [step] at he
    split_ifs at he
    cases hph : (s.th t).phase with
    | done r bytes => simp [hph, Phase.resume] at he
    | write rest n =>
      simp only [hph, Phase.resume, Option.some.injEq] at he
      subst he
      exact (copyIn_spec rest h).1
    | read n =>
      simp only [hph, Phase.resume, Option.some.injEq] at he
      subst he
      unfold piperead
      split_ifs
      · exact h
      · exact (copyOut_spec n h).1
  | close w =>
    cases w <;> (simp only [step, pipeclose, Option.some.injEq] at he; subst he; exact ⟨h.1, h.2, h.3⟩)
  | kill t =>
    simp only [step, Option.some.injEq] at he
    subst he
    exact h

end PipeSys

/-- **Every run of the pipe is a run of the queue.** From a pipe whose counters are `uint`s at
most `PIPESIZE` apart, every sequence of calls, sections, closes and kills, in any
interleaving of the threads, happens exactly when it happens on the queue the pipe holds,
and leaves the pipe holding the queue it leaves. -/
theorem pipeRun_refines {T : Type} [DecidableEq T] {s : PipeSys T} (h : s.pipe.Inv)
    (es : List (PipeEv T)) :
    (Reach.run PipeSys.step s es).map PipeSys.abs = Reach.run QueueSys.step s.abs es :=
  Reach.run_map (I := fun s : PipeSys T => s.pipe.Inv) (fun _ _ _ hs he => PipeSys.step_inv hs he)
    (fun _ e hs => PipeSys.step_abs hs e) es h

/-- `pipealloc`'s pipe is empty. -/
theorem init_inv {T : Type} (data : Nat → UInt8) : (PipeSys.init data : PipeSys T).pipe.Inv :=
  ⟨by simp [PipeSys.init], by simp [PipeSys.init], by simp [PipeSys.init, CountRing.count, pipesize]⟩

/-- Two threads on a fresh pipe: thread 0 writes three bytes while thread 1 reads two. -/
theorem pipeRun_refines_write_read :
    (PipeSys.init (fun _ => 0) : PipeSys (Fin 2)).pipe.Inv ∧
      (Reach.run PipeSys.step (PipeSys.init (fun _ => 0) : PipeSys (Fin 2))
          [.read 1 2, .run 1, .write 0 [7, 8, 9], .run 0, .run 1]).map PipeSys.abs =
        Reach.run QueueSys.step (PipeSys.init (fun _ => 0) : PipeSys (Fin 2)).abs
          [.read 1 2, .run 1, .write 0 [7, 8, 9], .run 0, .run 1] :=
  ⟨init_inv _, pipeRun_refines (init_inv _) _⟩

/-- The reader sleeps at the empty pipe, the writer's three bytes wake it, and it gets the
first two. -/
example : (Reach.run PipeSys.step (PipeSys.init (fun _ => 0) : PipeSys (Fin 2))
    [.read 1 2, .run 1, .write 0 [7, 8, 9], .run 0, .run 1]).map (fun s => (s.th 1).phase) =
      some (.done 2 [7, 8]) := by decide

/-! ## 3. Sleeping writers -/

section Sleep

variable {T : Type} [DecidableEq T]

/-- Every sleeping thread is inside a call, and every sleeping writer sleeps at a full queue
`q` with the read end open. -/
def SleepOk (q : List UInt8) (readopen : Bool) (th : T → Thread) : Prop :=
  ∀ u, (th u).asleep = true →
    (th u).phase.chan ≠ none ∧ ((th u).phase.chan = some .nwrite → q.length = pipesize ∧ readopen = true)

omit [DecidableEq T] in
@[simp] theorem wakeup_phase (c : Chan) (th : T → Thread) (u : T) :
    (wakeup c th u).phase = (th u).phase := by
  unfold wakeup
  split_ifs <;> rfl

omit [DecidableEq T] in
theorem wakeup_asleep {c : Chan} {th : T → Thread} {u : T} (h : (wakeup c th u).asleep = true) :
    (th u).asleep = true ∧ (th u).phase.chan ≠ some c := by
  unfold wakeup at h
  -- a woken thread is not asleep, so only the other branch is left
  split_ifs at h with hc
  exact ⟨h, hc⟩

section

variable {q q' : List UInt8} {ro ro' : Bool} {th : T → Thread}

omit [DecidableEq T] in
/-- After `wakeup(&p->nwrite)` no writer sleeps, whatever the queue. -/
theorem SleepOk.wakeup_nwrite (h : SleepOk q ro th) : SleepOk q' ro' (wakeup .nwrite th) := by
  intro u hu
  obtain ⟨ha, hc⟩ := wakeup_asleep hu
  rw [wakeup_phase]
  exact ⟨(h u ha).1, fun hw => absurd hw hc⟩

omit [DecidableEq T] in
theorem SleepOk.wakeup_nread (h : SleepOk q ro th) : SleepOk q ro (wakeup .nread th) := by
  intro u hu
  rw [wakeup_phase]
  exact h u (wakeup_asleep hu).1

omit [DecidableEq T] in
/-- A queue that stays full while it was full keeps the sleeping writers' condition. -/
theorem SleepOk.full_mono (h : SleepOk q ro th) (hq : q.length = pipesize → q'.length = pipesize) :
    SleepOk q' ro th := fun u hu =>
  ⟨(h u hu).1, fun hw => ⟨hq ((h u hu).2 hw).1, ((h u hu).2 hw).2⟩⟩

/-- A thread set to a state that is itself fine. -/
theorem SleepOk.update (h : SleepOk q ro th) (t : T) {x : Thread}
    (hx : x.asleep = true → x.phase.chan ≠ none ∧ (x.phase.chan = some .nwrite → q.length = pipesize ∧ ro = true)) :
    SleepOk q ro (Function.update th t x) := by
  intro u hu
  by_cases hut : u = t
  · subst hut
    rw [Function.update_self] at hu ⊢
    exact hx hu
  · rw [Function.update_of_ne hut] at hu ⊢
    exact h u hu

/-- A runnable thread set to a state that is not asleep. -/
theorem SleepOk.update_awake (h : SleepOk q ro th) (t : T) {x : Thread} (hx : x.asleep = false) :
    SleepOk q ro (Function.update th t x) :=
  h.update t fun ha => absurd ha (by simp [hx])

end

namespace QueueSys

/-- The invariant of the queue system: the queue fits in the buffer, and `SleepOk`. -/
structure Inv (a : QueueSys T) : Prop where
  le : a.q.length ≤ pipesize
  sleep : SleepOk a.q a.readopen a.th

variable {a : QueueSys T} {t : T}

/-- A writer's section keeps the invariant: it fills the queue before it sleeps. -/
theorem Inv.write (h : a.Inv) (ht : (a.th t).asleep = false) (rest : List UInt8) (n : Nat) :
    (a.write t rest n).Inv := by
  have hlen : (a.q ++ rest.take (pipesize - a.q.length)).length ≤ pipesize := by
    have := h.le
    simp only [List.length_append, List.length_take]
    omega
  -- a queue that was full takes nothing
  have hfull : SleepOk (a.q ++ rest.take (pipesize - a.q.length)) a.readopen a.th :=
    h.sleep.full_mono fun hq => by rw [List.length_append, hq, Nat.sub_self, List.take_zero, List.length_nil, Nat.add_zero]
  refine ⟨hlen, ?_⟩
  unfold QueueSys.write writeEnd
  split_ifs with hr hk
  · exact hfull.wakeup_nread.update_awake t (by simp [ht])
  · exact hfull.update_awake t (by simp [ht])
  · -- the writer sleeps with the queue full and the read end open
    refine hfull.wakeup_nread.update t fun _ => ⟨by simp [Phase.chan], fun _ => ⟨?_, ?_⟩⟩
    · have : pipesize - a.q.length < rest.length := by
        by_contra hle
        exact hr (List.drop_eq_nil_of_le (by omega))
      simp only [List.length_append, List.length_take]
      have := h.le
      omega
    · simpa using (not_or.mp hk).1

/-- A reader's section keeps the invariant: it sleeps as a reader, or wakes the writers. -/
theorem Inv.read (h : a.Inv) (ht : (a.th t).asleep = false) {n : Nat} (hph : (a.th t).phase = .read n) :
    (a.read t n).Inv := by
  unfold QueueSys.read
  split_ifs
  · refine ⟨h.le, ?_⟩
    unfold readWait
    split_ifs
    · exact h.sleep.update_awake t (by simp [ht])
    · exact h.sleep.update t fun _ => by simp [hph, Phase.chan]
  · refine ⟨by simpa using le_trans (Nat.sub_le _ _) h.le, ?_⟩
    exact h.sleep.wakeup_nwrite.update_awake t (by simp [ht])

/-- Every event keeps the invariant. -/
theorem Inv.step (h : a.Inv) {e : PipeEv T} {a' : QueueSys T} (he : a.step e = some a') : a'.Inv := by
  -- a thread outside a call does not sleep
  have hidle : ∀ u, (a.th u).phase.chan = none → (a.th u).asleep = false := fun u hu => by
    by_contra ha
    exact (h.sleep u (by simpa using ha)).1 hu
  cases e with
  | write t src =>
    obtain ⟨th, hth, rfl⟩ := Option.map_eq_some_iff.mp he
    unfold enter at hth
    split_ifs at hth with hc
    cases hth
    exact ⟨h.le, h.sleep.update_awake t (hidle t hc)⟩
  | read t n =>
    obtain ⟨th, hth, rfl⟩ := Option.map_eq_some_iff.mp he
    unfold enter at hth
    split_ifs at hth with hc
    cases hth
    exact ⟨h.le, h.sleep.update_awake t (hidle t hc)⟩
  | run t =>
    simp only [QueueSys.step] at he
    split_ifs at he with ha
    have ht : (a.th t).asleep = false := by simpa using ha
    cases hph : (a.th t).phase with
    | done r bytes => simp [hph, Phase.resume] at he
    | write rest n =>
      simp only [hph, Phase.resume, Option.some.injEq] at he
      subst he
      exact h.write ht rest n
    | read n =>
      simp only [hph, Phase.resume, Option.some.injEq] at he
      subst he
      exact h.read ht hph
  | close w =>
    simp only [QueueSys.step, Option.some.injEq] at he
    subst he
    cases w
    · exact ⟨h.le, h.sleep.wakeup_nwrite⟩
    · exact ⟨h.le, h.sleep.wakeup_nread⟩
  | kill t =>
    simp only [QueueSys.step, Option.some.injEq] at he
    subst he
    -- the killed thread's sleep ends
    exact ⟨h.le, h.sleep.update_awake t rfl⟩

end QueueSys

end Sleep

/-- **The pipe never overflows, and a writer sleeps only at a full buffer.** In every state
that a pipe reaches from `pipealloc`, under any interleaving of its threads, the counters are
`uint`s at most `PIPESIZE` apart, and a thread sleeping on `&p->nwrite` sleeps with
`p->nwrite == p->nread + PIPESIZE` and the read end open: a writer never misses the wakeup
of a read or a close. -/
theorem pipe_reachable_inv {T : Type} [DecidableEq T] {data : Nat → UInt8} {s : PipeSys T}
    (hs : Reach.Reachable PipeSys.step (fun _ _ => True) (PipeSys.init data) s) :
    s.pipe.Inv ∧ ∀ u, (s.th u).asleep = true → (s.th u).phase.chan = some .nwrite →
      s.pipe.nwrite = (s.pipe.nread + pipesize) % 2 ^ 32 ∧ s.pipe.readopen = true := by
  obtain ⟨hinv, hr⟩ : s.pipe.Inv ∧
      Reach.Reachable QueueSys.step (fun _ _ => True) (PipeSys.init data).abs s.abs :=
    Reach.Reachable.map (I := fun s : PipeSys T => s.pipe.Inv) (fun _ _ _ => trivial) (init_inv data)
      (fun _ _ _ hs he => PipeSys.step_inv hs he) (fun _ e hs => PipeSys.step_abs hs e) hs
  -- the queue system's invariant holds at the queue the pipe holds
  have hq : (PipeSys.abs s).Inv := Reach.Reachable.rec_inv
    ⟨by simp [PipeSys.abs, PipeSys.init, Pipe.bytes, CountRing.elems, CountRing.count, pipesize],
      fun u hu => by simp [PipeSys.abs, PipeSys.init] at hu⟩
    (fun _ _ _ ha he _ => ha.step he) hr
  refine ⟨hinv, fun u hu hw => ?_⟩
  obtain ⟨hfull, hro⟩ := (hq.sleep u hu).2 hw
  exact ⟨hinv.full_iff.mpr hfull, hro⟩

/-- A writer of 513 bytes on a fresh pipe fills it and sleeps. -/
theorem pipe_reachable_inv_sleeping_writer :
    ∃ s, Reach.run PipeSys.step (PipeSys.init (fun _ => 0) : PipeSys (Fin 1))
        [.write 0 (List.replicate 513 1), .run 0] = some s ∧ (s.th 0).asleep = true ∧
      s.pipe.Inv ∧ ∀ u, (s.th u).asleep = true → (s.th u).phase.chan = some .nwrite →
        s.pipe.nwrite = (s.pipe.nread + pipesize) % 2 ^ 32 ∧ s.pipe.readopen = true := by
  have hrun : (Reach.run PipeSys.step (PipeSys.init (fun _ => 0) : PipeSys (Fin 1))
      [.write 0 (List.replicate 513 1), .run 0]).map (fun s => (s.th 0).asleep) = some true := by
    set_option maxRecDepth 20000 in decide
  obtain ⟨s, hs, hasleep⟩ := Option.map_eq_some_iff.mp hrun
  exact ⟨s, hs, hasleep, pipe_reachable_inv (Reach.Reachable.run (fun _ _ => trivial) .init hs)⟩

end Xv6.Pipes
