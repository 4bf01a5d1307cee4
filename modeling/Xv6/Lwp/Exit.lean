import Xv6.Lwp.Wake

/-!
# `thread_exit`: the last LWP, and the wakeups it sends

A round of `thread_exit`'s loop first wakes the channels `ptid` and 0 and changes `ptid`s
(`threadExit_wakes`); only then does it test `all_lwp(..., LWP_ZOMBIE)`, while the caller is
not yet a zombie. So the last live LWP of a process never reaches `exit()` in that round: it
becomes a zombie and, with no runnable LWP left, parks the whole process as `SLEEPING`
(`threadExit_strands`). And the only sleepers a round wakes are those on the channels of
`ptid` and of 0 (`threadExit_keeps_sleeper`), while a joiner sleeps on the channel of its own
tid.
-/

set_option autoImplicit false

namespace Xv6.Lwps

/-- The wakeups of a round of `thread_exit`, before its test. -/
theorem threadExit_wakes (s : LSys) (p : ProcId) (cur : LwpRef) :
    Wakes (fun c => c = .tid (s.pool cur).ptid ∨ c = .tid 0) s
      (reparentLwps (wakeupLwps s p (.tid (s.pool cur).ptid)) p (s.pool cur).tid) :=
  ((wakeupLwps_wakes s p _).mono fun _ h => .inl h).trans
    ((reparentLwps_wakes _ p _).mono fun _ h => .inr h)

/-- A round of `thread_exit` is its wakeups, giving `t`, then the test. -/
theorem threadExit_eq (s : LSys) (p : ProcId) (cur : LwpRef) {t : LSys}
    (ht : t = reparentLwps (wakeupLwps s p (.tid (s.pool cur).ptid)) p (s.pool cur).tid) :
    threadExit s p cur =
      if allLwp t (t.procs p) .zombie then exitProc t p
      else switchAway (t.modifyLwp cur fun w => { w with state := .zombie, cont := .exit }) p := by
  rw [ht, threadExit]

/-- **The last live LWP strands its process.** When the running LWP of `p` is not a zombie
and every other LWP of `p` is, `thread_exit` does not call `exit()`: `p` is left `SLEEPING`,
off the CPU, with every LWP a zombie. -/
theorem threadExit_strands {s : LSys} {p : ProcId} {cur : LwpRef} (hm : s.mylwp p = some cur)
    (hk : (s.pool cur).kstack = true) (hlive : (s.pool cur).state ≠ .zombie)
    (hrest : ∀ i l, (s.procs p).lwps i = some l → l ≠ cur → (s.pool l).state = .zombie) :
    ∃ t, threadExit s p cur = some t ∧ (t.procs p).state = .sleeping ∧ t.cur = none ∧
      ∀ i l, (t.procs p).lwps i = some l → (t.pool l).state = .zombie := by
  obtain ⟨t1, ht1⟩ : ∃ t1, t1 = reparentLwps (wakeupLwps s p (.tid (s.pool cur).ptid)) p
      (s.pool cur).tid := ⟨_, rfl⟩
  have hw : Wakes _ s t1 := ht1 ▸ threadExit_wakes s p cur
  rw [threadExit_eq s p cur ht1]
  -- the caller is not a zombie yet, so `all_lwp` fails
  have hcur : (t1.pool cur).state ≠ .zombie := by
    rcases hw.state cur with h | ⟨-, -, h⟩
    · rw [h]; exact hlive
    · rw [h]; decide
  have hm1 : t1.mylwp p = some cur := (hw.mylwp p).trans hm
  rw [if_neg (by rw [allLwp_eq_false hm1 hcur]; decide)]
  -- now no LWP of `p` is runnable: the caller is a zombie, and so is every other
  have hz : ∀ i l, (t1.procs p).lwps i = some l →
      ((t1.modifyLwp cur fun w => { w with state := .zombie, cont := .exit }).pool l).state =
        .zombie := by
    intro i l hl
    by_cases hlc : l = cur
    · subst hlc; simp
    · rw [LSys.modifyLwp_pool_of_ne _ _ _ hlc]
      exact hw.zombie (hrest i l (by rw [← hw.lwps]; exact hl) hlc)
  have hg : getRunnableLwp (t1.modifyLwp cur fun w => { w with state := .zombie, cont := .exit })
      p = some none := by
    refine getRunnableLwp_none hm1 ?_ fun i l hl => ?_
    · simp only [LSys.modifyLwp_pool_self]
      rw [hw.kstack]; exact hk
    · rw [hz i l hl]; decide
  refine ⟨parkProc (t1.modifyLwp cur fun w => { w with state := .zombie, cont := .exit }) p,
    by simp only [switchAway, hg], by simp [parkProc], rfl, ?_⟩
  intro i l hl
  exact hz i l (by simpa [parkProc] using hl)

/-- **A round of `thread_exit` wakes no other sleeper.** An LWP of `p` other than the caller
that sleeps on a channel other than the caller's `ptid` and 0 still sleeps after it, with the
same continuation. -/
theorem threadExit_keeps_sleeper {s t : LSys} {p : ProcId} {cur l : LwpRef} {i : Slot}
    (h : threadExit s p cur = some t) (hi : (s.procs p).lwps i = some l) (hl : l ≠ cur)
    (hs : (s.pool l).state = .sleeping) (hc : (s.pool l).chan ≠ .tid (s.pool cur).ptid)
    (hc0 : (s.pool l).chan ≠ .tid 0) :
    (t.pool l).state = .sleeping ∧ (t.pool l).cont = (s.pool l).cont := by
  obtain ⟨t1, ht1⟩ : ∃ t1, t1 = reparentLwps (wakeupLwps s p (.tid (s.pool cur).ptid)) p
      (s.pool cur).tid := ⟨_, rfl⟩
  have hw : Wakes _ s t1 := ht1 ▸ threadExit_wakes s p cur
  rw [threadExit_eq s p cur ht1] at h
  have hs1 : (t1.pool l).state = .sleeping := hw.sleeping hs (by rintro (h | h) <;> contradiction)
  -- a sleeper is not a zombie, so the round does not `exit()`
  have hi1 : (t1.procs p).lwps i = some l := by rw [hw.lwps]; exact hi
  rw [if_neg (by rw [allLwp_eq_false hi1 (by rw [hs1]; decide)]; decide)] at h
  have hl2 : (t1.modifyLwp cur fun w => { w with state := .zombie, cont := .exit }).pool l =
      t1.pool l := LSys.modifyLwp_pool_of_ne _ _ _ hl
  have hcont : (t1.pool l).cont = (s.pool l).cont := hw.cont l
  rcases switchAway_cases h with rfl | ⟨j, m, -, hm, -, rfl⟩
  · exact ⟨by simp [parkProc, hl2, hs1], by simp [parkProc, hl2, hcont]⟩
  · -- the LWP switched to was runnable, so it is not the sleeper
    have hml : l ≠ m := by rintro rfl; rw [hl2, hs1] at hm; cases hm
    simp only [LSys.setLwpState, LSys.modifyLwp_pool_of_ne _ _ _ hml, LSys.modifyProc_pool, hl2]
    exact ⟨hs1, hcont⟩

/-! ## Runs from boot -/

/-- **A process whose only LWP calls `thread_exit` is left `SLEEPING` with every LWP a zombie.**
The first process, dispatched after boot, calls `thread_exit` from its main LWP. -/
theorem last_thread_exit_strands :
    ∃ s : LSys, LReachable 1000 s ∧ (s.procs 0).state = .sleeping ∧ s.cur = none ∧
      allLwp s (s.procs 0) .zombie = true := by
  obtain ⟨s, hs, hv⟩ := Option.map_eq_some_iff.mp
    (show (Reach.run step (LSys.boot 1000) [.userinit, .dispatch 0]).map
        (fun s => (s.running, s.mylwp 0, (s.pool 0).kstack, decide ((s.pool 0).state = .zombie),
          decide (∀ i : Slot, (s.procs 0).lwps i = none ∨ (s.procs 0).lwps i = some 0))) =
        some (some (0, 0), some 0, true, false, true) by rfl)
  simp only [Prod.mk.injEq, decide_eq_true_eq, decide_eq_false_iff_not] at hv
  obtain ⟨hr, hm, hk, hlive, hone⟩ := hv
  -- the main LWP is the only one, so all others are zombies vacuously
  have hrest : ∀ i l, (s.procs 0).lwps i = some l → l ≠ 0 → (s.pool l).state = .zombie := by
    intro i l hl hl0
    rcases hone i with h | h <;> rw [h] at hl <;> cases hl
    exact absurd rfl hl0
  obtain ⟨t, ht, hsl, hcur, hz⟩ := threadExit_strands hm hk hlive hrest
  refine ⟨t, Reach.Reachable.init.run (fun _ _ => trivial) hs |>.step (.call .threadExit)
    (by simp [step, hr, doCall, ht]) trivial, hsl, hcur, ?_⟩
  simp only [allLwp, decide_eq_true_eq]
  intro i
  cases hi : (t.procs 0).lwps i with
  | none => rfl
  | some l => simp [hz i l hi]

/-- **A joiner sleeps on while the LWP it joins is a zombie.** The main LWP (tid 0) creates
LWP 1, which creates LWP 2; the main LWP calls `thread_join(2)` and sleeps on the channel of
tid 0; LWP 2 exits, waking only the channel of its parent, tid 1. -/
theorem join_wakeup_lost :
    ∃ s : LSys, LReachable 1000 s ∧ (s.procs 0).lwps 0 = some 0 ∧ (s.procs 0).lwps 2 = some 2 ∧
      (s.pool 0).state = .sleeping ∧ (s.pool 0).cont = .join 2 ∧
      (s.pool 2).tid = 2 ∧ (s.pool 2).state = .zombie := by
  -- the ten events of the run unfold past the default recursion depth
  obtain ⟨s, hs, hv⟩ := Option.map_eq_some_iff.mp
    (show (Reach.run step (LSys.boot 1000)
        [.userinit, .dispatch 0, .call .threadCreate, .call .tick, .call .threadCreate,
          .call .tick, .call .tick, .call (.threadJoin 2), .call .tick, .call .threadExit]).map
        (fun s => ((s.procs 0).lwps 0, (s.procs 0).lwps 2, s.pool 0, s.pool 2)) =
        some (some 0, some 2, ⟨0, 0, 0, .sleeping, true, .tid 0, .join 2⟩,
          ⟨2, 1, 2 * pgsize, .zombie, true, .tid 0, .exit⟩) by set_option maxRecDepth 4000 in rfl)
  simp only [Prod.mk.injEq] at hv
  obtain ⟨h0, h2, hl0, hl2⟩ := hv
  exact ⟨s, Reach.Reachable.init.run (fun _ _ => trivial) hs, h0, h2, by rw [hl0], by rw [hl0],
    by rw [hl2], by rw [hl2]⟩

end Xv6.Lwps
