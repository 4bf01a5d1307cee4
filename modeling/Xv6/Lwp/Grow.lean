import Xv6.Lwp.Tid

/-!
# Failed memory calls: `growproc` and `thread_create`

`growproc` takes `curproc->lock` with `acquiresleep` and releases it only on its way to
`return 0`: each of its three `return -1`s leaves the lock held (`growprocLocked_fail`,
`growproc_fail_holds_lock`), and from then on the process's own `growproc` and `exec`, which
begin with `acquiresleep`, wait for good (`locked_blocks`). `thread_create` does not return
`-1` when the pages run out for the new user stack: `allocuvm` returns 0 and it panics with
`Bad LWP` (`thread_create_stack_oom_panics`).
-/

set_option autoImplicit false

namespace Xv6.Lwps

/-- Every `return -1` of `growproc`, once it holds the lock, leaves the lock as it was. -/
theorem growprocLocked_fail {s t : LSys} {p : ProcId} {n : Int}
    (h : growprocLocked s p n = some (-1, t)) : (t.procs p).locked = (s.procs p).locked := by
  unfold growprocLocked at h
  split_ifs at h with hpos hneg
  · -- `n > 0`: the stack-limit check, then `allocuvm`
    rcases hl : (s.procs p).lwps (lastLwpSlot (s.procs p)) with _ | l <;> simp only [hl] at h
    · cases h
    split_ifs at h with hstack
    · cases h; rfl
    rcases hu : allocuvm s.free (s.procs p).pages (s.procs p).sz (uintAdd (s.procs p).sz n) with
        _ | ⟨_ | sz, free, pages⟩ <;> simp only [hu] at h
    · cases h
    · cases h; simp
    · simp at h
  · -- `n < 0`: `deallocuvm`
    rcases hd : deallocuvm s.free (s.procs p).pages (s.procs p).sz (uintAdd (s.procs p).sz n) with
        ⟨_ | sz, free, pages⟩ <;> simp only [hd] at h
    · cases h; simp
    · simp at h
  · simp at h

/-- **A failed `growproc` returns holding the sleeplock it took**, which was free before. -/
theorem growproc_fail_holds_lock {s t : LSys} {p : ProcId} {n : Int}
    (h : growproc s p n = some (-1, t)) : (s.procs p).locked = false ∧ (t.procs p).locked = true := by
  unfold growproc at h
  -- the branch of a held lock is `none`, which `split_ifs` discharges
  split_ifs at h with hl
  refine ⟨by simpa using hl, ?_⟩
  rw [growprocLocked_fail h]
  simp

/-- While `p` holds its sleeplock, its `growproc` and `exec` wait in `acquiresleep`. -/
theorem locked_blocks {s : LSys} {p : ProcId} (h : (s.procs p).locked = true) :
    (∀ n, growproc s p n = none) ∧ ∀ sz, execLwps s p sz = none :=
  ⟨fun n => by simp [growproc, h], fun sz => by simp [execLwps, h]⟩

/-- **A failed `growproc` changes the sleeplock, and the process cannot grow or `exec`
again.** `initproc` asks for `0x7fffe000` more bytes, past the top of its main LWP's stack:
`growproc` returns `-1` still holding `curproc->lock`. -/
theorem growproc_failure_holds_lock :
    ∃ s t : LSys, LReachable 1000 s ∧ (s.procs 0).locked = false ∧
      step s (.call (.growproc 0x7fffe000)) = some t ∧ growproc s 0 0x7fffe000 = some (-1, t) ∧
      (t.procs 0).locked = true ∧ (∀ n, growproc t 0 n = none) ∧ ∀ sz, execLwps t 0 sz = none := by
  obtain ⟨s, hs, hr⟩ := Option.map_eq_some_iff.mp
    (show (Reach.run step (LSys.boot 1000) [.userinit, .dispatch 0]).map LSys.running =
      some (some (0, 0)) by rfl)
  have hg := show ((Reach.run step (LSys.boot 1000) [.userinit, .dispatch 0]).bind fun s =>
      growproc s 0 0x7fffe000).map Prod.fst = some (-1) by rfl
  rw [hs, Option.bind_some] at hg
  obtain ⟨⟨r, t⟩, hgt, rfl⟩ := Option.map_eq_some_iff.mp hg
  obtain ⟨hfree, hheld⟩ := growproc_fail_holds_lock hgt
  have hst : step s (.call (.growproc 0x7fffe000)) = some t := by
    simp [step, hr, doCall, hgt]
  exact ⟨s, t, Reach.Reachable.init.run (fun _ _ => trivial) hs, hfree, hst, hgt, hheld,
    locked_blocks hheld⟩

/-- **`thread_create` panics when the pages run out for the new stack.** With three pages on
the free list, `userinit` takes two; `initproc`'s `thread_create` gets the last one for the
kernel stack, and `allocuvm` of the two stack pages then fails. -/
theorem thread_create_stack_oom_panics :
    ∃ s : LSys, LReachable 3 s ∧ s.running = some (0, 0) ∧ (alloclwp s).isSome ∧ s.free = 1 ∧
      threadCreate s 0 0 = none ∧ step s (.call .threadCreate) = none := by
  obtain ⟨s, hs, hv⟩ := Option.map_eq_some_iff.mp
    (show (Reach.run step (LSys.boot 3) [.userinit, .dispatch 0]).map
        (fun s => (s.running, (alloclwp s).isSome, s.free, (threadCreate s 0 0).isNone)) =
      some (some (0, 0), true, 1, true) by rfl)
  simp only [Prod.mk.injEq] at hv
  obtain ⟨hr, ha, hf, hc⟩ := hv
  have hc : threadCreate s 0 0 = none := Option.isNone_iff_eq_none.mp hc
  exact ⟨s, Reach.Reachable.init.run (fun _ _ => trivial) hs, hr, ha, hf, hc,
    by simp [step, hr, doCall, hc]⟩

end Xv6.Lwps
