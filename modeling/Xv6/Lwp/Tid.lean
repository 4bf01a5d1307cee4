import Xv6.Lwp.Wake

/-!
# Thread ids after `exec`

`thread_create` numbers the new LWP by the counter `lwp_cnt` of its process
(`threadCreate_ok`). `exec` moves the calling LWP, with its tid, to slot 0, frees every other
LWP and sets `lwp_cnt = 1` (`execLwps_ok`). A caller other than the main LWP has a tid of at
least 1, so a later `thread_create` hands out a tid the caller still has: for the caller of
tid 1, the very next one does (`exec_create_tid_collision`).
-/

set_option autoImplicit false

namespace Xv6.Lwps

/-- No LWP sits in two slots of the table. -/
def LProc.Distinct (pr : LProc) : Prop :=
  ∀ i j l, pr.lwps i = some l → pr.lwps j = some l → i = j

/-! ## What the pool operations change -/

section

variable {s t : LSys} {l m : LwpRef}

@[simp] theorem LSys.setLwpState_procs (st : LwpState) : (s.setLwpState l st).procs = s.procs :=
  rfl

@[simp] theorem LSys.setLwpState_tid (st : LwpState) (m : LwpRef) :
    ((s.setLwpState l st).pool m).tid = (s.pool m).tid := by
  by_cases h : m = l
  · subst h; simp [LSys.setLwpState]
  · simp [LSys.setLwpState, LSys.modifyLwp_pool_of_ne _ _ _ h]

@[simp] theorem LSys.setSlot_pool (p : ProcId) (i : Slot) (o : Option LwpRef) :
    (s.setSlot p i o).pool = s.pool := rfl

@[simp] theorem LSys.setSlot_lwps_self (p : ProcId) (i : Slot) (o : Option LwpRef) :
    ((s.setSlot p i o).procs p).lwps = Function.update (s.procs p).lwps i o := by
  simp [LSys.setSlot]

@[simp] theorem LSys.setSlot_lwpCnt (p q : ProcId) (i : Slot) (o : Option LwpRef) :
    ((s.setSlot p i o).procs q).lwpCnt = (s.procs q).lwpCnt := by
  by_cases h : q = p
  · subst h; simp [LSys.setSlot]
  · simp [LSys.setSlot, LSys.modifyProc_procs_of_ne _ _ _ h]

@[simp] theorem kfree_procs : (kfree s).procs = s.procs := rfl

@[simp] theorem kfree_pool : (kfree s).pool = s.pool := rfl

theorem alloclwp_procs (h : alloclwp s = some (l, t)) : t.procs = s.procs := by
  unfold alloclwp at h
  split at h
  · cases h
  · cases h; rfl

/-- `alloclwp` sets a state and a bit, never a tid. -/
theorem alloclwp_tid (h : alloclwp s = some (l, t)) (m : LwpRef) :
    (t.pool m).tid = (s.pool m).tid := by
  unfold alloclwp at h
  split at h
  · cases h
  · cases h; exact LSys.setLwpState_tid _ m

theorem kalloc_eq (h : kalloc s = some t) : t = { s with free := s.free - 1 } := by
  unfold kalloc at h
  split at h
  · cases h
  · exact (Option.some.inj h).symm

/-- `dealloclwp` leaves every other pool entry. -/
theorem dealloclwp_pool_of_ne (h : m ≠ l) : (dealloclwp s l).pool m = s.pool m := by
  simp [dealloclwp, Function.update_of_ne h]

theorem findEmptyLwp_spec {pr : LProc} {i : Slot} (h : findEmptyLwp pr = some i) :
    pr.lwps i = none := by
  unfold findEmptyLwp at h
  simpa using List.find?_some h

end

/-! ## `thread_create` -/

/-- **A successful `thread_create` takes its tid from `lwp_cnt`.** It returns the counter,
puts an LWP of that tid in a slot that was null, counts up, and changes no other slot and no
other tid. -/
theorem threadCreate_ok {s t : LSys} {p : ProcId} {cur : LwpRef} {r : Int}
    (h : threadCreate s p cur = some (r, t)) (hr : r ≠ -1) :
    ∃ i l, (s.procs p).lwps i = none ∧ (t.procs p).lwps i = some l ∧
      (t.pool l).tid = (s.procs p).lwpCnt ∧ r = (s.procs p).lwpCnt ∧
      (t.procs p).lwpCnt = (s.procs p).lwpCnt + 1 ∧
      (∀ j, j ≠ i → (t.procs p).lwps j = (s.procs p).lwps j) ∧
      (∀ m, m ≠ l → (t.pool m).tid = (s.pool m).tid) := by
  unfold threadCreate at h
  rcases ha : alloclwp s with _ | ⟨l, s1⟩ <;> simp only [ha] at h
  · exact absurd (Prod.mk.inj (Option.some.inj h)).1.symm hr
  rcases hk : kalloc s1 with _ | s2 <;> simp only [hk] at h
  · exact absurd (Prod.mk.inj (Option.some.inj h)).1.symm hr
  -- the table of `p` and every tid are still those of `s` once the stack is allocated
  obtain ⟨s3, hs3⟩ : ∃ s3, s3 = (s2.modifyLwp l fun w => { w with kstack := true }).setLwpState
      l .runnable := ⟨_, rfl⟩
  have hpr : s3.procs = s.procs := by
    rw [hs3, LSys.setLwpState_procs, LSys.modifyLwp_procs, kalloc_eq hk, ← alloclwp_procs ha]
  have htid : ∀ m, (s3.pool m).tid = (s.pool m).tid := by
    intro m
    rw [hs3, LSys.setLwpState_tid, ← alloclwp_tid ha m, kalloc_eq hk]
    by_cases hm : m = l
    · subst hm; simp
    · simp [LSys.modifyLwp_pool_of_ne _ _ _ hm]
  rw [← hs3] at h
  rcases hf : findEmptyLwp (s3.procs p) with _ | i <;> simp only [hf] at h
  · exact absurd (Prod.mk.inj (Option.some.inj h)).1.symm hr
  have hnull : (s.procs p).lwps i = none := by
    rw [← hpr]; exact findEmptyLwp_spec hf
  rcases hu : allocuvm s3.free (s3.procs p).pages (stackBase i - 2 * pgsize) (stackBase i) with
      _ | ⟨_ | n, free, pages⟩ <;> simp only [hu] at h
  · cases h
  · cases h
  obtain ⟨rfl, rfl⟩ := Prod.mk.inj (Option.some.inj h)
  refine ⟨i, l, hnull, by simp, by simp [hpr], by rw [hpr], by simp [LSys.modifyProc, hpr],
    fun j hj => ?_, fun m hm => ?_⟩
  · simp [LSys.modifyProc, Function.update_of_ne hj, hpr]
  · simp [LSys.modifyLwp_pool_of_ne _ _ _ hm, htid]

/-! ## `exec` -/

/-- The slots `exec` frees, once the caller `me` has moved to slot 0, never hold `me`. -/
theorem exec_freed_ne {pr : LProc} {me l : LwpRef} {i : Slot} (hd : pr.Distinct)
    (hme : pr.lwps pr.lwpIdx = some me) (hi : i ≠ 0)
    (hl : Function.update (Function.update pr.lwps pr.lwpIdx (pr.lwps 0)) 0 (some me) i = some l) :
    l ≠ me := by
  rintro rfl
  rw [Function.update_of_ne hi] at hl
  by_cases hix : i = pr.lwpIdx
  · -- the caller's old slot now holds what slot 0 held, which is not the caller
    subst hix
    rw [Function.update_self] at hl
    exact hi (hd _ 0 l hme hl)
  · rw [Function.update_of_ne hix] at hl
    exact hix (hd i _ l hl hme)

/-- **A successful `exec` keeps the caller and restarts the count.** The running LWP of `p` is
now the only one, in slot 0, with the tid it had, and `lwp_cnt` is 1. -/
theorem execLwps_ok {s t : LSys} {p : ProcId} {sz : Nat} (hd : (s.procs p).Distinct)
    (h : execLwps s p sz = some (0, t)) :
    ∃ me, s.mylwp p = some me ∧ (t.procs p).lwps = (fun i => if i = 0 then some me else none) ∧
      (t.procs p).lwpCnt = 1 ∧ (t.pool me).tid = (s.pool me).tid := by
  unfold execLwps at h
  split at h
  · cases h
  rcases ha : allocPages (s.modifyProc p fun pr => { pr with locked := true }).free ∅
      (execPages sz) with _ | ⟨_ | _, free, pages⟩ <;> simp only [ha] at h
  · cases h
  · cases h
  simp only [LSys.modifyProc_procs_self, bind, Option.bind_eq_some_iff] at h
  obtain ⟨me, hme, s', hf, h⟩ := h
  obtain rfl := (Prod.mk.inj (Option.some.inj h)).2.symm
  -- the loop frees other LWPs only, so the caller's entry is the one it had
  have hpool : s'.pool me = s.pool me := by
    rw [Reach.foldlM_eq_run] at hf
    refine Reach.run_inv (P := fun u => u.pool me = s.pool me) rfl ?_ hf
    intro i _ u u' hu hstep
    by_cases hi0 : i = 0
    · simp only [hi0, if_true] at hstep
      cases hstep; exact hu
    simp only [hi0, if_false] at hstep
    split at hstep
    · rename_i l hl
      split at hstep
      · cases hstep
        rw [dealloclwp_pool_of_ne (exec_freed_ne hd hme hi0 hl).symm]; exact hu
      · cases hstep
    · cases hstep; exact hu
  refine ⟨me, hme, by simp, by simp, ?_⟩
  simp [hpool]

/-! ## Two LWPs of one tid -/

/-- **After `exec` by the LWP of tid 1, the next `thread_create` hands out tid 1 again.** The
caller, now in slot 0, keeps tid 1, and the new LWP in another slot gets tid `lwp_cnt = 1`. -/
theorem exec_create_tid_collision {s t u : LSys} {p : ProcId} {me : LwpRef} {sz : Nat} {r : Int}
    (hd : (s.procs p).Distinct) (hm : s.mylwp p = some me) (htid : (s.pool me).tid = 1)
    (he : execLwps s p sz = some (0, t)) (hc : threadCreate t p me = some (r, u)) (hr : r ≠ -1) :
    ∃ i l, i ≠ 0 ∧ (u.procs p).lwps 0 = some me ∧ (u.procs p).lwps i = some l ∧
      (u.pool me).tid = 1 ∧ (u.pool l).tid = 1 := by
  obtain ⟨me', hm', hlwps, hcnt, hme⟩ := execLwps_ok hd he
  obtain rfl : me = me' := Option.some.inj (hm.symm.trans hm')
  obtain ⟨i, l, hnull, hl, htl, -, -, hother, hpool⟩ := threadCreate_ok hc hr
  -- the slot `thread_create` fills was null, so it is not slot 0, which holds the caller
  have hi : i ≠ 0 := by
    rintro rfl
    rw [hlwps] at hnull
    simp at hnull
  have hl1 : (u.pool l).tid = 1 := by rw [htl, hcnt]
  refine ⟨i, l, hi, ?_, hl, ?_, hl1⟩
  · rw [hother 0 (Ne.symm hi), hlwps]
    simp
  · by_cases hlm : me = l
    · rw [hlm]; exact hl1
    · rw [hpool me hlm, hme, htid]

/-- **`exec` from a second LWP, then `thread_create`, gives two LWPs of one tid.** The main
LWP of `initproc` creates LWP 1 and a tick runs it; LWP 1 calls `exec`, moves to slot 0 with
tid 1 and resets `lwp_cnt` to 1; its `thread_create` then gives the new LWP tid 1. -/
theorem exec_then_create_repeats_tid :
    ∃ s : LSys, LReachable 1000 s ∧ ∃ i : Slot, ∃ a b : LwpRef, i ≠ 0 ∧
      (s.procs 0).lwps 0 = some a ∧ (s.procs 0).lwps i = some b ∧ (s.pool a).tid = (s.pool b).tid := by
  obtain ⟨s, hs, hv⟩ := Option.map_eq_some_iff.mp
    (show (Reach.run step (LSys.boot 1000)
        [.userinit, .dispatch 0, .call .threadCreate, .call .tick]).map
        (fun s => (s.running, (s.pool 1).tid, (s.procs 0).lwps 0, (s.procs 0).lwps 1,
          decide (∀ i : Slot, i = 0 ∨ i = 1 ∨ (s.procs 0).lwps i = none))) =
        some (some (0, 1), 1, some 0, some 1, true) by rfl)
  simp only [Prod.mk.injEq, decide_eq_true_eq] at hv
  obtain ⟨hr, htid, h0, h1, hone⟩ := hv
  have hm : s.mylwp 0 = some 1 := by
    simp only [LSys.running] at hr
    split at hr
    · cases hr
    split at hr
    · cases hr
    · rename_i p hp l hl
      split at hr
      · obtain ⟨rfl, rfl⟩ := Prod.mk.inj (Option.some.inj hr); exact hl
      · cases hr
  -- LWPs 0 and 1 are the only ones, in slots 0 and 1
  have hd : (s.procs 0).Distinct := by
    intro i j l hi hj
    rcases hone i with rfl | rfl | hi' <;> rcases hone j with rfl | rfl | hj' <;>
      simp_all [maxLwps, nlwps]
  -- LWP 1 calls `exec`, and then `thread_create`
  have hexec := show ((Reach.run step (LSys.boot 1000)
      [.userinit, .dispatch 0, .call .threadCreate, .call .tick]).bind fun s =>
        execLwps s 0 4096).map (fun x => (x.1, x.2.running)) = some (0, some (0, 1)) by
    rfl
  rw [hs, Option.bind_some] at hexec
  obtain ⟨⟨r, t⟩, he, hvt⟩ := Option.map_eq_some_iff.mp hexec
  simp only [Prod.mk.injEq] at hvt
  obtain ⟨rfl, hrt⟩ := hvt
  have hcreate := show (((Reach.run step (LSys.boot 1000)
      [.userinit, .dispatch 0, .call .threadCreate, .call .tick]).bind fun s =>
        execLwps s 0 4096).bind fun x => threadCreate x.2 0 1).map Prod.fst = some 1 by
    rfl
  rw [hs, Option.bind_some, he, Option.bind_some] at hcreate
  obtain ⟨⟨r', u⟩, hc, rfl⟩ := Option.map_eq_some_iff.mp hcreate
  obtain ⟨i, l, hi, hu0, hul, hume, hutl⟩ := exec_create_tid_collision hd hm htid he hc (by decide)
  have hst1 : step s (.call (.exec 4096)) = some t := by simp [step, hr, doCall, he]
  have hst2 : step t (.call .threadCreate) = some u := by simp [step, hrt, doCall, hc]
  exact ⟨u, ((Reach.Reachable.init.run (fun _ _ => trivial) hs).step _ hst1 trivial).step _ hst2
    trivial, i, 1, l, hi, hu0, hul, hume.trans hutl.symm⟩

end Xv6.Lwps
