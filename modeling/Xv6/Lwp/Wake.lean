import Xv6.Lwp.Calls

/-!
# What wakeups and LWP switches do

The field lemmas of the updates, and the frame relation `Wakes C s t`: `t` is `s` after
wakeups on channels in `C` and changes of `ptid`, which keep the tables, the tids, the
channels and the continuations, and change an LWP's state only from asleep on a channel in
`C` to runnable. `wakeup1` of `lwp.c` and the reparenting loop of `thread_exit` are such
steps (`wakeupLwps_wakes`, `reparentLwps_wakes`). `switchAway_cases` says what happens when
the running LWP stops: the process parks, or runs another LWP that was runnable.
-/

set_option autoImplicit false

namespace Xv6.Lwps

/-! ## Field lemmas -/

section Fields

variable (s : LSys) (p q : ProcId) (l m : LwpRef) (f : LProc → LProc) (g : Lwp → Lwp)

@[simp] theorem LSys.modifyProc_pool : (s.modifyProc p f).pool = s.pool := rfl
@[simp] theorem LSys.modifyProc_used : (s.modifyProc p f).used = s.used := rfl
@[simp] theorem LSys.modifyProc_cur : (s.modifyProc p f).cur = s.cur := rfl
@[simp] theorem LSys.modifyProc_free : (s.modifyProc p f).free = s.free := rfl

@[simp] theorem LSys.modifyProc_procs_self : (s.modifyProc p f).procs p = f (s.procs p) := by
  simp [LSys.modifyProc]

theorem LSys.modifyProc_procs_of_ne {q : ProcId} (h : q ≠ p) :
    (s.modifyProc p f).procs q = s.procs q := by
  simp [LSys.modifyProc, Function.update_of_ne h]

@[simp] theorem LSys.modifyLwp_procs : (s.modifyLwp l g).procs = s.procs := rfl
@[simp] theorem LSys.modifyLwp_used : (s.modifyLwp l g).used = s.used := rfl
@[simp] theorem LSys.modifyLwp_cur : (s.modifyLwp l g).cur = s.cur := rfl
@[simp] theorem LSys.modifyLwp_free : (s.modifyLwp l g).free = s.free := rfl

@[simp] theorem LSys.modifyLwp_pool_self : (s.modifyLwp l g).pool l = g (s.pool l) := by
  simp [LSys.modifyLwp]

theorem LSys.modifyLwp_pool_of_ne {m : LwpRef} (h : m ≠ l) :
    (s.modifyLwp l g).pool m = s.pool m := by
  simp [LSys.modifyLwp, Function.update_of_ne h]

@[simp] theorem LSys.mylwp_modifyLwp : (s.modifyLwp l g).mylwp p = s.mylwp p := rfl

end Fields

/-! ## The frame of wakeups -/

/-- `t` is `s` after wakeups on channels in `C` and changes of `ptid`. -/
structure Wakes (C : Chan → Prop) (s t : LSys) : Prop where
  lwps : ∀ q, (t.procs q).lwps = (s.procs q).lwps
  lwpIdx : ∀ q, (t.procs q).lwpIdx = (s.procs q).lwpIdx
  lwpCnt : ∀ q, (t.procs q).lwpCnt = (s.procs q).lwpCnt
  procState : ∀ q, (t.procs q).state = (s.procs q).state ∨ (s.procs q).state = .sleeping
  tid : ∀ l, (t.pool l).tid = (s.pool l).tid
  chan : ∀ l, (t.pool l).chan = (s.pool l).chan
  kstack : ∀ l, (t.pool l).kstack = (s.pool l).kstack
  cont : ∀ l, (t.pool l).cont = (s.pool l).cont
  state : ∀ l, (t.pool l).state = (s.pool l).state ∨
    ((s.pool l).state = .sleeping ∧ C (s.pool l).chan ∧ (t.pool l).state = .runnable)
  used : t.used = s.used
  cur : t.cur = s.cur

namespace Wakes

variable {C C' : Chan → Prop} {s t u : LSys}

theorem refl (C : Chan → Prop) (s : LSys) : Wakes C s s :=
  ⟨fun _ => rfl, fun _ => rfl, fun _ => rfl, fun _ => .inl rfl, fun _ => rfl, fun _ => rfl,
    fun _ => rfl, fun _ => rfl, fun _ => .inl rfl, rfl, rfl⟩

theorem mono (h : Wakes C s t) (hC : ∀ c, C c → C' c) : Wakes C' s t where
  lwps := h.lwps
  lwpIdx := h.lwpIdx
  lwpCnt := h.lwpCnt
  procState := h.procState
  tid := h.tid
  chan := h.chan
  kstack := h.kstack
  cont := h.cont
  state l := (h.state l).imp_right fun ⟨hs, hc, ht⟩ => ⟨hs, hC _ hc, ht⟩
  used := h.used
  cur := h.cur

theorem trans (h₁ : Wakes C s t) (h₂ : Wakes C t u) : Wakes C s u where
  lwps q := (h₂.lwps q).trans (h₁.lwps q)
  lwpIdx q := (h₂.lwpIdx q).trans (h₁.lwpIdx q)
  lwpCnt q := (h₂.lwpCnt q).trans (h₁.lwpCnt q)
  procState q := by
    rcases h₁.procState q with h1 | h1
    · rcases h₂.procState q with h2 | h2
      · exact .inl (h2.trans h1)
      · exact .inr (h1 ▸ h2)
    · exact .inr h1
  tid l := (h₂.tid l).trans (h₁.tid l)
  chan l := (h₂.chan l).trans (h₁.chan l)
  kstack l := (h₂.kstack l).trans (h₁.kstack l)
  cont l := (h₂.cont l).trans (h₁.cont l)
  state l := by
    -- a woken LWP is runnable and no longer asleep, so the second wakeup leaves it alone
    rcases h₁.state l with h1 | ⟨hs, hc, ht⟩
    · rcases h₂.state l with h2 | ⟨hs2, hc2, ht2⟩
      · exact .inl (h2.trans h1)
      · exact .inr ⟨h1 ▸ hs2, h₁.chan l ▸ hc2, ht2⟩
    · rcases h₂.state l with h2 | ⟨hs2, -, -⟩
      · exact .inr ⟨hs, hc, h2.trans ht⟩
      · rw [ht] at hs2; cases hs2
  used := h₂.used.trans h₁.used
  cur := h₂.cur.trans h₁.cur

/-- A zombie stays a zombie. -/
theorem zombie (h : Wakes C s t) {l : LwpRef} (hz : (s.pool l).state = .zombie) :
    (t.pool l).state = .zombie := by
  rcases h.state l with h1 | ⟨hs, -, -⟩
  · rw [h1, hz]
  · rw [hz] at hs; cases hs

/-- An LWP asleep on a channel outside `C` stays asleep. -/
theorem sleeping (h : Wakes C s t) {l : LwpRef} (hs : (s.pool l).state = .sleeping)
    (hc : ¬ C (s.pool l).chan) : (t.pool l).state = .sleeping := by
  rcases h.state l with h1 | ⟨-, hc', -⟩
  · rw [h1, hs]
  · exact absurd hc' hc

/-- An LWP that is neither a zombie nor asleep keeps its state. -/
theorem awake (h : Wakes C s t) {l : LwpRef} (hs : (s.pool l).state ≠ .sleeping) :
    (t.pool l).state = (s.pool l).state := by
  rcases h.state l with h1 | ⟨hs', -, -⟩
  · exact h1
  · exact absurd hs' hs

theorem mylwp (h : Wakes C s t) (p : ProcId) : t.mylwp p = s.mylwp p := by
  simp only [LSys.mylwp, h.lwps, h.lwpIdx]

end Wakes

/-- `l->ptid = 0` is in the frame. -/
theorem ptid_wakes (C : Chan → Prop) (s : LSys) (l : LwpRef) :
    Wakes C s (s.modifyLwp l fun w => { w with ptid := 0 }) := by
  refine ⟨fun _ => rfl, fun _ => rfl, fun _ => rfl, fun _ => .inl rfl, ?_, ?_, ?_, ?_, ?_, rfl, rfl⟩
  all_goals
    intro m
    by_cases hm : m = l
    · subst hm; simp
    · simp [LSys.modifyLwp_pool_of_ne _ _ _ hm]

/-- **`wakeup1(chan)` of `lwp.c`** is a wakeup on `chan`. -/
theorem wakeupLwps_wakes (s : LSys) (p : ProcId) (c : Chan) :
    Wakes (· = c) s (wakeupLwps s p c) := by
  -- the process entries: at most `p`'s state changes, from asleep
  have hprocs : ∀ q, ((wakeupLwps s p c).procs q) = s.procs q ∨
      (q = p ∧ (s.procs p).state = .sleeping ∧
        (wakeupLwps s p c).procs q = { s.procs p with state := .runnable }) := by
    intro q
    simp only [wakeupLwps]
    split_ifs with h
    · by_cases hq : q = p
      · subst hq; exact .inr ⟨rfl, h.2, by simp⟩
      · exact .inl (Function.update_of_ne hq _ _)
    · exact .inl rfl
  -- the pool entries: at most the state changes, from asleep on `c`
  have hpool : ∀ l, (wakeupLwps s p c).pool l = s.pool l ∨
      ((s.pool l).state = .sleeping ∧ (s.pool l).chan = c ∧
        (wakeupLwps s p c).pool l = { s.pool l with state := .runnable }) := by
    intro l
    simp only [wakeupLwps]
    split_ifs with h
    · simp only [Bool.and_eq_true, decide_eq_true_eq] at h
      exact .inr ⟨h.2.1, h.2.2, rfl⟩
    · exact .inl rfl
  refine ⟨fun q => ?_, fun q => ?_, fun q => ?_, fun q => ?_, fun l => ?_, fun l => ?_,
    fun l => ?_, fun l => ?_, fun l => ?_, rfl, rfl⟩
  · rcases hprocs q with h | ⟨rfl, -, h⟩ <;> simp [h]
  · rcases hprocs q with h | ⟨rfl, -, h⟩ <;> simp [h]
  · rcases hprocs q with h | ⟨rfl, -, h⟩ <;> simp [h]
  · rcases hprocs q with h | ⟨rfl, hs, -⟩
    · simp [h]
    · exact .inr hs
  · rcases hpool l with h | ⟨-, -, h⟩ <;> simp [h]
  · rcases hpool l with h | ⟨-, -, h⟩ <;> simp [h]
  · rcases hpool l with h | ⟨-, -, h⟩ <;> simp [h]
  · rcases hpool l with h | ⟨-, -, h⟩ <;> simp [h]
  · rcases hpool l with h | ⟨hs, hc, h⟩
    · simp [h]
    · exact .inr ⟨hs, hc, by simp [h]⟩

/-- A loop over the slots whose every round is a `Wakes` step from `s` is one. -/
theorem Wakes.foldl {C : Chan → Prop} {s : LSys} {f : LSys → Slot → LSys}
    (hf : ∀ t i, Wakes C s t → Wakes C s (f t i)) :
    ∀ (L : List Slot) (t : LSys), Wakes C s t → Wakes C s (L.foldl f t)
  | [], _, ht => ht
  | i :: L, t, ht => Wakes.foldl hf L (f t i) (hf t i ht)

/-- **The reparenting loop of `thread_exit`** is a wakeup on channel 0. -/
theorem reparentLwps_wakes (s : LSys) (p : ProcId) (tid : Nat) :
    Wakes (· = .tid 0) s (reparentLwps s p tid) := by
  unfold reparentLwps
  -- the loop over the slots keeps the frame, one slot at a time
  refine Wakes.foldl (fun t i ht => ?_) _ s (Wakes.refl _ s)
  simp only
  split
  · exact ht
  · rename_i l _
    split
    · have h1 := ht.trans (ptid_wakes _ t l)
      split
      · exact h1.trans (wakeupLwps_wakes _ p _)
      · exact h1
    · exact ht

/-! ## Stopping the running LWP -/

/-- `all_lwp` is false as soon as one slot holds an LWP in another state. -/
theorem allLwp_eq_false {s : LSys} {pr : LProc} {st : LwpState} {i : Slot} {l : LwpRef}
    (hi : pr.lwps i = some l) (hl : (s.pool l).state ≠ st) : allLwp s pr st = false := by
  simp only [allLwp, decide_eq_false_iff_not, not_forall]
  exact ⟨i, by simp [hi, hl]⟩

/-- What `get_runnable_lwp` finds: a slot other than the current one holding a runnable LWP
with a kernel stack, or the current slot if its LWP is runnable, or nothing. -/
theorem getRunnableLwp_spec {s : LSys} {p : ProcId} {r : Option Slot}
    (h : getRunnableLwp s p = some r) :
    r = none ∨ ∃ i l, r = some i ∧ (s.procs p).lwps i = some l ∧ (s.pool l).state = .runnable ∧
      (i = (s.procs p).lwpIdx ∨ some l ≠ s.mylwp p) := by
  unfold getRunnableLwp at h
  simp only at h
  generalize hf : (probeOrder (s.procs p).lwpIdx).find? (runnableOther s (s.procs p)) = o at h
  split at h
  · cases h
  · rename_i l hl
    split_ifs at h with hk hst
    · cases h; exact .inl rfl
    · cases h
      refine .inr ⟨_, l, rfl, hl, not_not.mp hst, ?_⟩
      cases o with
      | none => exact .inl rfl
      | some j =>
        -- the slot the probe found holds an LWP other than the current one
        right
        have hj := List.find?_some hf
        simp only [Option.getD_some] at hl
        simp only [runnableOther, hl, decide_eq_true_eq] at hj
        exact hj.1

/-- With no runnable LWP in its table, `get_runnable_lwp` answers `0`, as long as the current
slot holds an LWP with a kernel stack. -/
theorem getRunnableLwp_none {s : LSys} {p : ProcId} {l : LwpRef} (hm : s.mylwp p = some l)
    (hk : (s.pool l).kstack = true)
    (hno : ∀ i m, (s.procs p).lwps i = some m → (s.pool m).state ≠ .runnable) :
    getRunnableLwp s p = some none := by
  have hf : (probeOrder (s.procs p).lwpIdx).find? (runnableOther s (s.procs p)) = none := by
    rw [List.find?_eq_none]
    intro i _
    unfold runnableOther
    split
    · simp
    · rename_i m hm'
      simp [hno i m hm']
  have hl : (s.procs p).lwps (s.procs p).lwpIdx = some l := hm
  simp [getRunnableLwp, hf, hl, hk, hno _ l hl]

/-- **When the running LWP stops**, the process parks, or runs another LWP of its table that
was runnable and now runs. -/
theorem switchAway_cases {s t : LSys} {p : ProcId} (h : switchAway s p = some t) :
    t = parkProc s p ∨ ∃ i l, (s.procs p).lwps i = some l ∧ (s.pool l).state = .runnable ∧
      s.mylwp p ≠ some l ∧
      t = (s.modifyProc p fun pr => { pr with lwpIdx := i }).setLwpState l .running := by
  unfold switchAway at h
  split at h
  · cases h
  · rename_i i hr
    split at h
    · cases h; exact .inl rfl
    · rename_i hne
      obtain hn | ⟨j, l, hj, hl, hst, hother⟩ := getRunnableLwp_spec hr
      · cases hn
      · cases hj
        have hother : some l ≠ s.mylwp p := hother.resolve_left hne
        unfold swtchlwp1 at h
        rw [hl] at h
        simp only [if_neg (Ne.symm hother)] at h
        split_ifs at h
        cases h
        exact .inr ⟨i, l, hl, hst, Ne.symm hother, rfl⟩
  · cases h; exact .inl rfl

end Xv6.Lwps
