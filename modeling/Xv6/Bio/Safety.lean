import Xv6.Bio.Refine

/-!
# What the runs of the buffer cache reach

The consequences of `Xv6.Bio.Refine` for the runs of the threads from `binit`: the cache
refines the store (`bcache_refines`), no block is in two threads' hands (`bcache_exclusive`),
the holder's buffer has what the store shows for its block (`bcache_holder`), and `bget` panics
exactly when the cache has no buffer of the block and none is free (`bget_no_buffers`).

The runs that the witnesses use are general. An idle thread's `bread` of a block new to the
cache, where a buffer is free, recycles one and leaves the thread holding it (`reaches_read`);
a holder that has `log_write` pin its buffer and releases it leaves the buffer pinned
(`reaches_pin`). `NBUF` such uses of new blocks pin every buffer (`pinned_all`), as the
`LOGSIZE = NBUF` blocks of a full transaction do, and `bget` then has no buffer for any other
block.
-/

set_option autoImplicit false

namespace Xv6.Bio

open Xv6.Fs

namespace BCache

variable {T : Type} [Fintype T] [DecidableEq T] {s : BCache T} {d : Nat × Nat → Block}

omit [Fintype T] in
/-- A step that moves thread `t` alone keeps the rule, unless it gives up a buffer it held. -/
theorem releases_of_th {s' : BCache T} {t : T} {p : Phase} (hth : s'.th = Function.update s.th t p)
    (hp : ∀ i, s.th t = .holding i → p = .releasing i → s'.Synced i) : Releases s s' := by
  intro u i hu hu'
  rw [hth] at hu'
  rcases eq_or_ne u t with rfl | hut
  · rw [Function.update_self] at hu'
    exact hp i hu hu'
  · rw [Function.update_of_ne hut, hu] at hu'
    cases hu'

/-! ## Runs of one thread -/

/-- **A read of a block new to the cache.** An idle thread's `bread` of a block that no buffer
has, where a buffer is free, recycles a free buffer `j`, reads the block into it, and leaves the
thread holding it. -/
theorem reaches_read (hr : (binit d).Reaches s) {t : T} (ht : s.th t = .idle) {dev blockno : Nat}
    (hx : blockno < fssize) (hnew : ∀ i, (s.buf i).key ≠ (dev, blockno)) {i : Fin nbuf}
    (hfree : (s.buf i).free = true) :
    ∃ j s', (binit d).Reaches s' ∧ (s.buf j).free = true ∧
      s'.buf = Function.update s.buf j ⟨true, false, dev, blockno, some t, 1, s.disk (dev, blockno)⟩ ∧
      s'.th = Function.update s.th t (.holding j) ∧ s'.disk = s.disk := by
  have hI := reaches_inv hr
  obtain ⟨j, hj⟩ := hI.find_free hfree
  have hjfree : (s.buf j).free = true := onBuf_of_find hj
  obtain ⟨hr0, -⟩ : (s.buf j).refcnt = 0 ∧ (s.buf j).dirty = false := by simpa [Buf.free] using hjfree
  have hlock : (s.buf j).lock = none := hI.lock_none hr0
  -- `bget`'s second loop recycles `j`
  set b₁ : Buf T := { s.buf j with dev, blockno, valid := false, dirty := false, refcnt := 1 }
  set s₁ := (s.setBuf j b₁).setTh t (.locking j) with hs₁
  have h1 : s.step (.bget t dev blockno) = some s₁ := by
    simp only [step, if_pos ht, hI.bget_eq, cached_none_of_key_ne hnew, hj]
    rfl
  -- `acquiresleep` takes the lock no one holds, and `iderw` reads the block
  set b₂ : Buf T := ⟨true, false, dev, blockno, some t, 1, s.disk (dev, blockno)⟩
  set s₂ : BCache T := (s₁.setTh t (.holding j)).setBuf j b₂ with hs₂
  have h2 : s₁.step (.acquire t) = some s₂ := by
    have hth : s₁.th t = .locking j := by simp [hs₁]
    have hbuf : s₁.buf j = b₁ := by simp [hs₁]
    simp only [step, hth, hbuf, hlock, bread, b₁, if_true]
    simp [iderw, Nat.not_le.mpr hx]
    rfl
  refine ⟨j, s₂, .step _ (.step _ hr h1 (releases_of_th rfl fun _ _ h => by cases h)) h2
    (releases_of_th rfl fun _ _ h => by cases h), hjfree, ?_, ?_, rfl⟩
  · simp [hs₂, hs₁, Function.update_idem]
  · simp [hs₂, hs₁, Function.update_idem]

/-- **A pinned release.** The holder of buffer `j` has `log_write` pin it, and releases it: the
buffer keeps its block and contents, pinned, unlocked, with one reference less. -/
theorem reaches_pin (hr : (binit d).Reaches s) {t : T} {j : Fin nbuf} (ht : s.th t = .holding j) :
    ∃ s', (binit d).Reaches s' ∧
      s'.buf = Function.update s.buf j
        { s.buf j with dirty := true, lock := none, refcnt := (s.buf j).refcnt - 1 } ∧
      s'.th = Function.update s.th t .idle ∧ s'.disk = s.disk := by
  set s₃ := s.setBuf j { s.buf j with dirty := true } with hs₃
  have h3 : s.step (.pin t) = some s₃ := by simp [step, ht, hs₃]
  have hth3 : s₃.th = Function.update s.th t (.holding j) := by
    rw [hs₃, setBuf_th, ← ht, Function.update_eq_self]
  set s₄ := s₃.releasesleep t j with hs₄
  have h4 : s₃.step (.release t) = some s₄ := by simp [step, hs₃, ht, hs₄]
  set s₅ := s₄.brelse t j with hs₅
  have h5 : s₄.step (.brelse t) = some s₅ := by simp [step, hs₄, releasesleep, hs₅]
  -- the release is of a pinned buffer, as the rule asks
  have hsync : s₄.Synced j := .inl (by simp [hs₄, hs₃, releasesleep])
  refine ⟨s₅, .step _ (.step _ (.step _ hr h3 (releases_of_th hth3 fun _ _ h => by cases h)) h4
    (releases_of_th rfl fun i hi hp => ?_)) h5 (releases_of_th (brelse_th t j) fun _ _ h => by cases h),
    ?_, ?_, ?_⟩
  · cases hp
    exact hsync
  · simp [hs₅, hs₄, hs₃, releasesleep, Function.update_idem]
  · simp [hs₅, hs₄, hs₃, releasesleep, Function.update_idem]
  · simp [hs₅, hs₄, hs₃, releasesleep]

/-! ## Pinning every buffer -/

/-- The runs that pinned `k` blocks of device `dev`, from `x₀` on, one use after the other:
every thread is idle, `k` buffers are pinned, each with one of those blocks, and the others are
as `binit` left them. -/
structure Pinned (d : Nat × Nat → Block) (dev x₀ k : Nat) (s : BCache T) : Prop where
  reaches : (binit d).Reaches s
  idle : ∀ u, s.th u = .idle
  count : Count.count (fun i => (s.buf i).dirty) = k
  pinned : ∀ i, (s.buf i).dirty = true →
    (s.buf i).dev = dev ∧ x₀ ≤ (s.buf i).blockno ∧ (s.buf i).blockno < x₀ + k
  clean : ∀ i, (s.buf i).dirty = false → s.buf i = Buf.zero

theorem pinned_binit (dev x₀ : Nat) : Pinned d dev x₀ 0 (binit d : BCache T) where
  reaches := .init
  idle _ := rfl
  count := Count.count_eq_zero.mpr fun _ => rfl
  pinned _ h := by simp [binit, Buf.zero] at h
  clean _ _ := rfl

/-- Pinning a clean buffer with the next block keeps `Pinned`, with one block more: the
threads stay idle, the count of dirty buffers grows by one, and the other buffers are unchanged. -/
theorem Pinned.of_update {dev x₀ k : Nat} (hp : Pinned d dev x₀ k s) {s' : BCache T} {j : Fin nbuf}
    (hr : (binit d).Reaches s') (hth : s'.th = s.th) (hjd : (s.buf j).dirty = false)
    (hbuf : s'.buf = Function.update s.buf j ⟨true, true, dev, x₀ + k, none, 0, s.disk (dev, x₀ + k)⟩) :
    Pinned d dev x₀ (k + 1) s' := by
  set b : Buf T := ⟨true, true, dev, x₀ + k, none, 0, s.disk (dev, x₀ + k)⟩
  have hbj : ∀ i', i' ≠ j → s'.buf i' = s.buf i' := fun i' h => by rw [hbuf, Function.update_of_ne h]
  refine ⟨hr, fun u => by rw [hth]; exact hp.idle u, ?_, fun i' hi' => ?_, fun i' hi' => ?_⟩
  · -- `j` was not pinned before
    have hcount := Count.count_update (fun i => (s.buf i).dirty) j true
    have hfun : (fun i => (s'.buf i).dirty) = Function.update (fun i => (s.buf i).dirty) j true := by
      rw [hbuf]
      exact funext fun i' => Function.apply_update (fun (_ : Fin nbuf) (b : Buf T) => b.dirty) s.buf j b i'
    rw [hfun]
    simp only [hjd, Bool.toNat_false, Bool.toNat_true, hp.count] at hcount
    omega
  · rcases eq_or_ne i' j with rfl | hne
    · rw [hbuf, Function.update_self]
      exact ⟨rfl, by simp only [b]; omega, by simp only [b]; omega⟩
    · rw [hbj i' hne] at hi' ⊢
      have := hp.pinned i' hi'
      exact ⟨this.1, this.2.1, by omega⟩
  · rcases eq_or_ne i' j with rfl | hne
    · rw [hbuf, Function.update_self] at hi'
      cases hi'
    · rw [hbj i' hne] at hi' ⊢
      exact hp.clean i' hi'

/-- A thread's use of the next block pins one more buffer, while one is left. -/
theorem Pinned.succ [Nonempty T] {dev x₀ k : Nat} (hp : Pinned d dev x₀ k s) (hdev : dev ≠ 0)
    (hk : k < nbuf) (hx : x₀ + k < fssize) : ∃ s' : BCache T, Pinned d dev x₀ (k + 1) s' := by
  obtain ⟨t⟩ := ‹Nonempty T›
  -- a buffer that is not pinned is as `binit` left it, so free
  obtain ⟨i, hi⟩ := Count.exists_false_of_count_lt (g := fun i => (s.buf i).dirty)
    (by rw [hp.count, Fintype.card_fin]; exact hk)
  have hfree : (s.buf i).free = true := by simp [hp.clean i hi, Buf.free, Buf.zero]
  -- no buffer has the next block: a pinned one has an earlier block, another has device 0
  have hnew : ∀ j, (s.buf j).key ≠ (dev, x₀ + k) := by
    intro j hj
    simp only [Buf.key_eq, Prod.mk.injEq] at hj
    cases hd : (s.buf j).dirty with
    | true =>
      have := hp.pinned j hd
      omega
    | false =>
      rw [hp.clean j hd] at hj
      exact hdev hj.1.symm
  obtain ⟨j, s₂, hr₂, hjfree, hbuf₂, hth₂, -⟩ := reaches_read hp.reaches (hp.idle t) hx hnew hfree
  obtain ⟨s₅, hr₅, hbuf₅, hth₅, -⟩ := reaches_pin hr₂ (by rw [hth₂, Function.update_self])
  have hjd : (s.buf j).dirty = false := by simp [Buf.free] at hjfree; exact hjfree.2
  have hbuf : s₅.buf = Function.update s.buf j ⟨true, true, dev, x₀ + k, none, 0, s.disk (dev, x₀ + k)⟩ := by
    rw [hbuf₅, hbuf₂, Function.update_idem]
    simp
  have hth : s₅.th = s.th := by
    rw [hth₅, hth₂, Function.update_idem, ← hp.idle t, Function.update_eq_self]
  exact ⟨s₅, hp.of_update hr₅ hth hjd hbuf⟩

/-- **`NBUF` uses of new blocks pin every buffer.** -/
theorem pinned_all [Nonempty T] (d : Nat × Nat → Block) (dev x₀ : Nat) (hdev : dev ≠ 0)
    (hx : x₀ + nbuf ≤ fssize) : ∃ s : BCache T, Pinned d dev x₀ nbuf s := by
  suffices ∀ k, k ≤ nbuf → ∃ s : BCache T, Pinned d dev x₀ k s from this nbuf le_rfl
  intro k hk
  induction k with
  | zero => exact ⟨_, pinned_binit dev x₀⟩
  | succ k ih =>
    obtain ⟨s, hs⟩ := ih (by omega)
    exact hs.succ hdev (by omega) (by omega)

theorem Pinned.dirty {dev x₀ : Nat} (hp : Pinned d dev x₀ nbuf s) (i : Fin nbuf) :
    (s.buf i).dirty = true :=
  Count.count_eq_card.mp (by rw [hp.count, Fintype.card_fin]) i

/-- An idle thread's `bread` of a block another thread holds: `bget` finds the holder's buffer,
and the thread waits in `acquiresleep` for its sleep lock. -/
theorem reaches_wait (hr : (binit d).Reaches s) {t u : T} {j : Fin nbuf} (ht : s.th t = .holding j)
    (hu : s.th u = .idle) :
    ∃ s', (binit d).Reaches s' ∧ s'.th t = .holding j ∧ s'.th u = .locking j ∧
      s'.step (.acquire u) = none := by
  have hI := reaches_inv hr
  have hlive : (s.buf j).Live := hI.live_of_buf (t := t) (by rw [ht]; rfl)
  have hne : t ≠ u := fun h => by rw [h, hu] at ht; cases ht
  -- `bget`'s first loop finds the buffer, and counts the new reference
  set s₁ := (s.setBuf j { s.buf j with refcnt := (s.buf j).refcnt + 1 }).setTh u (.locking j) with hs₁
  have hc : s.cached ((s.buf j).dev, (s.buf j).blockno) = some j := hI.cached_of_live hlive rfl
  have h1 : s.step (.bget u (s.buf j).dev (s.buf j).blockno) = some s₁ := by
    simp only [step, if_pos hu, hI.bget_eq, hc]
    rfl
  have hlock : (s.buf j).lock = some t := (hI.lock j t).mpr ht
  refine ⟨s₁, .step _ hr h1 (releases_of_th rfl fun _ _ h => by cases h), ?_, ?_, ?_⟩
  · simp [hs₁, setTh, setBuf, Function.update_of_ne hne, ht]
  · simp [hs₁, setTh]
  · -- the sleep lock is `t`'s, so `acquiresleep` sleeps
    simp [step, hs₁, setTh, setBuf, hlock]

/-- Thread `t` holds a buffer of block 7, read from the disk, and the other threads are idle. -/
theorem reaches_holding (t : T) :
    ∃ (s : BCache T) (j : Fin nbuf), (binit fun _ => Block.zero).Reaches s ∧ s.th t = .holding j ∧
      ∀ u, u ≠ t → s.th u = .idle := by
  have hfree : ((binit fun _ => Block.zero : BCache T).buf ⟨0, by decide⟩).free = true := rfl
  obtain ⟨j, s, hr, -, -, hth, -⟩ := reaches_read (t := t) .init rfl (show 7 < fssize by decide)
    (fun i => show ((binit fun _ => Block.zero : BCache T).buf i).key ≠ (1, 7) by simp [binit, Buf.zero])
    hfree
  refine ⟨s, j, hr, by rw [hth, Function.update_self], fun u hu => ?_⟩
  rw [hth, Function.update_of_ne hu]
  rfl

/-! ## What the runs keep -/

/-- **The buffer cache refines the block store.** In every state that the threads' `bread`s,
writes, `bwrite`s, `log_write` pins and `brelse`s reach from `binit`, along steps that keep the
rule of `bio.c`'s header, what a `bread` of each block returns, the disk, and the holder of each
block are a state the store reaches from the disk. -/
theorem bcache_refines (h : (binit d).Reaches s) :
    Reach.Reachable BlockStore.step (fun _ _ => True) ⟨d, d, fun _ => none⟩ s.abs := by
  have := Reach.Reachable.simulate (f := abs) (binit_inv d) (fun _ _ _ hI he hok => hI.sim he hok) h
  rw [binit_abs] at this
  exact this.2

theorem bcache_refines_holding :
    ∃ (s : BCache Unit) (j : Fin nbuf), (binit fun _ => Block.zero).Reaches s ∧ s.th () = .holding j ∧
      Reach.Reachable BlockStore.step (fun _ _ => True) ⟨fun _ => Block.zero, fun _ => Block.zero,
        fun _ => none⟩ s.abs := by
  obtain ⟨s, j, hr, hj, -⟩ := reaches_holding ()
  exact ⟨s, j, hr, hj, bcache_refines hr⟩

/-- **No block is in two threads' hands.** Two threads that hold the sleep locks of buffers of
one block are one thread, at one buffer. -/
theorem bcache_exclusive (h : (binit d).Reaches s) {t u : T} {i j : Fin nbuf}
    (ht : s.th t = .holding i) (hu : s.th u = .holding j) (hk : (s.buf i).key = (s.buf j).key) :
    t = u ∧ i = j := by
  have hI := reaches_inv h
  have hij : i = j :=
    hI.unique (hI.live_of_buf (t := t) (by rw [ht]; rfl)) (hI.live_of_buf (t := u) (by rw [hu]; rfl)) hk
  subst hij
  have hlock := (hI.lock i t).mpr ht
  rw [(hI.lock i u).mpr hu] at hlock
  exact ⟨(Option.some_injective _ hlock).symm, rfl⟩

/-- Two threads and block 7: thread 0 holds its buffer, and thread 1, whose `bread` of block 7
found the same buffer, waits for the sleep lock; thread 0 is the only holder. -/
theorem bcache_exclusive_holding :
    ∃ (s : BCache (Fin 2)) (j : Fin nbuf), (binit fun _ => Block.zero).Reaches s ∧
      s.th 0 = .holding j ∧ s.th 1 = .locking j ∧ s.step (.acquire 1) = none ∧
      (0 : Fin 2) = 0 ∧ j = j := by
  obtain ⟨s, j, hr, h0, hidle⟩ := reaches_holding (0 : Fin 2)
  obtain ⟨s', hr', h0', h1', hwait⟩ := reaches_wait hr h0 (hidle 1 (by decide))
  exact ⟨s', j, hr', h0', h1', hwait, bcache_exclusive hr' h0' h0' rfl⟩

/-- **The holder works on the store's block.** A thread that holds a buffer's sleep lock is the
store's holder of its block, and the buffer has what a `bread` of the block returns. -/
theorem bcache_holder (h : (binit d).Reaches s) {t : T} {i : Fin nbuf} (ht : s.th t = .holding i) :
    s.abs.holder (s.buf i).key = some t ∧ s.abs.data (s.buf i).key = (s.buf i).data := by
  have hI := reaches_inv h
  have hlive : (s.buf i).Live := hI.live_of_buf (t := t) (by rw [ht]; rfl)
  refine ⟨by rw [hI.holder_of_live hlive rfl, (hI.lock i t).mpr ht], ?_⟩
  show s.view _ = _
  rw [hI.view_of_live hlive rfl, if_pos (hI.valid t i (.inl ht))]

theorem bcache_holder_holding :
    ∃ (s : BCache Unit) (j : Fin nbuf), (binit fun _ => Block.zero).Reaches s ∧ s.th () = .holding j ∧
      s.abs.holder (s.buf j).key = some () ∧ s.abs.data (s.buf j).key = (s.buf j).data := by
  obtain ⟨s, j, hr, hj, -⟩ := reaches_holding ()
  exact ⟨s, j, hr, hj, bcache_holder hr hj⟩

/-- **When `bget` panics.** `bget` panics with `bget: no buffers` exactly where the cache has no
buffer of the block and every buffer is referenced by a thread or pinned by the log. -/
theorem bget_no_buffers (h : (binit d).Reaches s) (dev blockno : Nat) :
    s.bget dev blockno = .error "bget: no buffers" ↔
      (∀ i, (s.buf i).key ≠ (dev, blockno)) ∧
        ∀ i, (∃ t, (s.th t).buf? = some i) ∨ (s.buf i).dirty = true := by
  have hI := reaches_inv h
  rw [hI.bget_eq]
  constructor
  · intro hb
    cases hc : s.cached (dev, blockno) with
    | some j => rw [hc] at hb; cases hb
    | none =>
      rw [hc] at hb
      refine ⟨hI.key_ne_of_cached_none hc, fun i => (hI.free_eq_false_iff i).mp ?_⟩
      -- no buffer on the list passed the test of the second loop, and every buffer is on it
      cases hi : (s.buf i).free with
      | false => rfl
      | true =>
        obtain ⟨j, hj⟩ := hI.find_free hi
        rw [hj] at hb
        cases hb
  · rintro ⟨hkey, hbusy⟩
    rw [cached_none_of_key_ne hkey]
    have hnone : s.mru.reverse.find? (s.onBuf Buf.free) = none := by
      refine List.find?_eq_none.mpr fun n _ => ?_
      cases n with
      | none => simp [onBuf]
      | some k => simpa [onBuf] using (hI.free_eq_false_iff k).mpr (hbusy k)
    rw [hnone]
    rfl

/-- Thirty uses of blocks 100 to 129 that the log pins leave no buffer for block 3. -/
theorem bget_no_buffers_pinned :
    ∃ s : BCache Unit, (binit fun _ => Block.zero).Reaches s ∧ (∀ u, s.th u = .idle) ∧
      s.bget 1 3 = .error "bget: no buffers" := by
  obtain ⟨s, hs⟩ := pinned_all (T := Unit) (fun _ => Block.zero) 1 100 one_ne_zero
    (by decide)
  refine ⟨s, hs.reaches, hs.idle, (bget_no_buffers hs.reaches 1 3).mpr ⟨fun i hk => ?_, fun i => .inr (hs.dirty i)⟩⟩
  have := (hs.pinned i (hs.dirty i)).2.1
  simp only [Buf.key_eq, Prod.mk.injEq] at hk
  omega

end BCache

end Xv6.Bio
