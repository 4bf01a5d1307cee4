import Xv6.Bio.Cache
import Xv6.Lib.Count

/-!
# The buffer cache refines a locked block store

`Inv` is what every step of the cache keeps, from `binit` on:
* the pointers hold a circular list of all `NBUF` buffers (`links`), so both loops of `bget`
  run over every buffer and stop;
* `refcnt` counts the threads that reference the buffer, and the sleep lock is held exactly
  by the thread in the `holding` phase;
* a buffer in use (`Buf.Live`: referenced, or holding a block) is the one `bget`'s first loop
  finds for its block (`first`), so no block is in two buffers in use;
* a valid clean buffer that no one holds has the disk's contents (`coherent`).

`coherent` is where the file system's rule comes in: `brelse` of a changed buffer that is
neither written nor pinned would break it, and `bget` could then recycle the buffer and lose
the change. Each step keeps `Inv` and is a step of `BlockStore` or leaves the store as it is
(`Inv.sim`): `bget`, a pin and `brelse` are not seen, and taking the sleep lock, changing the
data, `bwrite` and `releasesleep` are the store's `lock`, `put`, `flush` and `unlock`. The step
lemmas share one frame (`Inv.frame`): a step changes one buffer and one thread, and what is
left to show is the invariant at that buffer. `Xv6.Bio.Safety` draws the consequences for the
runs from `binit`.
-/

set_option autoImplicit false

namespace Xv6.Bio

open Xv6.Fs

/-- `bget` has handed the buffer out: it is referenced, or holds a block read from the disk. -/
def Buf.Live {T : Type} (b : Buf T) : Prop := 0 < b.refcnt ∨ b.valid = true

namespace BCache

variable {T : Type} [Fintype T] {s s' : BCache T}

/-- The number of threads that reference buffer `i`. -/
def refs (s : BCache T) (i : Fin nbuf) : Nat := Count.count fun t => decide ((s.th t).buf? = some i)

@[simp] theorem refs_setBuf (i : Fin nbuf) (b : Buf T) : (s.setBuf i b).refs = s.refs := rfl

/-- What every step keeps. -/
structure Inv (s : BCache T) : Prop where
  links : DList.Links none s.links s.mru
  length : s.mru.length = nbuf
  mem : ∀ i, some i ∈ s.mru
  refcnt : ∀ i, (s.buf i).refcnt = s.refs i
  lock : ∀ i t, (s.buf i).lock = some t ↔ s.th t = .holding i
  valid : ∀ t i, s.th t = .holding i ∨ s.th t = .releasing i → (s.buf i).valid = true
  dirty : ∀ i, (s.buf i).dirty = true → (s.buf i).valid = true
  first : ∀ i, (s.buf i).Live → s.cached (s.buf i).key = some i
  coherent : ∀ i, (s.buf i).valid = true → (s.buf i).dirty = false → (s.buf i).lock = none →
    (s.buf i).data = s.disk (s.buf i).key

/-! ## Consequences of the invariant -/

omit [Fintype T] in
/-- Where no buffer in use holds a block, a `bread` of it returns the disk's contents. -/
theorem view_of_not_live {x : Nat × Nat} (h : ∀ j, (s.buf j).key = x → ¬(s.buf j).Live) :
    s.view x = s.disk x := by
  unfold view
  cases hc : s.cached x with
  | none => rfl
  | some j =>
    have hv : (s.buf j).valid = false := by
      cases hv : (s.buf j).valid
      · rfl
      · exact absurd (.inr hv) (h j (cached_isFor hc).1)
    simp [hv]

namespace Inv

variable (hI : s.Inv)
include hI

/-- Two buffers in use hold different blocks. -/
theorem unique {i j : Fin nbuf} (hi : (s.buf i).Live) (hj : (s.buf j).Live)
    (hk : (s.buf i).key = (s.buf j).key) : i = j := by
  have h := hI.first i hi
  rw [hk, hI.first j hj] at h
  exact (Option.some_injective _ h).symm

theorem refcnt_pos {t : T} {i : Fin nbuf} (ht : (s.th t).buf? = some i) : 0 < (s.buf i).refcnt := by
  rw [hI.refcnt]
  exact Count.count_pos.mpr ⟨t, by simp [ht]⟩

theorem live_of_buf {t : T} {i : Fin nbuf} (ht : (s.th t).buf? = some i) : (s.buf i).Live :=
  .inl (hI.refcnt_pos ht)

/-- No thread references a buffer with no references. -/
theorem buf_ne_of_refcnt {i : Fin nbuf} (h : (s.buf i).refcnt = 0) (t : T) :
    (s.th t).buf? ≠ some i := fun ht => by
  have := hI.refcnt_pos ht
  omega

theorem lock_none {i : Fin nbuf} (h : (s.buf i).refcnt = 0) : (s.buf i).lock = none := by
  cases hl : (s.buf i).lock with
  | none => rfl
  | some t => exact absurd (by rw [(hI.lock i t).mp hl]; rfl) (hI.buf_ne_of_refcnt h t)

/-- A thread in `bget`'s hands has no block in a buffer of the other block. -/
theorem cached_of_live {i : Fin nbuf} {x : Nat × Nat} (hl : (s.buf i).Live) (hx : (s.buf i).key = x) :
    s.cached x = some i := hx ▸ hI.first i hl

/-- A `bread` of a block in a buffer in use returns the buffer's data, once it is valid. -/
theorem view_of_live {i : Fin nbuf} {x : Nat × Nat} (hl : (s.buf i).Live) (hx : (s.buf i).key = x) :
    s.view x = if (s.buf i).valid = true then (s.buf i).data else s.disk x := by
  unfold view
  rw [hI.cached_of_live hl hx]

theorem holder_of_live {i : Fin nbuf} {x : Nat × Nat} (hl : (s.buf i).Live) (hx : (s.buf i).key = x) :
    s.abs.holder x = (s.buf i).lock := by
  show (s.cached x).bind _ = _
  rw [hI.cached_of_live hl hx]
  rfl

theorem holder_of_not_live {x : Nat × Nat} (h : ∀ j, (s.buf j).key = x → ¬(s.buf j).Live) :
    s.abs.holder x = none := by
  show (s.cached x).bind _ = none
  cases hc : s.cached x with
  | none => rfl
  | some j =>
    have hr : (s.buf j).refcnt = 0 := by
      by_contra hr
      exact h j (cached_isFor hc).1 (.inl (Nat.pos_of_ne_zero hr))
    exact hI.lock_none hr

/-- `bget`'s two loops are the two searches of the list. -/
theorem bget_eq (dev blockno : Nat) :
    s.bget dev blockno =
      match s.cached (dev, blockno) with
      | some i => .ok (i, s.setBuf i { s.buf i with refcnt := (s.buf i).refcnt + 1 })
      | none =>
        match (s.mru.reverse.find? (s.onBuf Buf.free)).join with
        | some i =>
          .ok (i, s.setBuf i
            { s.buf i with dev, blockno, valid := false, dirty := false, refcnt := 1 })
        | none => .error "bget: no buffers" := by
  have hfuel : s.mru.length < nbuf + 1 := by rw [hI.length]; omega
  rw [bget, hI.links.scan_next _ hfuel, hI.links.scan_prev _ hfuel]
  unfold cached
  dsimp only
  rcases s.mru.find? (s.onBuf fun b => b.isFor dev blockno) with _ | _ | i <;>
    rcases s.mru.reverse.find? (s.onBuf Buf.free) with _ | _ | j <;> rfl

/-- The buffer in use for a block is the one the cache finds for it. -/
theorem cached_eq_iff {i : Fin nbuf} (hl : (s.buf i).Live) (x : Nat × Nat) :
    s.cached x = some i ↔ (s.buf i).key = x :=
  ⟨fun h => (cached_isFor h).1, fun h => h ▸ hI.first i hl⟩

/-- A block not cached is in no buffer. -/
theorem key_ne_of_cached_none {x : Nat × Nat} (hc : s.cached x = none) (j : Fin nbuf) :
    (s.buf j).key ≠ x := by
  intro hk
  have hnone : s.mru.find? (s.onBuf fun b => b.isFor x.1 x.2) = none := by
    unfold cached at hc
    cases hf : s.mru.find? (s.onBuf fun b => b.isFor x.1 x.2) with
    | none => rfl
    | some n =>
      rw [hf] at hc
      cases n with
      | none => exact absurd (List.find?_some hf) (by simp [onBuf])
      | some k => cases hc
  exact List.find?_eq_none.mp hnone (some j) (hI.mem j) (by simpa [onBuf, isFor_iff] using hk)

/-- `bget`'s second loop finds a buffer where one is free. -/
theorem find_free {i : Fin nbuf} (hi : (s.buf i).free = true) :
    ∃ j, (s.mru.reverse.find? (s.onBuf Buf.free)).join = some j := by
  have hsome : (s.mru.reverse.find? (s.onBuf Buf.free)).isSome :=
    List.find?_isSome.mpr ⟨some i, List.mem_reverse.mpr (hI.mem i), by simpa [onBuf] using hi⟩
  obtain ⟨n, hn⟩ := Option.isSome_iff_exists.mp hsome
  cases n with
  | none => exact absurd (List.find?_some hn) (by simp [onBuf])
  | some k => exact ⟨k, by rw [hn]; rfl⟩

/-- A buffer is not free when a thread references it or the log has pinned it. -/
theorem free_eq_false_iff (i : Fin nbuf) :
    (s.buf i).free = false ↔ (∃ t, (s.th t).buf? = some i) ∨ (s.buf i).dirty = true := by
  have href : 0 < (s.buf i).refcnt ↔ ∃ t, (s.th t).buf? = some i := by
    rw [hI.refcnt]; simp [refs, Count.count_pos]
  rw [← href, Nat.pos_iff_ne_zero, ← imp_iff_not_or]
  simp [Buf.free]

end Inv

omit [Fintype T] in
/-- A block no buffer has is not cached. -/
theorem cached_none_of_key_ne {x : Nat × Nat} (h : ∀ j, (s.buf j).key ≠ x) : s.cached x = none := by
  cases hc : s.cached x with
  | none => rfl
  | some j => exact absurd (cached_isFor hc).1 (h j)

/-! ## Each step keeps the invariant and is a step of the store -/

variable [DecidableEq T]

/-- A thread that takes a reference. -/
theorem refs_enter {t : T} (ht : s.th t = .idle) (p : Phase) (i : Fin nbuf) :
    (s.setTh t p).refs i = s.refs i + (decide (p.buf? = some i)).toNat := by
  have h := Count.count_update (fun u => decide ((s.th u).buf? = some i)) t (decide (p.buf? = some i))
  have hfun : (fun u => decide (((s.setTh t p).th u).buf? = some i)) =
      Function.update (fun u => decide ((s.th u).buf? = some i)) t (decide (p.buf? = some i)) := by
    funext u
    by_cases hu : u = t
    · subst hu; simp
    · simp [hu]
  unfold refs
  rw [hfun]
  simpa [ht, Phase.buf?] using h

/-- A thread that keeps its reference. -/
theorem refs_same {t : T} {p : Phase} (hp : p.buf? = (s.th t).buf?) : (s.setTh t p).refs = s.refs := by
  funext i
  unfold refs
  congr 1
  funext u
  by_cases hu : u = t
  · subst hu; simp [hp]
  · simp [hu]

/-- A thread that drops its reference. -/
theorem refs_leave {t : T} {i : Fin nbuf} (ht : s.th t = .releasing i) (j : Fin nbuf) :
    (s.setTh t .idle).refs j + (decide (i = j)).toNat = s.refs j := by
  have h := Count.count_update (fun u => decide ((s.th u).buf? = some j)) t false
  have hfun : (fun u => decide (((s.setTh t .idle).th u).buf? = some j)) =
      Function.update (fun u => decide ((s.th u).buf? = some j)) t false := by
    funext u
    by_cases hu : u = t
    · subst hu; simp [Phase.buf?]
    · simp [hu]
  unfold refs
  rw [hfun]
  simpa [ht, Phase.buf?] using h

theorem refs_update_of_ne {t : T} {p : Phase} {j : Fin nbuf} (hth : s'.th = Function.update s.th t p)
    (hold : (s.th t).buf? ≠ some j) (hnew : p.buf? ≠ some j) : s'.refs j = s.refs j := by
  unfold refs
  congr 1
  funext u
  rw [hth]
  by_cases hu : u = t
  · subst hu; simp [hold, hnew]
  · simp [hu]

omit [DecidableEq T] [Fintype T] in
/-- `cached` reads the list and the blocks of the buffers only. -/
theorem cached_of_update {i : Fin nbuf} {b : Buf T} (hbuf : s'.buf = Function.update s.buf i b)
    (hkey : b.key = (s.buf i).key) (hlinks : s'.links = s.links) : s'.cached = s.cached := by
  have : s' = { s.setBuf i b with th := s'.th, disk := s'.disk } := by
    cases s'
    simp only at hbuf hlinks
    subst hbuf hlinks
    rfl
  rw [this, ← cached_setBuf hkey]
  rfl

omit [DecidableEq T] in
theorem list_of_links_eq (hI : s.Inv) (h : s'.links = s.links) :
    DList.Links none s'.links s'.mru ∧ s'.mru.length = nbuf ∧ ∀ j, some j ∈ s'.mru := by
  have hm : s'.mru = s.mru := by unfold mru; rw [h]
  rw [hm, h]
  exact ⟨hI.links, hI.length, hI.mem⟩

/-- **The frame of a step.** A step that changes buffer `i` to `b` and thread `t` to phase
`p`, where `t` references no other buffer before or after, keeps the invariant of every other
buffer and thread, as long as the other buffers in use are still found and the disk keeps their
blocks. What is left is the invariant at `b`. -/
theorem Inv.frame (hI : s.Inv) {t : T} {i : Fin nbuf} {b : Buf T} {p : Phase}
    (hbuf : s'.buf = Function.update s.buf i b) (hth : s'.th = Function.update s.th t p)
    (hold : ∀ j, (s.th t).buf? = some j → j = i) (hnew : ∀ j, p.buf? = some j → j = i)
    (hlist : DList.Links none s'.links s'.mru ∧ s'.mru.length = nbuf ∧ ∀ j, some j ∈ s'.mru)
    (hcached : ∀ j, j ≠ i → (s.buf j).Live → s'.cached (s.buf j).key = s.cached (s.buf j).key)
    (hdisk : ∀ j, j ≠ i → (s.buf j).valid = true → s'.disk (s.buf j).key = s.disk (s.buf j).key)
    (hrefcnt : b.refcnt = s'.refs i)
    (hlock : ∀ u, b.lock = some u ↔ s'.th u = .holding i)
    (hvalid : ∀ u, s'.th u = .holding i ∨ s'.th u = .releasing i → b.valid = true)
    (hdirty : b.dirty = true → b.valid = true)
    (hfirst : b.Live → s'.cached b.key = some i)
    (hcoh : b.valid = true → b.dirty = false → b.lock = none → b.data = s'.disk b.key) :
    s'.Inv := by
  have hbi : s'.buf i = b := by rw [hbuf, Function.update_self]
  have hbj : ∀ j, j ≠ i → s'.buf j = s.buf j := fun j hj => by rw [hbuf, Function.update_of_ne hj]
  have htt : s'.th t = p := by rw [hth, Function.update_self]
  have htu : ∀ u, u ≠ t → s'.th u = s.th u := fun u hu => by rw [hth, Function.update_of_ne hu]
  refine ⟨hlist.1, hlist.2.1, hlist.2.2, fun j => ?_, fun j u => ?_, fun u j hu => ?_, fun j => ?_,
    fun j => ?_, fun j => ?_⟩
  -- each field at `i` is what the step shows, and elsewhere what `s` had
  · rcases eq_or_ne j i with rfl | hj
    · rw [hbi]; exact hrefcnt
    · rw [hbj j hj, hI.refcnt j]
      exact (refs_update_of_ne hth (fun h => hj (hold j h)) (fun h => hj (hnew j h))).symm
  · rcases eq_or_ne j i with rfl | hj
    · rw [hbi]; exact hlock u
    · rw [hbj j hj]
      rcases eq_or_ne u t with rfl | hu
      · rw [htt]
        refine ⟨fun h => absurd (hold j ?_) hj, fun h => absurd (hnew j ?_) hj⟩
        · rw [(hI.lock j u).mp h]; rfl
        · rw [h]; rfl
      · rw [htu u hu]; exact hI.lock j u
  · rcases eq_or_ne j i with rfl | hj
    · rw [hbi]; exact hvalid u hu
    · rw [hbj j hj]
      rcases eq_or_ne u t with rfl | hut
      · rw [htt] at hu
        exact absurd (hnew j (by rcases hu with h | h <;> rw [h] <;> rfl)) hj
      · rw [htu u hut] at hu; exact hI.valid u j hu
  · rcases eq_or_ne j i with rfl | hj
    · rw [hbi]; exact hdirty
    · rw [hbj j hj]; exact hI.dirty j
  · rcases eq_or_ne j i with rfl | hj
    · rw [hbi]; exact hfirst
    · rw [hbj j hj]
      intro hl
      rw [hcached j hj hl]
      exact hI.first j hl
  · rcases eq_or_ne j i with rfl | hj
    · rw [hbi]; exact hcoh
    · rw [hbj j hj]
      intro hv hd hl
      rw [hdisk j hj hv]
      exact hI.coherent j hv hd hl

/-- The sleep lock of a buffer that `t` neither held nor holds keeps its holder. -/
theorem Inv.lock_keep (hI : s.Inv) {t : T} {i : Fin nbuf} {p : Phase}
    (hth : s'.th = Function.update s.th t p) (hold : s.th t ≠ .holding i) (hnew : p ≠ .holding i) :
    ∀ u, (s.buf i).lock = some u ↔ s'.th u = .holding i := by
  intro u
  rw [hth]
  rcases eq_or_ne u t with rfl | hu
  · rw [Function.update_self, hI.lock]
    exact ⟨fun h => absurd h hold, fun h => absurd h hnew⟩
  · rw [Function.update_of_ne hu]
    exact hI.lock i u

/-- A buffer that `t` does not hold or release is valid where it was. -/
theorem Inv.valid_keep (hI : s.Inv) {t : T} {i : Fin nbuf} {p : Phase}
    (hth : s'.th = Function.update s.th t p) (hnew : p ≠ .holding i ∧ p ≠ .releasing i) :
    ∀ u, s'.th u = .holding i ∨ s'.th u = .releasing i → (s.buf i).valid = true := by
  intro u hu
  rw [hth] at hu
  rcases eq_or_ne u t with rfl | hut
  · rw [Function.update_self] at hu
    exact absurd hu (by rintro (h | h) <;> simp_all)
  · rw [Function.update_of_ne hut] at hu
    exact hI.valid u i hu

/-! ### What the store shows -/

omit [DecidableEq T] [Fintype T] in
theorem view_of_update {i : Fin nbuf} {b : Buf T} (hbuf : s'.buf = Function.update s.buf i b)
    (hc : s'.cached = s.cached) (hd : s'.disk = s.disk) (x : Nat × Nat) :
    s'.view x = if s.cached x = some i then (if b.valid = true then b.data else s.disk x) else s.view x := by
  unfold view
  rw [hc, hd, hbuf]
  cases s.cached x with
  | none => rfl
  | some j =>
    by_cases hj : j = i
    · subst hj; simp
    · simp [hj]

omit [DecidableEq T] [Fintype T] in
theorem holder_of_update {i : Fin nbuf} {b : Buf T} (hbuf : s'.buf = Function.update s.buf i b)
    (hc : s'.cached = s.cached) (x : Nat × Nat) :
    s'.abs.holder x = if s.cached x = some i then b.lock else s.abs.holder x := by
  show (s'.cached x).bind _ = if s.cached x = some i then b.lock else (s.cached x).bind _
  rw [hc, hbuf]
  cases s.cached x with
  | none => rfl
  | some j =>
    by_cases hj : j = i
    · subst hj; simp
    · simp [hj]

omit [DecidableEq T] [Fintype T] in
theorem abs_eq_mk {v d : Nat × Nat → Block} {h : Nat × Nat → Option T} (hv : s'.view = v)
    (hd : s'.disk = d) (hh : s'.abs.holder = h) : s'.abs = ⟨v, d, h⟩ := by
  show (⟨s'.view, s'.disk, s'.abs.holder⟩ : BlockStore T) = ⟨v, d, h⟩
  rw [hv, hd, hh]

omit [DecidableEq T] [Fintype T] in
/-- A step that changes nothing a `bread` returns changes nothing of the store. -/
theorem abs_of_update {i : Fin nbuf} {b : Buf T} (hbuf : s'.buf = Function.update s.buf i b)
    (hc : s'.cached = s.cached) (hd : s'.disk = s.disk) (hv : b.valid = (s.buf i).valid)
    (hdata : b.data = (s.buf i).data) (hl : b.lock = (s.buf i).lock) : s'.abs = s.abs := by
  have hview : s'.view = s.view := by
    funext x
    rw [view_of_update hbuf hc hd, hv, hdata]
    by_cases hx : s.cached x = some i
    · rw [if_pos hx]; unfold view; rw [hx]
    · rw [if_neg hx]
  have hholder : s'.abs.holder = s.abs.holder := by
    funext x
    rw [holder_of_update hbuf hc, hl]
    by_cases hx : s.cached x = some i
    · rw [if_pos hx]
      show _ = (s.cached x).bind _
      rw [hx]; rfl
    · rw [if_neg hx]
  exact abs_eq_mk hview hd hholder

omit [DecidableEq T] in
/-- What a step changes at the block of a buffer in use, it changes at that block only. -/
theorem Inv.ite_cached {α : Type*} (hI : s.Inv) {i : Fin nbuf} (hlive : (s.buf i).Live) (a : α)
    (f : Nat × Nat → α) (y : Nat × Nat) :
    (if s.cached y = some i then a else f y) = Function.update f (s.buf i).key a y := by
  by_cases hy : (s.buf i).key = y
  · rw [if_pos ((hI.cached_eq_iff hlive y).mpr hy), ← hy, Function.update_self]
  · rw [if_neg fun h => hy ((hI.cached_eq_iff hlive y).mp h), Function.update_of_ne (Ne.symm hy)]

omit [DecidableEq T] in
theorem Inv.holder_update (hI : s.Inv) {i : Fin nbuf} {b : Buf T} (hlive : (s.buf i).Live)
    (hbuf : s'.buf = Function.update s.buf i b) (hc : s'.cached = s.cached) :
    s'.abs.holder = Function.update s.abs.holder (s.buf i).key b.lock := by
  funext y
  rw [holder_of_update hbuf hc, hI.ite_cached hlive]

omit [DecidableEq T] in
/-- A valid buffer in use shows its data at its block; a disk changed at that block only
changes nothing else a `bread` returns. -/
theorem Inv.view_update (hI : s.Inv) {i : Fin nbuf} {b : Buf T} (hlive : (s.buf i).Live)
    (hbuf : s'.buf = Function.update s.buf i b) (hc : s'.cached = s.cached) (hv : b.valid = true)
    (hd : ∀ y, y ≠ (s.buf i).key → s'.disk y = s.disk y) :
    s'.view = Function.update s.view (s.buf i).key b.data := by
  funext y
  rw [← hI.ite_cached hlive]
  by_cases hy : s.cached y = some i
  · rw [if_pos hy]
    unfold view
    simp only [hc, hy, hbuf, Function.update_self, if_pos hv]
  · rw [if_neg hy]
    have hyk : y ≠ (s.buf i).key := fun h => hy ((hI.cached_eq_iff hlive y).mpr h.symm)
    unfold view
    rw [hc]
    cases hcy : s.cached y with
    | none => exact hd y hyk
    | some j =>
      have hj : j ≠ i := fun h => hy (h ▸ hcy)
      simp only [hbuf, Function.update_of_ne hj, hd y hyk]

omit [DecidableEq T] in
/-- The store after a step at a valid buffer in use. -/
theorem Inv.abs_update (hI : s.Inv) {i : Fin nbuf} {b : Buf T} (hlive : (s.buf i).Live)
    (hbuf : s'.buf = Function.update s.buf i b) (hc : s'.cached = s.cached) (hv : b.valid = true)
    (hd : ∀ y, y ≠ (s.buf i).key → s'.disk y = s.disk y) :
    s'.abs = ⟨Function.update s.view (s.buf i).key b.data, s'.disk,
      Function.update s.abs.holder (s.buf i).key b.lock⟩ :=
  abs_eq_mk (hI.view_update hlive hbuf hc hv hd) rfl (hI.holder_update hlive hbuf hc)

omit [DecidableEq T] in
theorem Inv.abs_setBuf (hI : s.Inv) {i : Fin nbuf} {b : Buf T} (hlive : (s.buf i).Live)
    (hkey : b.key = (s.buf i).key) (hv : b.valid = true) :
    (s.setBuf i b).abs = ⟨Function.update s.view (s.buf i).key b.data, s.disk,
      Function.update s.abs.holder (s.buf i).key b.lock⟩ :=
  hI.abs_update hlive rfl (cached_setBuf hkey) hv fun _ _ => rfl

omit [DecidableEq T] [Fintype T] in
/-- Tagging buffer `i` for another block than `y` leaves another buffer found for `y`. -/
theorem cached_of_retag {i j : Fin nbuf} {b : Buf T} {y : Nat × Nat}
    (hbuf : s'.buf = Function.update s.buf i b) (hlinks : s'.links = s.links)
    (hy : b.key ≠ y) (hj : s.cached y = some j) (hji : j ≠ i) : s'.cached y = some j := by
  have hm : s'.mru = s.mru := by unfold mru; rw [hlinks]
  have hfind : s.mru.find? (s.onBuf fun b => b.isFor y.1 y.2) = some (some j) := by
    unfold cached at hj
    cases hf : s.mru.find? (s.onBuf fun b => b.isFor y.1 y.2) with
    | none => rw [hf] at hj; cases hj
    | some n =>
      rw [hf] at hj
      cases n with
      | none => cases hj
      | some k => cases hj; rfl
  unfold cached
  rw [hm, DList.find?_of_le (p := s.onBuf fun b => b.isFor y.1 y.2) ?_ ?_, hfind]
  · rfl
  · -- the new test passes fewer buffers: not `i`, which now holds another block
    intro n _ hq
    cases n with
    | none => simp [onBuf] at hq
    | some k =>
      by_cases hk : k = i
      · subst hk
        simp only [onBuf, hbuf, Function.update_self] at hq
        exact absurd ((isFor_iff.mp hq).trans Prod.mk.eta) hy
      · simpa [onBuf, hbuf, hk] using hq
  · intro a ha
    rw [hfind] at ha
    cases ha
    have := List.find?_some hfind
    simpa [onBuf, hbuf, hji] using this

omit [DecidableEq T] [Fintype T] in
/-- The only buffer of a block is found for it. -/
theorem cached_of_only {i : Fin nbuf} {x : Nat × Nat} (hmem : some i ∈ s.mru)
    (hi : (s.buf i).key = x) (hother : ∀ k, k ≠ i → (s.buf k).key ≠ x) : s.cached x = some i := by
  unfold cached
  rw [DList.find?_of_unique hmem ?_ ?_]
  · rfl
  · simp only [onBuf]
    exact isFor_iff.mpr (hi.trans Prod.mk.eta.symm)
  · intro n _ hn
    cases n with
    | none => simp [onBuf] at hn
    | some k =>
      by_cases hk : k = i
      · rw [hk]
      · simp only [onBuf] at hn
        exact absurd ((isFor_iff.mp hn).trans Prod.mk.eta) (hother k hk)

omit [DecidableEq T] [Fintype T] in
theorem onBuf_isFor_update {i : Fin nbuf} {b : Buf T} (hbuf : s'.buf = Function.update s.buf i b)
    (hkey : b.key = (s.buf i).key) (y : Nat × Nat) :
    s'.onBuf (fun b => b.isFor y.1 y.2) = s.onBuf (fun b => b.isFor y.1 y.2) := by
  funext n
  cases n with
  | none => rfl
  | some j =>
    by_cases hj : j = i
    · subst hj
      simp only [onBuf, hbuf, Function.update_self]
      exact Bool.eq_iff_iff.mpr (by rw [isFor_iff, isFor_iff, hkey])
    · simp [onBuf, hbuf, hj]

omit [DecidableEq T] in
/-- Moving a buffer in use to the front of the list changes no search for a block. -/
theorem Inv.cached_moveFront (hI : s.Inv) {i : Fin nbuf} {b : Buf T} {l : List (Option (Fin nbuf))}
    (hl : (s.buf i).Live) (hbuf : s'.buf = Function.update s.buf i b) (hkey : b.key = (s.buf i).key)
    (hmru : s'.mru = some i :: l)
    (hfind : ∀ p : Option (Fin nbuf) → Bool, p (some i) = false → l.find? p = s.mru.find? p) :
    s'.cached = s.cached := by
  funext y
  unfold cached
  rw [onBuf_isFor_update hbuf hkey, hmru]
  cases hi : s.onBuf (fun b => b.isFor y.1 y.2) (some i) with
  | true =>
    -- `i` holds `y`, and was already the buffer found for it
    have hy : (s.buf i).key = y := (isFor_iff.mp (by simpa [onBuf] using hi)).trans Prod.mk.eta
    have := hI.cached_of_live hl hy
    unfold cached at this
    rw [List.find?_cons, hi, this]
    rfl
  | false =>
    rw [List.find?_cons, hi]
    dsimp only
    rw [hfind _ hi]

omit [DecidableEq T] [Fintype T] in
/-- `bwrite` writes the buffer to its block and leaves it valid and clean. -/
theorem bwrite_ok {i : Fin nbuf} (h : s.bwrite i = .ok s') :
    s' = { s.setBuf i { s.buf i with valid := true, dirty := false } with
      disk := Function.update s.disk (s.buf i).key (s.buf i).data } := by
  unfold bwrite at h
  cases hi : iderw { s.buf i with dirty := true } s.disk with
  | error e => rw [hi] at h; cases h
  | ok r =>
    rw [hi] at h
    cases h
    obtain ⟨b', d'⟩ := r
    obtain ⟨-, ⟨-, hb, hd⟩ | ⟨-, hd, -⟩⟩ := iderw_ok hi
    · simp only at hb hd
      subst hb hd
      rfl
    · cases hd

attribute [ext] Buf

/-- `bread` takes the sleep lock and leaves the buffer valid, reading the block if it was not. -/
theorem Inv.bread_ok (hI : s.Inv) {t : T} {i : Fin nbuf} (h : s.bread t i = .ok s') :
    s' = (s.setTh t (.holding i)).setBuf i
      { s.buf i with
        lock := some t, valid := true,
        data := if (s.buf i).valid = true then (s.buf i).data else s.disk (s.buf i).key } := by
  unfold bread at h
  dsimp only at h
  split_ifs at h with hv
  · cases h
    congr 1
    ext <;> simp [hv]
  · cases hi : iderw { s.buf i with lock := some t } s.disk with
    | error e => rw [hi] at h; cases h
    | ok r =>
      rw [hi] at h
      cases h
      obtain ⟨-, ⟨hd, -⟩ | ⟨-, -, hb, hd⟩⟩ := iderw_ok hi
      · exact absurd (hI.dirty i hd) hv
      · obtain ⟨b', d'⟩ := r
        simp only at hb hd
        subst hb hd
        show (s.setTh t (.holding i)).setBuf i _ = _
        congr 1
        ext <;> simp [hv]

/-! ### The steps -/

/-- `bget` finds the block in buffer `i`: the caller's reference is counted. -/
theorem Inv.bget_found (hI : s.Inv) {t : T} {x : Nat × Nat} {i : Fin nbuf} (ht : s.th t = .idle)
    (hc : s.cached x = some i)
    (hs : s' = (s.setBuf i { s.buf i with refcnt := (s.buf i).refcnt + 1 }).setTh t (.locking i)) :
    s'.Inv ∧ s'.abs = s.abs := by
  subst hs
  have hkey : (s.buf i).key = x := (cached_isFor hc).1
  have hcached : ((s.setBuf i { s.buf i with refcnt := (s.buf i).refcnt + 1 }).setTh t
      (.locking i)).cached = s.cached :=
    cached_of_update (i := i) rfl rfl rfl
  refine ⟨hI.frame rfl rfl (by simp [ht, Phase.buf?]) (by simp [Phase.buf?])
    (list_of_links_eq hI rfl) (fun j _ _ => by rw [hcached]) (fun j _ _ => rfl) ?_
    (hI.lock_keep rfl (by simp [ht]) (by simp)) (hI.valid_keep rfl (by simp)) (hI.dirty i)
    (fun _ => by rw [hcached]; exact hkey ▸ hc) (hI.coherent i),
    abs_of_update rfl hcached rfl rfl rfl rfl⟩
  rw [refs_enter (by simpa using ht), refs_setBuf, ← hI.refcnt i]
  simp [Phase.buf?]

omit [DecidableEq T] in
/-- **Retagging a free buffer changes no block**: a buffer that was free, clean and unlocked,
given a block that no buffer has, as not valid and unlocked, leaves every block's contents and
holder. The new block read the disk before and reads it now; the buffer's old block, not dirty,
had the disk's contents in it. -/
theorem Inv.abs_recycle (hI : s.Inv) (hI' : s'.Inv) {i : Fin nbuf} {x : Nat × Nat}
    (hnot : ∀ k, (s.buf k).key ≠ x) (hd : (s.buf i).dirty = false) (hlock : (s.buf i).lock = none)
    (hl' : (s'.buf i).Live) (hk' : (s'.buf i).key = x) (hv' : (s'.buf i).valid = false)
    (hlock' : (s'.buf i).lock = none) (hbk : ∀ k, k ≠ i → s'.buf k = s.buf k) (hdisk : s'.disk = s.disk) :
    s'.abs = s.abs := by
  have hstore : ∀ y, s'.view y = s.view y ∧ s'.abs.holder y = s.abs.holder y := by
    intro y
    have hnone_new : (∀ k, (s.buf k).key = y → ¬(s.buf k).Live) → s.view y = s.disk y ∧
        s.abs.holder y = none := fun h => ⟨view_of_not_live h, hI.holder_of_not_live h⟩
    by_cases hy : x = y
    · -- the new block: read from the disk before and now, and held by nobody
      subst hy
      rw [hI'.view_of_live hl' hk', hI'.holder_of_live hl' hk',
        (hnone_new fun k hk => absurd hk (hnot k)).1, (hnone_new fun k hk => absurd hk (hnot k)).2,
        hv', hlock', hdisk]
      simp
    · by_cases hj : ∃ j, j ≠ i ∧ (s.buf j).Live ∧ (s.buf j).key = y
      · -- a block in another buffer: that buffer did not change
        obtain ⟨j, hji, hl, hk⟩ := hj
        have hl' : (s'.buf j).Live := by rwa [hbk j hji]
        have hk' : (s'.buf j).key = y := by rwa [hbk j hji]
        rw [hI'.view_of_live hl' hk', hI'.holder_of_live hl' hk', hI.view_of_live hl hk,
          hI.holder_of_live hl hk, hbk j hji, hdisk]
        exact ⟨rfl, rfl⟩
      · simp only [not_exists, not_and] at hj
        have hnone' : ∀ k, (s'.buf k).key = y → ¬(s'.buf k).Live := by
          intro k hk hl
          rcases eq_or_ne k i with rfl | hki
          · exact hy (hk'.symm.trans hk)
          · rw [hbk k hki] at hk hl
            exact hj k hki hl hk
        rw [view_of_not_live hnone', hI'.holder_of_not_live hnone', hdisk]
        by_cases hi : (s.buf i).Live ∧ (s.buf i).key = y
        · -- the buffer's old block: clean, so the disk had its contents
          rw [hI.view_of_live hi.1 hi.2, hI.holder_of_live hi.1 hi.2, hlock]
          refine ⟨?_, rfl⟩
          split_ifs with hv
          · rw [hI.coherent i hv hd hlock, hi.2]
          · rfl
        · have := hnone_new fun k hk hl => by
            rcases eq_or_ne k i with rfl | hki
            · exact hi ⟨hl, hk⟩
            · exact hj k hki hl hk
          rw [this.1, this.2]
          exact ⟨rfl, rfl⟩
  exact abs_eq_mk (funext fun y => (hstore y).1) hdisk (funext fun y => (hstore y).2)

/-- `bget` recycles buffer `i` for a block that is not cached. -/
theorem Inv.bget_recycle (hI : s.Inv) {t : T} {dev blockno : Nat} {i : Fin nbuf} (ht : s.th t = .idle)
    (hc : s.cached (dev, blockno) = none) (hfree : (s.buf i).free = true)
    (hs : s' = (s.setBuf i
      { s.buf i with dev := dev, blockno := blockno, valid := false, dirty := false, refcnt := 1 }).setTh
        t (.locking i)) :
    s'.Inv ∧ s'.abs = s.abs := by
  subst hs
  obtain ⟨hr, hd⟩ : (s.buf i).refcnt = 0 ∧ (s.buf i).dirty = false := by simpa [Buf.free] using hfree
  have hlock : (s.buf i).lock = none := hI.lock_none hr
  have hnot := hI.key_ne_of_cached_none hc
  set b : Buf T :=
    { s.buf i with dev := dev, blockno := blockno, valid := false, dirty := false, refcnt := 1 }
    with hb
  set s' := (s.setBuf i b).setTh t (.locking i) with hs'
  have hbi : s'.buf i = b := by simp [s']
  have hbk : ∀ k, k ≠ i → s'.buf k = s.buf k := fun k hk => by simp [s', hk]
  -- only `t` references `i`, which is not yet valid
  have hnoth : ∀ u, ¬(s'.th u = .holding i ∨ s'.th u = .releasing i) := by
    intro u hu
    rcases eq_or_ne u t with rfl | hut
    · simp [s'] at hu
    · simp only [s', setTh_th, setBuf_th, Function.update_of_ne hut] at hu
      exact hI.buf_ne_of_refcnt hr u (by rcases hu with h | h <;> rw [h] <;> rfl)
  have hI' : s'.Inv := by
    refine hI.frame rfl rfl (by simp [ht, Phase.buf?]) (by simp [Phase.buf?]) (list_of_links_eq hI rfl)
      (fun j hj hl => ?_) (fun _ _ _ => rfl) ?_ (hI.lock_keep rfl (by simp [ht]) (by simp))
      (fun u hu => absurd hu (hnoth u)) (fun h => by simp [b] at h) (fun _ => ?_)
      (fun h => by simp [b] at h)
    · have hbuf : s'.buf = Function.update s.buf i b := rfl
      have hlinks : s'.links = s.links := rfl
      exact (cached_of_retag (y := (s.buf j).key) hbuf hlinks (fun h => hnot j h.symm) (hI.first j hl)
        hj).trans (hI.first j hl).symm
    · rw [refs_enter (by simpa using ht), refs_setBuf, ← hI.refcnt i, hr]
      simp [b, Phase.buf?]
    · exact cached_of_only (hI.mem i) (by rw [hbi]) fun k hk => by rw [hbk k hk]; exact hnot k
  exact ⟨hI', hI.abs_recycle hI' hnot hd hlock (by simp [hbi, b, Buf.Live]) (by simp [hbi, b, Buf.key])
    (by simp [hbi, b]) (by simp [hbi, b, hlock]) hbk rfl⟩

/-- `acquiresleep` and `bread`'s read: the thread locks the block, whose contents stay. -/
theorem Inv.acquire (hI : s.Inv) {t : T} {i : Fin nbuf} (ht : s.th t = .locking i)
    (hl : (s.buf i).lock = none) (h : s.bread t i = .ok s') :
    s'.Inv ∧ BlockStore.step s.abs (.lock t (s.buf i).key) = some s'.abs := by
  have hs := hI.bread_ok h
  subst hs
  have hlive : (s.buf i).Live := hI.live_of_buf (t := t) (by rw [ht]; rfl)
  set b : Buf T :=
    { s.buf i with
      lock := some t, valid := true,
      data := if (s.buf i).valid = true then (s.buf i).data else s.disk (s.buf i).key } with hb
  have hcached : ((s.setTh t (.holding i)).setBuf i b).cached = s.cached :=
    cached_of_update (i := i) (b := b) rfl rfl rfl
  refine ⟨hI.frame rfl rfl (by simp [ht, Phase.buf?]) (by simp [Phase.buf?]) (list_of_links_eq hI rfl)
    (fun j _ _ => by rw [hcached]) (fun _ _ _ => rfl) ?_ (fun u => ?_) (fun _ _ => rfl) (fun _ => rfl)
    (fun _ => by rw [hcached]; exact hI.first i hlive) (fun _ _ h => by simp at h), ?_⟩
  · rw [refs_setBuf, refs_same (by simp [ht, Phase.buf?]), hI.refcnt]
  · -- only `t` holds the lock: no one held it before
    rcases eq_or_ne u t with rfl | hut
    · simp [b]
    · have : s.th u ≠ .holding i := fun h => by simp [(hI.lock i u).mpr h] at hl
      simp [b, hut, Ne.symm hut, this]
  · rw [BlockStore.step, if_pos (by rw [hI.holder_of_live hlive rfl, hl]),
      hI.abs_update hlive rfl hcached rfl fun _ _ => rfl]
    -- the buffer's data is what a `bread` returned before
    have hdata : b.data = s.view (s.buf i).key := by rw [hI.view_of_live hlive rfl]
    rw [hdata, Function.update_eq_self]
    rfl

/-- A step of the holder of buffer `i` that keeps its block, references, lock and `B_VALID`. -/
theorem Inv.held (hI : s.Inv) {t : T} {i : Fin nbuf} (ht : s.th t = .holding i) {b : Buf T}
    (hkey : b.key = (s.buf i).key) (hrefcnt : b.refcnt = (s.buf i).refcnt)
    (hlock : b.lock = (s.buf i).lock) (hvalid : b.valid = (s.buf i).valid)
    (hdirty : b.dirty = true → b.valid = true) : (s.setBuf i b).Inv := by
  have hlive : (s.buf i).Live := hI.live_of_buf (t := t) (by rw [ht]; rfl)
  have hcached : (s.setBuf i b).cached = s.cached := cached_setBuf hkey
  have hth : (s.setBuf i b).th = Function.update s.th t (.holding i) := by
    rw [setBuf_th, ← ht, Function.update_eq_self]
  refine hI.frame rfl hth (by simp [ht, Phase.buf?]) (by simp [Phase.buf?]) (list_of_links_eq hI rfl)
    (fun j _ _ => by rw [hcached]) (fun _ _ _ => rfl) ?_ (fun u => ?_) (fun u hu => ?_) hdirty
    (fun _ => by rw [hcached, hkey]; exact hI.first i hlive) (fun _ _ h => ?_)
  · rw [hrefcnt, hI.refcnt, refs_setBuf]
  · rw [hlock]; exact hI.lock i u
  · rw [hvalid]; exact hI.valid u i hu
  · -- the holder keeps the lock, so the buffer is not clean and unlocked
    rw [hlock, (hI.lock i t).mpr ht] at h
    cases h

/-- The holder changes `b->data`: a `put` of the store. -/
theorem Inv.write (hI : s.Inv) {t : T} {i : Fin nbuf} (ht : s.th t = .holding i) (blk : Block) :
    (s.setBuf i { s.buf i with data := blk }).Inv ∧
      BlockStore.step s.abs (.put t (s.buf i).key blk) =
        some (s.setBuf i { s.buf i with data := blk }).abs := by
  have hlive : (s.buf i).Live := hI.live_of_buf (t := t) (by rw [ht]; rfl)
  have hv : (s.buf i).valid = true := hI.valid t i (.inl ht)
  have hholder : s.abs.holder (s.buf i).key = some t := by
    rw [hI.holder_of_live hlive rfl, (hI.lock i t).mpr ht]
  refine ⟨hI.held ht rfl rfl rfl rfl fun _ => hv, ?_⟩
  rw [BlockStore.step, if_pos hholder, hI.abs_setBuf (b := { s.buf i with data := blk }) hlive rfl hv]
  -- the lock stays with the holder
  have hlock : ({ s.buf i with data := blk } : Buf T).lock = s.abs.holder (s.buf i).key := by
    rw [hholder]; exact (hI.lock i t).mpr ht
  rw [hlock, Function.update_eq_self]
  rfl

/-- `log_write` pins the buffer with `B_DIRTY`: nothing changes in the store. -/
theorem Inv.pin (hI : s.Inv) {t : T} {i : Fin nbuf} (ht : s.th t = .holding i) :
    (s.setBuf i { s.buf i with dirty := true }).Inv ∧
      (s.setBuf i { s.buf i with dirty := true }).abs = s.abs :=
  ⟨hI.held ht rfl rfl rfl rfl fun _ => hI.valid t i (.inl ht),
    abs_of_update rfl (cached_setBuf rfl) rfl rfl rfl rfl⟩

/-- `bwrite` by the holder: a `flush` of the store. -/
theorem Inv.bwrite (hI : s.Inv) {t : T} {i : Fin nbuf} (ht : s.th t = .holding i)
    (h : s.bwrite i = .ok s') :
    s'.Inv ∧ BlockStore.step s.abs (.flush t (s.buf i).key) = some s'.abs := by
  have hs := bwrite_ok h
  subst hs
  have hlive : (s.buf i).Live := hI.live_of_buf (t := t) (by rw [ht]; rfl)
  have hv : (s.buf i).valid = true := hI.valid t i (.inl ht)
  have hholder : s.abs.holder (s.buf i).key = some t := by
    rw [hI.holder_of_live hlive rfl, (hI.lock i t).mpr ht]
  set b : Buf T := { s.buf i with valid := true, dirty := false }
  set s₁ : BCache T := { s.setBuf i b with disk := Function.update s.disk (s.buf i).key (s.buf i).data }
  have hcached : s₁.cached = s.cached := cached_of_update (i := i) (b := b) rfl rfl rfl
  have hth : s.th = Function.update s.th t (.holding i) := by rw [← ht, Function.update_eq_self]
  have hlock : b.lock = some t := (hI.lock i t).mpr ht
  refine ⟨hI.frame rfl hth (by simp [ht, Phase.buf?]) (by simp [Phase.buf?])
    (list_of_links_eq hI rfl) (fun j _ _ => by rw [hcached]) (fun j hj hvj => ?_) (hI.refcnt i)
    (hI.lock i) (fun _ _ => rfl) (fun _ => rfl) (fun _ => by rw [hcached]; exact hI.first i hlive)
    (fun _ _ h => by rw [hlock] at h; cases h), ?_⟩
  · -- another valid buffer holds another block, whose disk block the write leaves
    have hk : (s.buf j).key ≠ (s.buf i).key := fun hk => hj (hI.unique (.inr hvj) hlive hk)
    exact Function.update_of_ne hk _ _
  · have habs : s₁.abs = _ :=
      hI.abs_update (b := b) hlive rfl hcached rfl fun y hy => Function.update_of_ne hy _ _
    -- the data written is what a `bread` of the block returns
    have hdata : (s.buf i).data = s.view (s.buf i).key := by rw [hI.view_of_live hlive rfl, if_pos hv]
    rw [BlockStore.step, if_pos hholder, habs]
    congr 1
    congr 1
    · show s.view = Function.update s.view (s.buf i).key (s.buf i).data
      rw [hdata, Function.update_eq_self]
    · show Function.update s.disk (s.buf i).key (s.view (s.buf i).key) = Function.update s.disk _ _
      rw [← hdata]
    · rw [hlock, ← hholder, Function.update_eq_self]

/-- `releasesleep` by the holder of a synced buffer: an `unlock` of the store. -/
theorem Inv.release (hI : s.Inv) {t : T} {i : Fin nbuf} (ht : s.th t = .holding i)
    (hsync : (s.releasesleep t i).Synced i) :
    (s.releasesleep t i).Inv ∧
      BlockStore.step s.abs (.unlock t (s.buf i).key) = some (s.releasesleep t i).abs := by
  have hlive : (s.buf i).Live := hI.live_of_buf (t := t) (by rw [ht]; rfl)
  have hv : (s.buf i).valid = true := hI.valid t i (.inl ht)
  have hholder : s.abs.holder (s.buf i).key = some t := by
    rw [hI.holder_of_live hlive rfl, (hI.lock i t).mpr ht]
  have hcached : (s.releasesleep t i).cached = s.cached :=
    cached_of_update (i := i) (b := { s.buf i with lock := none }) rfl rfl rfl
  refine ⟨hI.frame rfl rfl (by simp [ht, Phase.buf?]) (by simp [Phase.buf?])
    (list_of_links_eq hI rfl) (fun j _ _ => by rw [hcached]) (fun _ _ _ => rfl) ?_ (fun u => ?_)
    (fun _ _ => hv) (hI.dirty i) (fun _ => by rw [hcached]; exact hI.first i hlive)
    (fun _ hd _ => ?_), ?_⟩
  · have hrefs := refs_same (s := s.setBuf i { s.buf i with lock := none }) (t := t) (p := .releasing i)
      (by simp [ht, Phase.buf?])
    exact (hI.refcnt i).trans (congrFun hrefs i).symm
  · -- no one holds the lock now: `t` releases it, and it was `t`'s
    rcases eq_or_ne u t with rfl | hut
    · simp [releasesleep]
    · have : s.th u ≠ .holding i := fun h => by
        have := (hI.lock i u).mpr h
        rw [(hI.lock i t).mpr ht] at this
        exact hut (Option.some_injective _ this).symm
      simp [releasesleep, hut, this]
  · -- the caller's promise: the clean buffer it releases has the disk's contents
    rcases hsync with h | h
    · simp [releasesleep, hd] at h
    · simpa [releasesleep] using h
  · rw [BlockStore.step, if_pos hholder,
      hI.abs_update (b := { s.buf i with lock := none }) hlive rfl hcached hv fun _ _ => rfl]
    have hdata : (s.buf i).data = s.view (s.buf i).key := by rw [hI.view_of_live hlive rfl, if_pos hv]
    congr 1
    congr 1
    show s.view = Function.update s.view (s.buf i).key (s.buf i).data
    rw [hdata, Function.update_eq_self]

/-- The list `brelse` leaves: the buffer moved to the front when its last reference went. -/
theorem Inv.brelse_list (hI : s.Inv) {t : T} {i : Fin nbuf} (ht : s.th t = .releasing i) :
    (DList.Links none (s.brelse t i).links (s.brelse t i).mru ∧ (s.brelse t i).mru.length = nbuf ∧
      ∀ j, some j ∈ (s.brelse t i).mru) ∧ (s.brelse t i).cached = s.cached := by
  have hlive : (s.buf i).Live := hI.live_of_buf (t := t) (by rw [ht]; rfl)
  have hkeep : ((s.setBuf i { s.buf i with refcnt := (s.buf i).refcnt - 1 }).setTh t
      .idle).cached = s.cached :=
    cached_of_update (i := i) rfl rfl rfl
  unfold brelse
  dsimp only
  split_ifs with h0
  · -- moved to the front: the list is the old one with `i` taken out and put first
    obtain ⟨l, hl, hlen, hmem, hfind⟩ : ∃ l, DList.Links none
        ((s.links.unlink (some i)).pushFront none (some i)) (some i :: l) ∧
        (some i :: l).length = nbuf ∧ (∀ j, j ≠ i → some j ∈ l) ∧
        ∀ p : Option (Fin nbuf) → Bool, p (some i) = false → l.find? p = s.mru.find? p := by
      refine ⟨_, hI.links.moveFront (hI.mem i), ?_, fun j hj => ?_,
        fun p hp => DList.find?_erase_of_false hp⟩
      · rw [List.length_cons, List.length_erase_of_mem (hI.mem i), hI.length]
        have : 0 < nbuf := by decide
        omega
      · exact (List.mem_erase_of_ne (by simpa using hj)).mpr (hI.mem j)
    have hmru : DList.walk ((s.links.unlink (some i)).pushFront none (some i)).next nbuf
        (((s.links.unlink (some i)).pushFront none (some i)).next none) = some i :: l := by
      have := hl.walk_next
      rwa [hlen] at this
    refine ⟨⟨?_, ?_, fun j => ?_⟩, ?_⟩
    · unfold mru; rw [hmru]; exact hl
    · unfold mru; rw [hmru, hlen]
    · unfold mru
      rw [hmru]
      rcases eq_or_ne j i with rfl | hji
      · exact List.mem_cons_self
      · exact List.mem_cons_of_mem _ (hmem j hji)
    · exact hI.cached_moveFront hlive rfl rfl (by unfold mru; exact hmru) hfind
  · exact ⟨list_of_links_eq hI rfl, hkeep⟩

/-- `brelse`'s locked section: the reference goes, and nothing changes in the store. -/
theorem Inv.brelse (hI : s.Inv) {t : T} {i : Fin nbuf} (ht : s.th t = .releasing i) :
    (s.brelse t i).Inv ∧ (s.brelse t i).abs = s.abs := by
  have hlive : (s.buf i).Live := hI.live_of_buf (t := t) (by rw [ht]; rfl)
  obtain ⟨hlist, hcached⟩ := hI.brelse_list ht
  have hbuf := brelse_buf (s := s) t i
  have hth := brelse_th (s := s) t i
  have hdisk := brelse_disk (s := s) t i
  refine ⟨hI.frame hbuf hth (by simp [ht, Phase.buf?]) (by simp [Phase.buf?]) hlist
    (fun j _ _ => by rw [hcached]) (fun _ _ _ => by rw [hdisk]) ?_
    (hI.lock_keep hth (by simp [ht]) (by simp)) (hI.valid_keep hth (by simp)) (hI.dirty i)
    (fun _ => by rw [hcached]; exact hI.first i hlive) (fun hv hd hl => by rw [hdisk]; exact hI.coherent i hv hd hl),
    abs_of_update hbuf hcached hdisk rfl rfl rfl⟩
  -- `refcnt` counted `t`, which now holds no reference
  have := refs_leave ht i
  simp only [decide_true, Bool.toNat_true] at this
  have hth' : (s.brelse t i).refs i = (s.setTh t .idle).refs i := by
    unfold refs; rw [hth]; rfl
  show (s.buf i).refcnt - 1 = _
  rw [hth', hI.refcnt]
  omega

omit [DecidableEq T] [Fintype T] in
/-- The buffer a search of the list finds passes the test. -/
theorem onBuf_of_find {l : List (Option (Fin nbuf))} {test : Buf T → Bool} {j : Fin nbuf}
    (h : (l.find? (s.onBuf test)).join = some j) : test (s.buf j) = true := by
  cases hf : l.find? (s.onBuf test) with
  | none => rw [hf] at h; cases h
  | some n =>
    rw [hf] at h
    cases h
    simpa [onBuf] using List.find?_some hf

/-- **Simulation.** A step of the cache that keeps the rule of `Releases` keeps the invariant,
and changes nothing of the store or is one of its steps: `bget`, a pin and `brelse` are not
seen, and taking the sleep lock, changing the data, `bwrite` and giving the lock up are the
store's `lock`, `put`, `flush` and `unlock` of the buffer's block. -/
theorem Inv.sim (hI : s.Inv) {e : BioEv T} (h : s.step e = some s') (hrel : Releases s s') :
    s'.Inv ∧ (s'.abs = s.abs ∨ ∃ e', BlockStore.step s.abs e' = some s'.abs) := by
  rcases step_cases h with ⟨t, dev, blockno, i, s₁, ht, hb, rfl⟩ | ⟨t, i, ht, hl, hb⟩ |
    ⟨t, i, blk, ht, rfl⟩ | ⟨t, i, ht, hw⟩ | ⟨t, i, ht, rfl⟩ | ⟨t, i, ht, rfl⟩ | ⟨t, i, ht, rfl⟩
  · -- `bget` finds the block, or recycles the last free buffer of the list
    rw [hI.bget_eq] at hb
    cases hc : s.cached (dev, blockno) with
    | some j =>
      rw [hc] at hb
      cases hb
      exact (hI.bget_found ht hc rfl).imp_right .inl
    | none =>
      rw [hc] at hb
      cases hf : (s.mru.reverse.find? (s.onBuf Buf.free)).join with
      | none => rw [hf] at hb; cases hb
      | some j =>
        rw [hf] at hb
        cases hb
        exact (hI.bget_recycle ht hc (onBuf_of_find hf) rfl).imp_right .inl
  · exact (hI.acquire ht hl hb).imp_right fun h => .inr ⟨_, h⟩
  · exact (hI.write ht blk).imp_right fun h => .inr ⟨_, h⟩
  · exact (hI.bwrite ht hw).imp_right fun h => .inr ⟨_, h⟩
  · exact (hI.pin ht).imp_right .inl
  · have hsync := hrel t i ht (by simp [releasesleep])
    exact (hI.release ht hsync).imp_right fun h => .inr ⟨_, h⟩
  · exact (hI.brelse ht).imp_right .inl

/-! ## From `binit` on -/

omit [DecidableEq T] [Fintype T] in
/-- `binit` puts every buffer on the list, the last one first. -/
theorem binit_links (d : Nat × Nat → Block) :
    DList.Links none (binit d : BCache T).links ((List.finRange nbuf).map some).reverse := by
  have hnd : (none :: ((List.finRange nbuf).map some ++ [])).Nodup := by
    rw [List.append_nil]
    exact List.nodup_cons.mpr ⟨by simp, (List.nodup_finRange nbuf).map (Option.some_injective _)⟩
  have h := (DList.links_nil (h := (none : Option (Fin nbuf))) (p := ⟨fun _ => none, fun _ => none⟩)
    rfl rfl).foldl_pushFront _ hnd
  rwa [List.append_nil] at h

omit [DecidableEq T] [Fintype T] in
theorem binit_mru (d : Nat × Nat → Block) :
    (binit d : BCache T).mru = ((List.finRange nbuf).map some).reverse := by
  have h := (binit_links (T := T) d).walk_next
  rwa [List.length_reverse, List.length_map, List.length_finRange] at h

omit [DecidableEq T] in
theorem binit_inv (d : Nat × Nat → Block) : (binit d : BCache T).Inv where
  links := by rw [binit_mru]; exact binit_links d
  length := by rw [binit_mru]; simp
  mem i := by rw [binit_mru]; simp
  refcnt i := (Count.count_eq_zero.mpr fun _ => by simp [binit, Phase.buf?]).symm
  lock i t := by simp [binit, Buf.zero]
  valid t i h := by simp [binit] at h
  dirty i h := by simp [binit, Buf.zero] at h
  first i h := by simp [binit, Buf.zero, Buf.Live] at h
  coherent i h := by simp [binit, Buf.zero] at h

omit [DecidableEq T] in
/-- At `binit` the store is the disk, and no one holds a block. -/
theorem binit_abs (d : Nat × Nat → Block) : (binit d : BCache T).abs = ⟨d, d, fun _ => none⟩ := by
  have hnot : ∀ x j, ((binit d : BCache T).buf j).key = x → ¬((binit d : BCache T).buf j).Live :=
    fun _ _ _ hl => by simp [binit, Buf.zero, Buf.Live] at hl
  exact abs_eq_mk (funext fun x => view_of_not_live (hnot x)) rfl
    (funext fun x => (binit_inv d).holder_of_not_live (hnot x))

variable {d : Nat × Nat → Block}

theorem reaches_inv (h : (binit d : BCache T).Reaches s) : s.Inv :=
  Reach.Reachable.rec_inv (binit_inv d) (fun _ _ _ hI he hok => (hI.sim he hok).1) h

end BCache

end Xv6.Bio