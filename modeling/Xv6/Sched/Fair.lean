import Xv6.Lib.StrideSched
import Xv6.Sched.RoundSpec

/-!
# Stride proportional fairness

Over rounds of `stride_scheduler` in which nothing joins the stride queue, leaves it or
changes share, the queue is the abstract stride scheduler of `Xv6/Lib/StrideSched.lean` on
its clients: the MLFQ item and one item for each process (`StrideItem.client`). Each round
pops the top, an item of least pass, charges its copy `all_share / share` and pushes it back
(`stridePass_step`), as long as none of its fraction arithmetic wraps (`RoundFits`). So over
any such run (`FairRun`):

* **the spread of the passes** stays within any bound that holds at the start and that every
  stride stays within;
* **every pass stays at most `max_pass`** once it is;
* **each item is charged its share of the rounds**, `k * share / all_share` of `k`, up to an
  error that does not grow with `k` (`stride_fairness`).
-/

set_option autoImplicit false

namespace Xv6

open StrideSched

/-! ## Clients -/

/-- The client an item stands for across rounds: the MLFQ, or the process it belongs to. -/
def StrideItem.client (x : StrideItem) : Bool × Option ProcId := (x.isMLFQ, x.proc)

/-- The clients with an item in `M`. -/
def clientsOf (M : Multiset StrideItem) : Finset (Bool × Option ProcId) :=
  (M.map StrideItem.client).toFinset

/-- The sum of `f` over the items of client `i` in `M`: with one item per client, `f` of
that item, and `0` for a client without one. -/
def clientSum (f : StrideItem → ℚ) (M : Multiset StrideItem) (i : Bool × Option ProcId) : ℚ :=
  ((M.filter (·.client = i)).map f).sum

/-- The pass of each client, as a rational. -/
def passOf (M : Multiset StrideItem) : Bool × Option ProcId → ℚ := clientSum (·.pass.val) M

/-- The share of each client. -/
def shareOf (M : Multiset StrideItem) : Bool × Option ProcId → ℚ :=
  clientSum (fun x => (x.share : ℚ)) M

/-- The stride queue as a state of the abstract scheduler: the passes of its clients and
`max_pass`. -/
def StrideQueue.toState (sq : StrideQueue) : State (Bool × Option ProcId) :=
  ⟨passOf sq.q.contents, sq.maxPass.val⟩

section Clients

variable (f : StrideItem → ℚ)

theorem clientSum_cons (x : StrideItem) (M : Multiset StrideItem) (i : Bool × Option ProcId) :
    clientSum f (x ::ₘ M) i = (if x.client = i then f x else 0) + clientSum f M i := by
  unfold clientSum
  by_cases h : x.client = i
  · rw [Multiset.filter_cons_of_pos (p := fun y : StrideItem => y.client = i) _ h, if_pos h,
      Multiset.map_cons, Multiset.sum_cons]
  · rw [Multiset.filter_cons_of_neg (p := fun y : StrideItem => y.client = i) _ h, if_neg h,
      zero_add]

theorem clientSum_of_not_mem {M : Multiset StrideItem} {i : Bool × Option ProcId}
    (h : i ∉ clientsOf M) : clientSum f M i = 0 := by
  unfold clientSum
  rw [Multiset.filter_eq_nil.mpr, Multiset.map_zero, Multiset.sum_zero]
  intro x hx hxi
  exact h (Multiset.mem_toFinset.mpr (Multiset.mem_map.mpr ⟨x, hx, hxi⟩))

/-- The client of the first item has no other. -/
theorem client_not_mem {x : StrideItem} {C : Multiset StrideItem}
    (hnd : ((x ::ₘ C).map StrideItem.client).Nodup) : x.client ∉ clientsOf C := by
  rw [Multiset.map_cons, Multiset.nodup_cons] at hnd
  simpa [clientsOf] using hnd.1

/-- **With one item per client**, the sum for the client of `x ∈ M` is `f x`. -/
theorem clientSum_of_mem {M : Multiset StrideItem} (hnd : (M.map StrideItem.client).Nodup)
    {x : StrideItem} (hx : x ∈ M) : clientSum f M x.client = f x := by
  obtain ⟨C, rfl⟩ := Multiset.exists_cons_of_mem hx
  rw [clientSum_cons, if_pos rfl, clientSum_of_not_mem f (client_not_mem hnd), add_zero]

/-- With one item per client, the sums over the clients add up to the sum over the items. -/
theorem sum_clientSum {M : Multiset StrideItem} (hnd : (M.map StrideItem.client).Nodup) :
    ∑ i ∈ clientsOf M, clientSum f M i = (M.map f).sum := by
  induction M using Multiset.induction_on with
  | empty => simp [clientsOf]
  | cons x C ih =>
    have hx := client_not_mem hnd
    have hC : (C.map StrideItem.client).Nodup := by
      rw [Multiset.map_cons, Multiset.nodup_cons] at hnd
      exact hnd.2
    -- the first item counts for its own client only
    have hrest : ∀ i ∈ clientsOf C, clientSum f (x ::ₘ C) i = clientSum f C i := by
      intro i hi
      rw [clientSum_cons, if_neg (fun h : x.client = i => hx (by rw [h]; exact hi)), zero_add]
    rw [show clientsOf (x ::ₘ C) = insert x.client (clientsOf C) by
        simp [clientsOf, Multiset.toFinset_cons],
      Finset.sum_insert hx, Finset.sum_congr rfl hrest, ih hC, clientSum_cons, if_pos rfl,
      clientSum_of_not_mem f hx, add_zero, Multiset.map_cons, Multiset.sum_cons]

/-- Replacing an item by another of the same client changes the sums of that client only. -/
theorem clientSum_replace {x y : StrideItem} {C : Multiset StrideItem}
    (hnd : ((x ::ₘ C).map StrideItem.client).Nodup) (hc : y.client = x.client) :
    clientSum f (y ::ₘ C) = Function.update (clientSum f (x ::ₘ C)) x.client (f y) := by
  funext i
  by_cases hi : i = x.client
  · rw [hi, Function.update_self, clientSum_cons, if_pos hc,
      clientSum_of_not_mem f (client_not_mem hnd), add_zero]
  · rw [Function.update_of_ne hi, clientSum_cons, clientSum_cons, if_neg (hc ▸ Ne.symm hi),
      if_neg (Ne.symm hi)]

end Clients

theorem clientsOf_replace {x y : StrideItem} {C : Multiset StrideItem} (hc : y.client = x.client) :
    clientsOf (y ::ₘ C) = clientsOf (x ::ₘ C) := by
  simp [clientsOf, hc]

theorem client_mem_clientsOf {M : Multiset StrideItem} {x : StrideItem} (hx : x ∈ M) :
    x.client ∈ clientsOf M :=
  Multiset.mem_toFinset.mpr (Multiset.mem_map.mpr ⟨x, hx, rfl⟩)

section OneItem

variable {M : Multiset StrideItem} (hnd : (M.map StrideItem.client).Nodup) {x : StrideItem}
  (hx : x ∈ M)
include hnd hx

/-- With one item per client, the pass of the client of `x` is that of `x`. -/
theorem passOf_of_mem : passOf M x.client = x.pass.val := clientSum_of_mem _ hnd hx

/-- With one item per client, the share of the client of `x` is that of `x`. -/
theorem shareOf_of_mem : shareOf M x.client = x.share := clientSum_of_mem _ hnd hx

end OneItem

/-! ## The queue over fair rounds -/

/-- What the queue keeps over rounds in which nothing joins, leaves or changes share: a
non-empty min-heap that fits in `items[]`, one item per client, positive shares, and
`all_share` their sum, in a `uint`. -/
structure FairInv (sq : StrideQueue) : Prop where
  ordered : sq.q.Ordered
  pos : 0 < sq.q.size
  le : sq.q.size ≤ nproc
  nodup : (sq.q.contents.map StrideItem.client).Nodup
  share_pos : ∀ x ∈ sq.q.contents, 0 < x.share
  sum : sq.allShare = (sq.q.contents.map (·.share)).sum
  lt : sq.allShare < 2 ^ 32

/-- No fraction computation of the round at `sq` wraps: the comparisons between the passes in
the heap, the addition of the stride to the pass of the top, and the comparisons of the new
pass with `max_pass` and with the passes the push sifts it past. -/
structure RoundFits (sq : StrideQueue) : Prop where
  heap : PassesFit sq.q.contents
  charge : ∀ st, strideOf { sq with allShare := sq.allShare - (sq.q.items 1).share }
      (sq.q.items 1) = some st →
    AddFits (sq.q.items 1).pass st ∧ ∀ c, fracAdd (sq.q.items 1).pass st = some c →
      CmpFits sq.maxPass c ∧ PassesFit ({ sq.q.items 1 with pass := c } ::ₘ sq.q.contents)

/-! ### Deciding the conditions on a given queue -/

instance (sq : StrideQueue) : Decidable sq.q.Ordered :=
  inferInstanceAs (Decidable (∀ i, 2 ≤ i → i ≤ sq.q.size →
    (sq.q.items (i / 2)).pass.val ≤ (sq.q.items i).pass.val))

instance (sq : StrideQueue) : Decidable (FairInv sq) :=
  decidable_of_iff (sq.q.Ordered ∧ 0 < sq.q.size ∧ sq.q.size ≤ nproc ∧
      (sq.q.contents.map StrideItem.client).Nodup ∧ (∀ x ∈ sq.q.contents, 0 < x.share) ∧
      sq.allShare = (sq.q.contents.map (·.share)).sum ∧ sq.allShare < 2 ^ 32)
    ⟨fun ⟨h1, h2, h3, h4, h5, h6, h7⟩ => ⟨h1, h2, h3, h4, h5, h6, h7⟩,
      fun h => ⟨h.ordered, h.pos, h.le, h.nodup, h.share_pos, h.sum, h.lt⟩⟩

/-- `RoundFits`, decided on the stride and the pass the round computes. -/
instance (sq : StrideQueue) : Decidable (RoundFits sq) :=
  match hst : strideOf { sq with allShare := sq.allShare - (sq.q.items 1).share } (sq.q.items 1) with
  | none => decidable_of_iff (PassesFit sq.q.contents)
      ⟨fun h => ⟨h, fun st h' => by rw [hst] at h'; cases h'⟩, fun h => h.heap⟩
  | some st =>
    match hc : fracAdd (sq.q.items 1).pass st with
    | none => decidable_of_iff (PassesFit sq.q.contents ∧ AddFits (sq.q.items 1).pass st)
        ⟨fun h => ⟨h.1, fun st' h' => by
            obtain rfl : st = st' := Option.some.inj (hst.symm.trans h')
            exact ⟨h.2, fun c h'' => by rw [hc] at h''; cases h''⟩⟩,
          fun h => ⟨h.heap, (h.charge st hst).1⟩⟩
    | some c => decidable_of_iff (PassesFit sq.q.contents ∧ AddFits (sq.q.items 1).pass st ∧
          CmpFits sq.maxPass c ∧ PassesFit ({ sq.q.items 1 with pass := c } ::ₘ sq.q.contents))
        ⟨fun ⟨h1, h2, h3, h4⟩ => ⟨h1, fun st' h' => by
            obtain rfl : st = st' := Option.some.inj (hst.symm.trans h')
            exact ⟨h2, fun c' h'' => by
              obtain rfl : c = c' := Option.some.inj (hc.symm.trans h'')
              exact ⟨h3, h4⟩⟩⟩,
          fun h => ⟨h.heap, (h.charge st hst).1, ((h.charge st hst).2 c hc).1,
            ((h.charge st hst).2 c hc).2⟩⟩

theorem ofInt_toNat {z : Int} (h0 : 0 ≤ z) (h1 : z < 2 ^ 32) :
    (UInt32.ofInt z).toNat = z.toNat := by
  rw [UInt32.ofInt, UInt32.toNat_ofNat', Int.emod_eq_of_lt h0 (by omega)]
  omega

theorem natCast_toNat {z : Int} (h0 : 0 ≤ z) : ((z.toNat : Nat) : ℚ) = z := by
  rw [← Int.cast_natCast, Int.toNat_of_nonneg h0]

/-- **The stride is exact**: `all_share / share` as `uint`s, while both fit. -/
theorem strideOf_val {sq : StrideQueue} {x : StrideItem} (h0 : 0 < x.share)
    (hS : 0 ≤ sq.allShare) (h1 : sq.allShare + x.share < 2 ^ 32) :
    ∃ st, strideOf sq x = some st ∧
      st.val = ((sq.allShare + x.share : Int) : ℚ) / x.share := by
  have hd : (UInt32.ofInt x.share).toNat = x.share.toNat := ofInt_toNat h0.le (by omega)
  have hn : (UInt32.ofInt (sq.allShare + x.share)).toNat = (sq.allShare + x.share).toNat :=
    ofInt_toNat (by omega) h1
  obtain ⟨st, hst, hval, -⟩ := @fracInit_spec (UInt32.ofInt (sq.allShare + x.share))
    (UInt32.ofInt x.share) (by rw [hd]; omega)
  refine ⟨st, hst, ?_⟩
  rw [hval, hn, hd, natCast_toNat (by omega), natCast_toNat h0.le]

/-! ## A fair round -/

section Round

variable {n : Nat}

/-- `stride_push` of an item the heap has room for. -/
theorem pushBack_of_push {s : Sys n} {item : StrideItem} {q' : StrideHeap}
    (h : heapPushItem s.stride.q item = some q') :
    pushBack s item = some { s with stride :=
      { s.stride with allShare := s.stride.allShare + item.share, q := q' } } := by
  simp [pushBack, stridePush, h]

/-- The share of an item is part of `all_share`. -/
theorem FairInv.share_le {sq : StrideQueue} (hi : FairInv sq) {x : StrideItem}
    (hx : x ∈ sq.q.contents) : x.share ≤ sq.allShare := by
  obtain ⟨C, hC⟩ := Multiset.exists_cons_of_mem hx
  have hC0 : 0 ≤ (C.map (·.share)).sum := Multiset.sum_nonneg fun y hy => by
    obtain ⟨z, hz, rfl⟩ := Multiset.mem_map.mp hy
    exact (hi.share_pos z (hC ▸ Multiset.mem_cons_of_mem hz)).le
  rw [hi.sum, hC, Multiset.map_cons, Multiset.sum_cons]
  omega

/-- **A fair round, computed**: `stride_pass` with the copy of the top pops it, charges it
exactly `all_share / share`, updates `max_pass` and pushes it back; `all_share` and the size
stay, and the heap is again a min-heap. -/
theorem stridePass_fair {s : Sys n} {c : Fin n} (hi : FairInv s.stride) (hf : RoundFits s.stride)
    (hpb : PushedBack s (s.stride.q.items 1)) :
    ∃ pass q', stridePass s c (s.stride.q.items 1) =
        some { s.setCpu c .idle with stride := ⟨s.stride.allShare,
          if fracIsLessThan s.stride.maxPass pass then pass else s.stride.maxPass, q'⟩ } ∧
      pass.val = (s.stride.q.items 1).pass.val +
        (s.stride.allShare : ℚ) / (s.stride.q.items 1).share ∧
      CmpFits s.stride.maxPass pass ∧ q'.Ordered ∧ q'.size = s.stride.q.size ∧
      ∃ C, s.stride.q.items 1 ::ₘ C = s.stride.q.contents ∧
        q'.contents = { s.stride.q.items 1 with pass } ::ₘ C := by
  have htop : s.stride.q.items 1 ∈ s.stride.q.contents := StrideHeap.top_mem hi.pos
  have h0 : 0 < (s.stride.q.items 1).share := hi.share_pos _ htop
  have hle := hi.share_le htop
  have hlt := hi.lt
  have hpos := hi.pos
  have hsize := hi.le
  -- the pop
  obtain ⟨q1, hpop, hsize1, hord1, hcont1, -⟩ := heapPopItem_spec hi.ordered hf.heap hi.pos
  obtain ⟨q1', hpop', hsp⟩ := stridePop_ok hi.pos
  obtain rfl : q1' = q1 := Option.some.inj (hpop'.symm.trans hpop)
  -- the charge, exact
  obtain ⟨st, hst, hstv⟩ := @strideOf_val
    { s.stride with allShare := s.stride.allShare - (s.stride.q.items 1).share } _ h0
    (by dsimp only; omega) (by dsimp only; omega)
  obtain ⟨hadd, hrest⟩ := hf.charge st hst
  obtain ⟨pass, hpass, hpv, hpd, hpc⟩ := fracAdd_val hadd
  obtain ⟨hcmp, hfit⟩ := hrest pass hpass
  have hch : chargeItem { s.stride with
      allShare := s.stride.allShare - (s.stride.q.items 1).share
      q := q1' } (s.stride.q.items 1) = some { s.stride.q.items 1 with pass } := by
    simp only [chargeItem]
    rw [show strideOf { s.stride with
      allShare := s.stride.allShare - (s.stride.q.items 1).share
      q := q1' } (s.stride.q.items 1) = some st from hst, Option.bind_some, hpass, Option.map_some]
  -- the push, on the popped heap: its comparisons are among those `RoundFits` covers
  have hfit2 : PassesFit ({ s.stride.q.items 1 with pass } ::ₘ q1'.contents) := by
    have hsub : ∀ x ∈ ({ s.stride.q.items 1 with pass } ::ₘ q1'.contents),
        x ∈ ({ s.stride.q.items 1 with pass } ::ₘ s.stride.q.contents) := by
      intro x hx
      rcases Multiset.mem_cons.mp hx with rfl | hx
      · exact Multiset.mem_cons_self _ _
      · exact Multiset.mem_cons_of_mem (hcont1 ▸ Multiset.mem_cons_of_mem hx)
    exact fun x hx y hy => hfit x (hsub x hx) y (hsub y hy)
  obtain ⟨q2, hpush, hsize2, hord2, hcont2, -⟩ :=
    heapPushItem_spec hord1 hfit2 (show q1'.size < nproc by omega)
  refine ⟨pass, q2, ?_, ?_, hcmp, hord2, by omega, q1'.contents, hcont1, hcont2⟩
  · simp only [stridePass, Sys.setCpu_stride, hsp, ne_eq, not_true_eq_false, if_false, hch,
      updateMaxPass_reduced hpc hpd]
    -- the copy goes back: the MLFQ item always, a process's item since it is alive
    have hback : ∀ S : Sys n, S.stride.q = q1' → pushBack S { s.stride.q.items 1 with pass } =
        some { S with stride := { S.stride with
          allShare := S.stride.allShare + (s.stride.q.items 1).share, q := q2 } } :=
      fun S hS => pushBack_of_push (by rw [hS]; exact hpush)
    split
    · rw [hback _ rfl, sub_add_cancel]
    · -- an item of no process that is not the MLFQ item is not pushed back
      rename_i hM hP
      rcases hpb with hM' | ⟨p, hP', -⟩
      · simp [hM] at hM'
      · simp [hP] at hP'
    · rename_i p hM hP
      rcases hpb with hM' | ⟨p', hP', hz⟩
      · simp [hM] at hM'
      · obtain rfl : p' = p := Option.some.inj (hP'.symm.trans hP)
        rw [Sys.setCpu_procs, if_neg hz, hback _ rfl, sub_add_cancel]
  · rw [hpv, hstv, sub_add_cancel]

/-- **A fair round refines a step of the stride scheduler** on the queue's clients and shares,
with `all_share` for the total, and keeps `FairInv`: the clients, their shares and
`all_share` stay. -/
theorem stridePass_step {s s1 : Sys n} {c : Fin n} (hi : FairInv s.stride) (hf : RoundFits s.stride)
    (hpb : PushedBack s (s.stride.q.items 1)) (h : stridePass s c (s.stride.q.items 1) = some s1) :
    FairInv s1.stride ∧ s1.stride.allShare = s.stride.allShare ∧
      clientsOf s1.stride.q.contents = clientsOf s.stride.q.contents ∧
      shareOf s1.stride.q.contents = shareOf s.stride.q.contents ∧
      Step (clientsOf s.stride.q.contents) (shareOf s.stride.q.contents) s.stride.allShare
        s.stride.toState (s.stride.q.items 1).client s1.stride.toState := by
  obtain ⟨pass, q', hs1, hpv, hcmp, hord, hsize, C, hC, hq'⟩ :=
    stridePass_fair (c := c) hi hf hpb
  obtain rfl := Option.some.inj (h.symm.trans hs1)
  set top := s.stride.q.items 1 with htop
  have hnd := hi.nodup
  rw [← hC] at hnd
  -- the new item stands for the same client, with the same share
  have hcl : ({ top with pass } : StrideItem).client = top.client := rfl
  have hcont : s.stride.q.contents = top ::ₘ C := hC.symm
  have hclients : clientsOf q'.contents = clientsOf s.stride.q.contents := by
    rw [hq', hcont, clientsOf_replace hcl]
  have htop_mem : top ∈ s.stride.q.contents := hcont ▸ Multiset.mem_cons_self _ _
  have hpass_top : passOf s.stride.q.contents top.client = top.pass.val :=
    passOf_of_mem hi.nodup htop_mem
  have hshare_top : shareOf s.stride.q.contents top.client = top.share :=
    shareOf_of_mem hi.nodup htop_mem
  have hshares : shareOf q'.contents = shareOf s.stride.q.contents := by
    simp only [shareOf, hq']
    rw [clientSum_replace _ hnd hcl, ← hcont]
    dsimp only
    rw [← shareOf, ← hshare_top, Function.update_eq_self]
  refine ⟨?_, rfl, hclients, hshares, ?_⟩
  · -- the heap holds the same clients with the same shares, one of them at a new pass
    have hmap :
        q'.contents.map StrideItem.client = s.stride.q.contents.map StrideItem.client := by
      rw [hq', hcont, Multiset.map_cons, Multiset.map_cons, hcl]
    have hshare_map : q'.contents.map (·.share) = s.stride.q.contents.map (·.share) := by
      rw [hq', hcont, Multiset.map_cons, Multiset.map_cons]
    refine ⟨hord, hsize ▸ hi.pos, hsize ▸ hi.le, hmap ▸ hi.nodup, fun x hx => ?_, ?_, hi.lt⟩
    · rw [hq'] at hx
      rcases Multiset.mem_cons.mp hx with rfl | hx
      · exact hi.share_pos top htop_mem
      · exact hi.share_pos x (hcont ▸ Multiset.mem_cons_of_mem hx)
    · show s.stride.allShare = (q'.contents.map (·.share)).sum
      rw [hshare_map, hi.sum]
  · refine ⟨?_, ?_, ?_, ?_⟩
    · exact client_mem_clientsOf htop_mem
    · -- the top has the least pass of the heap
      intro j hj
      obtain ⟨y, hy, rfl⟩ := Multiset.mem_map.mp (Multiset.mem_toFinset.mp hj)
      show passOf s.stride.q.contents top.client ≤ passOf s.stride.q.contents y.client
      rw [hpass_top, passOf_of_mem hi.nodup hy]
      exact hi.ordered.top_le hy
    · show passOf q'.contents = Function.update (passOf s.stride.q.contents) top.client
        (passOf s.stride.q.contents top.client +
          s.stride.allShare / shareOf s.stride.q.contents top.client)
      rw [hshare_top, hpass_top, ← hpv, passOf, passOf, hq', clientSum_replace _ hnd hcl, hcont]
    · -- `max_pass` becomes the larger of the two, compared without wrapping
      show (if fracIsLessThan s.stride.maxPass pass then pass else s.stride.maxPass).val =
        max s.stride.maxPass.val (passOf s.stride.q.contents top.client +
          s.stride.allShare / shareOf s.stride.q.contents top.client)
      rw [hshare_top, hpass_top, ← hpv]
      split_ifs with hlt
      · exact (max_eq_right ((fracIsLessThan_iff hcmp).mp hlt).le).symm
      · exact (max_eq_left (not_lt.mp fun h => hlt ((fracIsLessThan_iff hcmp).mpr h))).symm

end Round

/-! ## Runs of fair rounds -/

section Run

variable {n : Nat}

/-- **Consecutive rounds in which nothing joins, leaves or changes share**, on any CPUs: the
copy each round charges is the top of the heap as the round reaches `stride_pass`, it goes
back alive, and none of the round's fraction arithmetic wraps; between two rounds anything
but the stride queue may change. The list holds the items charged, in order. -/
inductive FairRun : Sys n → List StrideItem → Sys n → Prop
  | nil (s : Sys n) : FairRun s [] s
  | cons {s s1 s2 s3 : Sys n} {c : Fin n} {l : List StrideItem} :
      RoundFits s.stride → PushedBack s (s.stride.q.items 1) →
      stridePass s c (s.stride.q.items 1) = some s1 → s2.stride = s1.stride →
      FairRun s2 l s3 → FairRun s (s.stride.q.items 1 :: l) s3

/-- **Every fair run is a run of the stride scheduler** on the clients, the shares and
`all_share` it starts with, which it keeps, and it keeps `FairInv`. -/
theorem FairRun.refines {s s' : Sys n} {l : List StrideItem} (h : FairRun s l s')
    (hi : FairInv s.stride) :
    FairInv s'.stride ∧ s'.stride.allShare = s.stride.allShare ∧
      clientsOf s'.stride.q.contents = clientsOf s.stride.q.contents ∧
      shareOf s'.stride.q.contents = shareOf s.stride.q.contents ∧
      Run (clientsOf s.stride.q.contents) (shareOf s.stride.q.contents) s.stride.allShare
        s.stride.toState (l.map StrideItem.client) s'.stride.toState := by
  -- induction on the rounds; each is a step of the abstract scheduler
  induction h with
  | nil s => exact ⟨hi, rfl, rfl, rfl, .nil _⟩
  | @cons s s1 s2 s3 c l hf hpb hs h2 _ ih =>
    obtain ⟨hi1, hS1, hA1, hw1, hstep⟩ := stridePass_step hi hf hpb hs
    obtain ⟨hi', hS', hA', hw', hrun⟩ := ih (by rw [h2]; exact hi1)
    rw [h2] at hrun hS' hA' hw'
    rw [hA1, hw1, hS1] at hrun
    exact ⟨hi', hS'.trans hS1, hA'.trans hA1, hw'.trans hw1, .cons hstep hrun⟩

end Run

/-! ## Fairness -/

theorem mem_clientsOf {M : Multiset StrideItem} {i : Bool × Option ProcId} :
    i ∈ clientsOf M ↔ ∃ x ∈ M, x.client = i := by
  simp [clientsOf]

/-- With one item per client, a bound on the spread of the clients' passes is one on the
spread of the items' passes. -/
theorem spread_iff {M : Multiset StrideItem} (hnd : (M.map StrideItem.client).Nodup) {D : ℚ} :
    Spread (clientsOf M) (passOf M) D ↔ ∀ x ∈ M, ∀ y ∈ M, x.pass.val - y.pass.val ≤ D := by
  constructor
  · intro h x hx y hy
    have hxy := h x.client (client_mem_clientsOf hx) y.client (client_mem_clientsOf hy)
    rwa [passOf_of_mem hnd hx, passOf_of_mem hnd hy] at hxy
  · intro h i hi j hj
    obtain ⟨x, hx, rfl⟩ := mem_clientsOf.mp hi
    obtain ⟨y, hy, rfl⟩ := mem_clientsOf.mp hj
    rw [passOf_of_mem hnd hx, passOf_of_mem hnd hy]
    exact h x hx y hy

/-- With one item per client, `max_pass` bounds the clients' passes when it bounds the items'. -/
theorem maxBounds_iff {M : Multiset StrideItem} (hnd : (M.map StrideItem.client).Nodup) {m : ℚ} :
    MaxBounds (clientsOf M) ⟨passOf M, m⟩ ↔ ∀ x ∈ M, x.pass.val ≤ m := by
  constructor
  · intro h x hx
    have hx' := h x.client (client_mem_clientsOf hx)
    dsimp only at hx'
    rwa [passOf_of_mem hnd hx] at hx'
  · intro h i hi
    obtain ⟨x, hx, rfl⟩ := mem_clientsOf.mp hi
    show passOf M x.client ≤ m
    rw [passOf_of_mem hnd hx]
    exact h x hx

/-- `all_share` is the total of the clients' shares. -/
theorem FairInv.allShare_eq {sq : StrideQueue} (hi : FairInv sq) :
    (sq.allShare : ℚ) = ∑ i ∈ clientsOf sq.q.contents, shareOf sq.q.contents i := by
  rw [shareOf, sum_clientSum _ hi.nodup, hi.sum, Int.cast_multiset_sum, Multiset.map_map]
  rfl

/-- **Stride proportional fairness.** Over consecutive rounds in which nothing joins, leaves
or changes share, and no fraction computation wraps: a bound `D` on the spread of the passes
that every stride `all_share / share` stays within still bounds the spread after them; every
pass stays at most `max_pass` once it is; and the rounds charged to each item differ from its
part `share / all_share` of them by at most `2 * D * share / all_share`, whatever their
number. -/
theorem stride_fairness {n : Nat} {s s' : Sys n} {l : List StrideItem} {D : ℚ}
    (hi : FairInv s.stride) (hrun : FairRun s l s')
    (hD : ∀ x ∈ s.stride.q.contents, ∀ y ∈ s.stride.q.contents, x.pass.val - y.pass.val ≤ D)
    (hst : ∀ x ∈ s.stride.q.contents, (s.stride.allShare : ℚ) / x.share ≤ D) :
    (∀ x ∈ s'.stride.q.contents, ∀ y ∈ s'.stride.q.contents, x.pass.val - y.pass.val ≤ D) ∧
    ((∀ x ∈ s.stride.q.contents, x.pass.val ≤ s.stride.maxPass.val) →
      ∀ x ∈ s'.stride.q.contents, x.pass.val ≤ s'.stride.maxPass.val) ∧
    ∀ x ∈ s.stride.q.contents,
      |(l.countP (·.client = x.client) : ℚ) - l.length * (x.share / s.stride.allShare)| ≤
        x.share / s.stride.allShare * (2 * D) := by
  obtain ⟨hi', -, hA, -, hr⟩ := hrun.refines hi
  have hshare : ∀ x ∈ s.stride.q.contents, shareOf s.stride.q.contents x.client = x.share :=
    fun x hx => shareOf_of_mem hi.nodup hx
  -- every stride is positive and within `D`
  have hs : ∀ i ∈ clientsOf s.stride.q.contents, 0 ≤ (s.stride.allShare : ℚ) /
      shareOf s.stride.q.contents i ∧ (s.stride.allShare : ℚ) / shareOf s.stride.q.contents i ≤ D := by
    intro i hi'
    obtain ⟨x, hx, rfl⟩ := mem_clientsOf.mp hi'
    have hS0 : (0 : ℚ) ≤ s.stride.allShare := by
      exact_mod_cast (hi.share_pos x hx).le.trans (hi.share_le hx)
    have hx0 : (0 : ℚ) ≤ x.share := by exact_mod_cast (hi.share_pos x hx).le
    rw [hshare x hx]
    exact ⟨div_nonneg hS0 hx0, hst x hx⟩
  have h0 : Spread (clientsOf s.stride.q.contents) (passOf s.stride.q.contents) D :=
    (spread_iff hi.nodup).mpr hD
  have h1 : Spread (clientsOf s.stride.q.contents) (passOf s'.stride.q.contents) D :=
    hr.spread h0 hs
  refine ⟨(spread_iff hi'.nodup).mp (hA ▸ h1), fun hb => ?_, fun x hx => ?_⟩
  · exact (maxBounds_iff hi'.nodup).mp (hA ▸ hr.maxBounds ((maxBounds_iff hi.nodup).mpr hb))
  · have hw : ∀ j ∈ clientsOf s.stride.q.contents, 0 < shareOf s.stride.q.contents j := by
      intro j hj
      obtain ⟨y, hy, rfl⟩ := mem_clientsOf.mp hj
      rw [hshare y hy]
      exact_mod_cast hi.share_pos y hy
    have hc := hr.count_sub_le hi.allShare_eq hw h0 h1 (client_mem_clientsOf hx)
    -- the client's charges, as a count over the items charged
    unfold List.count at hc
    rw [hshare x hx, List.length_map, List.countP_map] at hc
    rw [two_mul]
    exact hc

/-- Two clients at pass 0 on one CPU: the MLFQ item, share 22, and the item of process 0,
share 10. -/
def fairStart : Sys 1 :=
  { Sys.boot 1 with stride := ⟨32, ⟨0, 1⟩, ⟨2, fun i =>
      if i = 1 then ⟨⟨0, 1⟩, true, 22, none⟩
      else if i = 2 then ⟨⟨0, 1⟩, false, 10, some 0⟩
      else ⟨⟨0, 1⟩, false, 0, none⟩⟩⟩ }

/-- Two rounds from `fairStart`: the MLFQ item, then process 0's, each charged once. -/
theorem stride_fairness_two_rounds :
    ∃ s1 s2 : Sys 1, FairInv fairStart.stride ∧
      FairRun fairStart [fairStart.stride.q.items 1, s1.stride.q.items 1] s2 ∧
      (∀ x ∈ fairStart.stride.q.contents, ∀ y ∈ fairStart.stride.q.contents,
        x.pass.val - y.pass.val ≤ 16 / 5) ∧
      (∀ x ∈ fairStart.stride.q.contents, (fairStart.stride.allShare : ℚ) / x.share ≤ 16 / 5) ∧
      (∀ x ∈ s2.stride.q.contents, ∀ y ∈ s2.stride.q.contents, x.pass.val - y.pass.val ≤ 16 / 5) ∧
      ∀ x ∈ fairStart.stride.q.contents,
        |([fairStart.stride.q.items 1, s1.stride.q.items 1].countP (·.client = x.client) : ℚ) -
          2 * (x.share / fairStart.stride.allShare)| ≤ x.share / fairStart.stride.allShare * (2 * (16 / 5)) := by
  -- every fact about `fairStart` and its first round, evaluated by the kernel at once
  have hstart : FairInv fairStart.stride ∧
      (∀ x ∈ fairStart.stride.q.contents, ∀ y ∈ fairStart.stride.q.contents,
        x.pass.val - y.pass.val ≤ 16 / 5) ∧
      (∀ x ∈ fairStart.stride.q.contents, (fairStart.stride.allShare : ℚ) / x.share ≤ 16 / 5) ∧
      RoundFits fairStart.stride ∧ PushedBack fairStart (fairStart.stride.q.items 1) ∧
      (stridePass fairStart 0 (fairStart.stride.q.items 1)).map (fun s =>
        (decide (RoundFits s.stride), decide (PushedBack s (s.stride.q.items 1)),
          (stridePass s 0 (s.stride.q.items 1)).isSome)) = some (true, true, true) := by
    decide +kernel
  obtain ⟨hi, hD, hst, hf0, hpb0, hpass⟩ := hstart
  -- the first round ends in `s1`, whose round can go on
  obtain ⟨s1, hs1, hv1⟩ := Option.map_eq_some_iff.mp hpass
  simp only [Prod.mk.injEq, decide_eq_true_eq] at hv1
  obtain ⟨hf1, hpb1, hsome⟩ := hv1
  obtain ⟨s2, hs2⟩ := Option.isSome_iff_exists.mp hsome
  have hrun : FairRun fairStart [fairStart.stride.q.items 1, s1.stride.q.items 1] s2 :=
    .cons hf0 hpb0 hs1 rfl (.cons hf1 hpb1 hs2 rfl (.nil s2))
  obtain ⟨hspread, -, hcount⟩ := stride_fairness hi hrun hD hst
  exact ⟨s1, s2, hi, hrun, hD, hst, hspread, hcount⟩

end Xv6
