import Xv6.Sched.InvRun

/-!
# The share accounting of `set_cpu_share` and of `stride_pass`

A refused `set_cpu_share` changes nothing, and the cap refuses every call that would take
`all_share` past `STRIDE_MAX_SHARE`. A round, on the other hand, takes the share of
whatever is on top of the heap when it reaches `stride_pass:` off `all_share` and adds the
share of the copy it took before the dispatch (`resume_swaps_top`). That is the identity
only if the top is still the item copied, with the share it had then. On one CPU the top is
the dispatched process's own item, but an adjust made during the dispatch is undone by the
copy (`resume_restores_copy`); on two CPUs the other CPU's rounds change the top.
-/

set_option autoImplicit false

namespace Xv6

variable {n : Nat}

/-! ## Refused calls -/

theorem strideAdjust_refused {sq : StrideQueue} {slot : Option Nat} {share : Int}
    (h : (strideAdjust sq slot share).1 ≠ 0) : (strideAdjust sq slot share).2 = sq := by
  rcases slot with _ | i
  · rfl
  · simp only [strideAdjust] at h ⊢
    split_ifs at h ⊢
    · rfl
    · rfl
    · exact absurd rfl h

/-- **A refused `set_cpu_share` changes nothing**: a call that does not return 0 (a share
outside `1 … 80`, the cap, a caller in neither scheduler) leaves the state as it was. -/
theorem sysSetCpuShare_refused {s s' : Sys n} {p : ProcId} {share r : Int}
    (h : sysSetCpuShare s p share = some (r, s')) (hr : r ≠ 0) : s' = s := by
  unfold sysSetCpuShare at h
  split_ifs at h
  · exact (Prod.mk.inj (Option.some.inj h)).2.symm
  unfold setCpuShare at h
  split_ifs at h with hm hc hs
  · exact (Prod.mk.inj (Option.some.inj h)).2.symm
  · -- the join returns 0 whenever it returns
    simp only at h
    split at h
    · cases h
    · obtain ⟨rfl, -⟩ := Prod.mk.inj (Option.some.inj h)
      exact absurd rfl hr
  · -- the adjust hands back the queue it was given when it refuses
    simp only at h
    obtain ⟨rfl, rfl⟩ := Prod.mk.inj (Option.some.inj h)
    rw [strideAdjust_refused hr]
  · exact (Prod.mk.inj (Option.some.inj h)).2.symm

/-- **The cap.** A call whose share would take `all_share` past `STRIDE_MAX_SHARE`, counting
the caller's current share (none for an MLFQ process, that of the item `stride_find_item`
returns for a stride process), returns `-1` and changes nothing. -/
theorem setCpuShare_over_cap {s : Sys n} {p : ProcId} {share old : Int}
    (hold : (isMlfq (s.procs p) = true ∧ old = 0) ∨
      (isMlfq (s.procs p) = false ∧ isStride (s.procs p) = true ∧
        ∃ i, strideFindItem s.stride p = some i ∧ old = (s.stride.q.items i).share))
    (hcap : strideMaxShare < s.stride.allShare - old + share) :
    setCpuShare s p share = some (-1, s) := by
  have hno : ∀ o, strideMaxShare < s.stride.allShare - o + share →
      strideCanChangeShare s.stride o share = false := fun o ho => by
    simp [strideCanChangeShare]; omega
  rcases hold with ⟨hm, rfl⟩ | ⟨hm, hs, i, hi, rfl⟩
  · simp [setCpuShare, hm, hno 0 hcap]
  · simp only [setCpuShare, hm, hs, hi, strideAdjust, hno _ hcap, Bool.false_eq_true,
      if_false, if_true, Bool.not_false]
    split_ifs <;> rfl

/-! ## The end of a stride dispatch -/

/-- **The end of a stride dispatch swaps the top for the copy**, on any number of CPUs:
once the dispatched process has given the CPU back, alive, the round pops the item on top of
the heap at that moment, whichever it is, and pushes back the copy it took before the
dispatch, charged, with the share the copy has. -/
theorem resume_swaps_top {s s' : Sys n} {c : Fin n} {item : StrideItem} {p : ProcId}
    (hc : s.cpus c = .stride item p) (hp : item.proc = some p) (hz : (s.procs p).state ≠ .zombie)
    (hn : 0 < s.stride.q.size) (hle : s.stride.q.size ≤ nproc) (hpass : item.pass.SmallTwos)
    (hm : s.stride.maxPass.SmallTwos) (h0 : 0 < item.share) (h1 : item.share < 2 ^ 7)
    (he : step s (.resume c) = some s') :
    ∃ C pass, s.stride.q.items 1 ::ₘ C = s.stride.q.contents ∧
      s'.stride.q.contents = { item with pass } ::ₘ C ∧
      s'.stride.allShare = s.stride.allShare - (s.stride.q.items 1).share + item.share := by
  simp only [Xv6.step, hc] at he
  split_ifs at he
  obtain ⟨C, pass, hCR, -, -, -, hcont, hall⟩ :=
    stridePass_contents hn hle hpass hm h0 h1 (Or.inr ⟨p, hp, hz⟩) he
  exact ⟨C, pass, hCR, hcont, hall⟩

/-- Two CPUs, each entering `scheduler()` with its own `stride_init`, the application
processor first. CPU 1 runs `initproc` from the MLFQ item; it joins the stride queue with
share 10, and the round ends. CPU 1's next round dispatches it from its stride item; while it
runs, CPU 0's round finds the same item on top, not `RUNNABLE`, pops it and pushes its copy
back charged. When the process yields, CPU 1's round pops the top, now the MLFQ item, and
pushes its copy of the process's item: the MLFQ item is gone and the live process has two
items. -/
theorem mlfq_item_lost :
    ∃ s : Sys 2, Reach.run step (Sys.boot 2) [.init 1, .userinit, .init 0, .round 1,
        .act 1 (.setCpuShare 10), .resume 1, .round 1, .round 0, .act 1 .yield, .resume 1] =
        some s ∧
      (s.procs 0).state = .runnable ∧ s.stride.q.contents.countP (·.isMLFQ) = 0 ∧
      s.stride.q.contents.countP (·.OwnedBy 0) = 2 := by
  obtain ⟨s, hs, hv⟩ := Option.map_eq_some_iff.mp
    (show (Reach.run step (Sys.boot 2) [.init 1, .userinit, .init 0, .round 1,
        .act 1 (.setCpuShare 10), .resume 1, .round 1, .round 0, .act 1 .yield, .resume 1]).map
        (fun s => (decide ((s.procs 0).state = .runnable), s.stride.q.contents.countP (·.isMLFQ),
          s.stride.q.contents.countP (·.OwnedBy 0))) = some (true, 0, 2) by decide +kernel)
  simp only [Prod.mk.injEq, decide_eq_true_eq] at hv
  exact ⟨s, hs, hv⟩

/-- **The end of a stride dispatch on one CPU restores the copy**: after the round, the item
the dispatched process owns, if it is still alive, is the copy the round took before the
dispatch, with the share the item had then, and `all_share` has given up the share of the
live item for the copy's. -/
theorem resume_restores_copy {ok : Sys 1 → Sys 1 → Prop} {s s' : Sys 1} {item : StrideItem}
    {p : ProcId} (h : Reachable 1 ok s) (hc : s.cpus 0 = .stride item p)
    (hz : (s.procs p).state ≠ .zombie) (he : step s (.resume 0) = some s') :
    (∀ x ∈ s'.stride.q.contents, x.OwnedBy p → x.share = item.share) ∧
      s'.stride.allShare = s.stride.allShare - (s.stride.q.items 1).share + item.share := by
  have hi := inv_reachable h
  obtain ⟨hn, htop, -, hown, hg⟩ := hi.stride.strideTop item p hc
  obtain ⟨C, pass, hCR, hcont, hall⟩ := resume_swaps_top hc hown.2 hz hn hi.stride.size_le
    hg.2.2.1 (hi.stride.maxPass (by rw [hc]; simp)) hg.1 (by have := hg.2.1; omega) he
  refine ⟨fun x hx hxp => ?_, hall⟩
  rw [hcont] at hx
  rcases Multiset.mem_cons.mp hx with rfl | hx
  · rfl
  · -- the live item was the top, so no other item of `p` is left
    exact (hi.stride.not_owned_of_mem hCR htop hx hxp).elim

/-- `initproc` joins the stride queue with share 10 and is dispatched by its stride item; it
asks for share 20, which `set_cpu_share` grants (it returns 0), and yields. After the round
its one item still has share 10, and `all_share` is 22 + 10. -/
theorem share_update_lost :
    ∃ s s' : Sys 1, Reach.run step (Sys.boot 1)
        [.userinit, .init 0, .round 0, .act 0 (.setCpuShare 10), .resume 0, .round 0] = some s ∧
      runningOn s 0 = some 0 ∧ (s.procs 0).lev = strideProcLevel ∧
      (sysSetCpuShare s 0 20).map Prod.fst = some 0 ∧
      Reach.run step s [.act 0 (.setCpuShare 20), .act 0 .yield, .resume 0] = some s' ∧
      s'.cpus 0 = .idle ∧ s'.stride.q.contents.countP (·.OwnedBy 0) = 1 ∧
      (∀ x ∈ s'.stride.q.contents, x.OwnedBy 0 → x.share = 10) ∧ s'.stride.allShare = 32 := by
  -- both runs, evaluated by the kernel at once
  have hruns : (Reach.run step (Sys.boot 1)
        [.userinit, .init 0, .round 0, .act 0 (.setCpuShare 10), .resume 0, .round 0]).map
        (fun s => (runningOn s 0, (s.procs 0).lev, (sysSetCpuShare s 0 20).map Prod.fst)) =
        some (some 0, strideProcLevel, some 0) ∧
      (Reach.run step (Sys.boot 1)
        ([.userinit, .init 0, .round 0, .act 0 (.setCpuShare 10), .resume 0, .round 0] ++
          [.act 0 (.setCpuShare 20), .act 0 .yield, .resume 0])).map
        (fun s => (decide (s.cpus 0 = .idle), s.stride.q.contents.countP (·.OwnedBy 0),
          decide (∀ x ∈ s.stride.q.contents, x.OwnedBy 0 → x.share = 10), s.stride.allShare)) =
        some (true, 1, true, 32) := by
    decide +kernel
  obtain ⟨s, hs, hv⟩ := Option.map_eq_some_iff.mp hruns.1
  obtain ⟨s', hs', hv'⟩ := Option.map_eq_some_iff.mp hruns.2
  -- the second run is the first one followed by the call, the yield and the round's end
  rw [Reach.run_append, hs, Option.bind_some] at hs'
  simp only [Prod.mk.injEq, decide_eq_true_eq] at hv hv'
  exact ⟨s, s', hs, hv.1, hv.2.1, hv.2.2, hs', hv'⟩

end Xv6
