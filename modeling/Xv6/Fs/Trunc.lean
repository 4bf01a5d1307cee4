import Xv6.Fs.Layout

/-!
# `itrunc`: freeing the block tree of an inode

`btrunc(dev, blockno, level)` goes over the `NINDIRECT` entries of an index block; for each
non-null one it first truncates the tree below it when `level > 1`, then `bfree`s it.
`itrunc` frees the direct blocks, then each indirect root after `btrunc` of its tree (of one,
two and three levels), clearing each slot, and sets the size to 0.

`treeBlocks` lists the blocks of an inode's tree, each index block after the blocks below it.
Since `bfree` writes only the bitmap, every index block reads the same all through `itrunc`,
and `itrunc` is `bfree` of `treeBlocks` in order, then the cleared inode (`itrunc_eq`). For
an inode whose blocks are distinct and marked used, that frees each of them once, leaves every
other bit, and does not panic.
-/

set_option autoImplicit false

namespace Xv6.Fs

/-! ## The code -/

/-- The loop of `btrunc` over index block `blockno`: for each non-null entry `a[j]`, `sub`
(the `btrunc(dev, a[j], level - 1)` of `level > 1`), then `bfree(dev, a[j])`. -/
def btruncLoop (sub : FsState → Nat → Option FsState) (fs : FsState) (blockno : Nat) :
    Option FsState :=
  (List.finRange nindirect).foldlM (fun fs j =>
    let x := (fs.disk blockno).word j
    if x = 0 then some fs else (sub fs x).bind fun fs => bfree fs x) fs

/-- `btrunc(dev, blockno, level)`. -/
def btrunc : Nat → FsState → Nat → Option FsState
  | l + 2, fs, blockno => btruncLoop (btrunc (l + 1)) fs blockno
  | _, fs, blockno => btruncLoop (fun fs _ => some fs) fs blockno

/-- The step of `itrunc` for slot `k`: if `ip->addrs[k]` is set, `pre` (the `btrunc` of an
indirect root, nothing for a direct block), `bfree` it, and clear the slot. -/
def freeSlot (pre : FsState → Nat → Option FsState) (k : AddrIdx) (p : FsState × DInode) :
    Option (FsState × DInode) :=
  let a := p.2.addrs k
  if a = 0 then some p
  else ((pre p.1 a).bind fun fs => bfree fs a).map fun fs =>
    (fs, { p.2 with addrs := Function.update p.2.addrs k 0 })

/-- `itrunc(ip)`, with the inode `iupdate` writes back. -/
def itrunc (fs : FsState) (ip : DInode) : Option (FsState × DInode) :=
  ((List.finRange ndirect).foldlM (fun p i => freeSlot (fun fs _ => some fs) (dirIdx i) p) (fs, ip)
    >>= freeSlot (btrunc 1) (indIdx 0) >>= freeSlot (btrunc 2) (indIdx 1)
    >>= freeSlot (btrunc 3) (indIdx 2)).map fun p => (p.1, { p.2 with size := 0 })

/-! ## The tree -/

/-- The non-null entries of index block `b`. -/
def entries (disk : Nat → Block) (b : Nat) : List Nat :=
  ((List.finRange nindirect).map fun j => (disk b).word j).filter (· ≠ 0)

/-- The blocks below index block `b` at the top of `level` levels of index blocks, each index
block after the blocks below it. -/
def below (disk : Nat → Block) : Nat → Nat → List Nat
  | l + 2, b => (entries disk b).flatMap fun x => below disk (l + 1) x ++ [x]
  | _, b => entries disk b

/-- The blocks slot `k` of an inode leads to: none for a null slot, else those below it in a
tree of `level` levels, then the slot's own block. -/
def slotBlocks (disk : Nat → Block) (level : Nat) (a : Nat) : List Nat :=
  if a = 0 then [] else (if level = 0 then [] else below disk level a) ++ [a]

/-- The blocks of an inode: the direct blocks, then the trees of the single, double and triple
indirect roots. -/
def treeBlocks (disk : Nat → Block) (ip : DInode) : List Nat :=
  (List.finRange ndirect).flatMap (fun i => slotBlocks disk 0 (ip.addrs (dirIdx i))) ++
    (List.finRange 3).flatMap fun k => slotBlocks disk (k.val + 1) (ip.addrs (indIdx k))

/-! ## `btrunc` frees the tree below its block -/

theorem freeList_singleton (fs : FsState) (b : Nat) : freeList fs [b] = bfree fs b := by
  rw [freeList, Reach.run_cons]
  cases bfree fs b <;> rfl

/-- What follows a run of frees reads the disk the run started from. -/
theorem freeList_bind_congr {α : Type} {fs : FsState} {L : List Nat} {f g : FsState → Option α}
    (h : ∀ fs', fs'.disk = fs.disk → f fs' = g fs') :
    (freeList fs L).bind f = (freeList fs L).bind g := by
  cases hL : freeList fs L with
  | none => rfl
  | some fs' => exact h fs' (freeList_disk hL).1

/-- **The loop of `btrunc`** over an index block of disk `d`, when the call below each entry
frees the blocks `S x` below it, frees for each entry in turn `S x` and then the entry. -/
theorem btruncLoop_eq {sub : FsState → Nat → Option FsState} {S : Nat → List Nat}
    {d : Nat → Block} (hsub : ∀ fs x, fs.disk = d → sub fs x = freeList fs (S x))
    {fs : FsState} (hd : fs.disk = d) (b : Nat) :
    btruncLoop sub fs b = freeList fs ((entries d b).flatMap fun x => S x ++ [x]) := by
  unfold btruncLoop entries
  -- induction on the entries still to visit, from any state on the same disk
  generalize List.finRange nindirect = J
  induction J generalizing fs with
  | nil => rfl
  | cons j J ih =>
    rw [List.foldlM_cons, List.map_cons]
    simp only [hd]
    by_cases hx : (d b).word j = 0
    · rw [if_pos hx, List.filter_cons_of_neg (by simpa using hx)]
      exact ih hd
    · rw [if_neg hx, List.filter_cons_of_pos (by simpa using hx), List.flatMap_cons,
        freeList_append, freeList_append, hsub fs _ hd]
      simp only [Option.bind_eq_bind, Option.bind_assoc, freeList_singleton]
      refine freeList_bind_congr fun fs1 hd1 => ?_
      -- the entry's own `bfree`, then the rest of the loop on the same disk
      cases h2 : bfree fs1 ((d b).word j) with
      | none => rfl
      | some fs2 =>
        obtain ⟨-, rfl⟩ := bfree_eq_some.mp h2
        exact ih (hd1.trans hd)

/-- **`btrunc` frees exactly the blocks below its block**, in the order `below` lists them,
panicking as soon as one of them is free already. -/
theorem btrunc_eq : ∀ (level : Nat) {fs : FsState} {d : Nat → Block}, fs.disk = d → ∀ b,
    btrunc level fs b = freeList fs (below d level b)
  | l + 2, _, _, hd, b => by
    rw [btrunc, below]
    exact btruncLoop_eq (fun _ x hx => btrunc_eq (l + 1) hx x) hd b
  | 0, _, _, hd, b => by
    simpa [btrunc, below] using
      @btruncLoop_eq (fun fs _ => some fs) (fun _ => []) _ (fun _ _ _ => rfl) _ hd b
  | 1, _, _, hd, b => by
    simpa [btrunc, below] using
      @btruncLoop_eq (fun fs _ => some fs) (fun _ => []) _ (fun _ _ _ => rfl) _ hd b

/-! ## `itrunc` frees the tree, in order -/

/-- **One slot of `itrunc`**: when `pre` frees the blocks `L` below the slot's block, the step
frees those and the block, and clears the slot; a null slot is left alone. -/
theorem freeSlot_eq {pre : FsState → Nat → Option FsState} {L : List Nat} {k : AddrIdx}
    {fs : FsState} {ip : DInode} (hpre : ip.addrs k ≠ 0 → pre fs (ip.addrs k) = freeList fs L) :
    freeSlot pre k (fs, ip) =
      (freeList fs (if ip.addrs k = 0 then [] else L ++ [ip.addrs k])).map
        fun fs' => (fs', { ip with addrs := Function.update ip.addrs k 0 }) := by
  unfold freeSlot
  by_cases ha : ip.addrs k = 0
  · -- clearing a null slot changes nothing
    have hu : Function.update ip.addrs k 0 = ip.addrs := by
      rw [← ha, Function.update_eq_self]
    simp only [ha, if_true, hu]
    rfl
  · simp only [if_neg ha]
    rw [hpre ha, freeList_append]
    simp only [freeList_singleton]

/-- A slot step after a run of frees, for a slot the run did not touch. -/
theorem freeList_map_freeSlot {pre : FsState → Nat → Option FsState} (level : Nat) {k : AddrIdx}
    {fs : FsState} {A : List Nat} {ip : DInode}
    (hpre : ∀ fs', fs'.disk = fs.disk → ip.addrs k ≠ 0 →
      pre fs' (ip.addrs k) = freeList fs' (if level = 0 then [] else below fs.disk level (ip.addrs k))) :
    ((freeList fs A).map fun fs' => (fs', ip)).bind (freeSlot pre k) =
      (freeList fs (A ++ slotBlocks fs.disk level (ip.addrs k))).map
        fun fs' => (fs', { ip with addrs := Function.update ip.addrs k 0 }) := by
  rw [Option.bind_map, freeList_append, Option.map_bind]
  refine freeList_bind_congr fun fs1 hd1 => ?_
  rw [Function.comp_apply, freeSlot_eq (hpre fs1 hd1)]
  rfl

theorem dirIdx_injective : Function.Injective dirIdx := by
  intro i j h
  have hv := congrArg Fin.val h
  exact Fin.ext hv

/-- **The loop over the direct slots** frees their blocks in order and clears them. -/
theorem directLoop_eq {J : List (Fin ndirect)} (hJ : J.Nodup) (fs : FsState) (ip : DInode) :
    J.foldlM (fun p i => freeSlot (fun fs _ => some fs) (dirIdx i) p) (fs, ip) =
      (freeList fs (J.flatMap fun i => slotBlocks fs.disk 0 (ip.addrs (dirIdx i)))).map
        fun fs' => (fs', { ip with addrs := fun k => if ∃ i ∈ J, dirIdx i = k then 0 else ip.addrs k }) := by
  induction J generalizing fs ip with
  | nil => rfl
  | cons i J ih =>
    obtain ⟨hi, hJ⟩ := List.nodup_cons.mp hJ
    rw [List.foldlM_cons, freeSlot_eq (L := []) (fun _ => rfl), List.flatMap_cons, freeList_append]
    simp only [Option.bind_eq_bind, Option.bind_map, Option.map_bind]
    refine freeList_bind_congr fun fs1 hd1 => ?_
    rw [Function.comp_apply, ih hJ, hd1]
    -- the slots of `J` are not `i`'s, so clearing `i` first leaves them
    have hne : ∀ i' ∈ J, dirIdx i' ≠ dirIdx i := fun i' hi' h =>
      hi (dirIdx_injective h ▸ hi')
    have hl : (J.flatMap fun i' => slotBlocks fs.disk 0
        (Function.update ip.addrs (dirIdx i) 0 (dirIdx i'))) =
        J.flatMap fun i' => slotBlocks fs.disk 0 (ip.addrs (dirIdx i')) :=
      List.flatMap_congr fun i' hi' => by rw [Function.update_of_ne (hne i' hi')]
    have hip : (fun k => if ∃ i' ∈ J, dirIdx i' = k then 0 else Function.update ip.addrs (dirIdx i) 0 k) =
        fun k => if ∃ i' ∈ i :: J, dirIdx i' = k then 0 else ip.addrs k := by
      funext k
      by_cases hk : dirIdx i = k
      · subst hk
        simp
      · by_cases hJk : ∃ i' ∈ J, dirIdx i' = k
        · simp [hJk]
        · simp [hJk, Function.update_of_ne (Ne.symm hk), hk]
    simp only [hl, hip]
    rfl

/-- **`itrunc` is `bfree` of the inode's tree, in order, then the zeroed inode.** It panics
exactly where that run of `bfree`s does. -/
theorem itrunc_eq (fs : FsState) (ip : DInode) :
    itrunc fs ip = (freeList fs (treeBlocks fs.disk ip)).map fun fs' => (fs', ⟨0, fun _ => 0⟩) := by
  -- the roots of the indirect trees are not direct slots
  have hroot : ∀ m : Fin 3, ¬ ∃ i, dirIdx i = indIdx m := by
    rintro m ⟨i, h⟩
    have := congrArg Fin.val h
    simp only [dirIdx, indIdx] at this
    omega
  have hbtrunc : ∀ (level : Nat) (a : Nat) (fs' : FsState), fs'.disk = fs.disk → level ≠ 0 →
      btrunc level fs' a = freeList fs' (if level = 0 then [] else below fs.disk level a) :=
    fun level a fs' hd hl => by rw [if_neg hl]; exact btrunc_eq level hd a
  unfold itrunc treeBlocks
  rw [directLoop_eq (List.nodup_finRange _)]
  simp only [Option.bind_eq_bind]
  rw [freeList_map_freeSlot 1 fun fs' hd _ => hbtrunc 1 _ fs' hd one_ne_zero,
    freeList_map_freeSlot 2 fun fs' hd _ => hbtrunc 2 _ fs' hd two_ne_zero,
    freeList_map_freeSlot 3 fun fs' hd _ => hbtrunc 3 _ fs' hd three_ne_zero,
    Option.map_map]
  -- the roots read the original slots, and in the end every slot is cleared
  have hD : ∀ m : Fin 3, (if ∃ i ∈ List.finRange ndirect, dirIdx i = indIdx m then 0
      else ip.addrs (indIdx m)) = ip.addrs (indIdx m) :=
    fun m => if_neg fun ⟨i, _, h⟩ => hroot m ⟨i, h⟩
  have h01 : indIdx 1 ≠ indIdx 0 := by decide
  have h02 : indIdx 2 ≠ indIdx 0 := by decide
  have h12 : indIdx 2 ≠ indIdx 1 := by decide
  have hfin3 : List.finRange 3 = [0, 1, 2] := by decide
  congr 1
  · funext fs'
    dsimp only [Function.comp_apply]
    congr
    funext k
    by_cases h2 : k = indIdx 2
    · rw [h2, Function.update_self]
    rw [Function.update_of_ne h2]
    by_cases h1 : k = indIdx 1
    · rw [h1, Function.update_self]
    rw [Function.update_of_ne h1]
    by_cases h0 : k = indIdx 0
    · rw [h0, Function.update_self]
    rw [Function.update_of_ne h0]
    -- a slot that is not a root is direct
    have hk : k.val < ndirect := by
      have hlt := k.isLt
      simp only [indIdx, Fin.ext_iff] at h0 h1 h2
      simp only [ndirect] at hlt h0 h1 h2 ⊢
      omega
    rw [if_pos ⟨⟨k.val, hk⟩, List.mem_finRange _, rfl⟩]
  · dsimp only
    simp only [Function.update_of_ne h01, Function.update_of_ne h02, Function.update_of_ne h12, hD,
      hfin3, List.flatMap_cons, List.flatMap_nil, List.append_nil, List.append_assoc]
    rfl

/-! ## Truncating a well-formed tree -/

/-- The block-tree invariant of an inode: the blocks of its tree are distinct and the bitmap
marks each of them in use. -/
structure TreeInv (fs : FsState) (ip : DInode) : Prop where
  nodup : (treeBlocks fs.disk ip).Nodup
  used : ∀ b ∈ treeBlocks fs.disk ip, fs.used b = true

/-- **`itrunc` frees exactly the tree.** For an inode with the block-tree invariant, `itrunc`
does not panic, clears the bit of every block of the tree, leaves every other bit and the
disk, and ends with every slot of `addrs` zero and size 0. -/
theorem itrunc_frees_tree {fs : FsState} {ip : DInode} (h : TreeInv fs ip) :
    itrunc fs ip =
      some ({ fs with used := fun b => fs.used b && decide (b ∉ treeBlocks fs.disk ip) },
        ⟨0, fun _ => 0⟩) := by
  rw [itrunc_eq, freeList_nodup h.nodup h.used]
  rfl

/-- A device whose block 40 is the single indirect block of an inode, holding data block 41;
the inode's one direct block is 30. -/
def treeDemoFs : FsState :=
  ⟨fun b => if b = 40 then Block.ofWords fun j => if j.val = 0 then 41 else 0 else Block.zero,
    fun b => b = 30 || b = 40 || b = 41, 1000⟩

def treeDemoIp : DInode := ⟨2 * bsize, fun k => if k.val = 0 then 30 else if k = indIdx 0 then 40 else 0⟩

theorem itrunc_frees_tree_demo :
    TreeInv treeDemoFs treeDemoIp ∧ treeBlocks treeDemoFs.disk treeDemoIp = [30, 41, 40] ∧
      itrunc treeDemoFs treeDemoIp =
        some ({ treeDemoFs with
          used := fun b => treeDemoFs.used b && decide (b ∉ treeBlocks treeDemoFs.disk treeDemoIp) },
          ⟨0, fun _ => 0⟩) :=
  have hinv : TreeInv treeDemoFs treeDemoIp := ⟨by decide, by decide⟩
  ⟨hinv, by decide, itrunc_frees_tree hinv⟩

end Xv6.Fs
