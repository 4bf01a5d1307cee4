import Xv6.Fs.Tree

/-!
# What `bmap` does to the block tree

`BlockInv` is the invariant of a device and an inode under which `bmap` is correct: the
block-tree invariant, block 0 (the boot block) marked in use so that `balloc` never returns
the null pointer, and at most `2^32` blocks so that an entry holds every block number. Under
it, an allocation of `bmap` puts a block that was free, now zeroed and marked in use, at one
empty position of the tree, and writes only that block and the index block above it
(`Grows`): the tree gains that block and nothing else (`Grows.treeBlocks_perm`). So `bmap`
keeps the invariant, keeps every block of the tree at its position and the contents of every
data block (`Keeps`), and returns the block at the data position of `bn` (`bmap_spec`): the
block that `lookup` finds for `bn` on the device it leaves.
-/

set_option autoImplicit false

namespace Xv6.Fs

/-! ## 1. The invariant, and what the walk keeps -/

/-- The invariant of a device and an inode under which `bmap` is correct. -/
structure BlockInv (fs : FsState) (ip : DInode) : Prop extends TreeInv fs ip where
  zero_used : fs.used 0 = true
  size_le : fs.size ≤ 2 ^ 32

/-- `fs', ip'` keep the tree of `ip` on `fs`: every block at its position, the contents of
every data block, the size of the device and the size of the file. -/
structure Keeps (fs : FsState) (ip : DInode) (fs' : FsState) (ip' : DInode) : Prop where
  node : ∀ pos, pos.Valid → ∀ y, nodeOf fs.disk ip pos = some y → nodeOf fs'.disk ip' pos = some y
  data : ∀ bn y, lookup fs.disk ip bn = some y → fs'.disk y = fs.disk y
  size : fs'.size = fs.size
  isize : ip'.size = ip.size

section Keeps

variable {fs fs₁ fs₂ : FsState} {ip ip₁ ip₂ : DInode}

theorem Keeps.refl (fs : FsState) (ip : DInode) : Keeps fs ip fs ip where
  node _ _ _ h := h
  data _ _ _ := rfl
  size := rfl
  isize := rfl

theorem Keeps.lookup (K : Keeps fs ip fs₁ ip₁) {bn y : Nat} (h : lookup fs.disk ip bn = some y) :
    lookup fs₁.disk ip₁ bn = some y := by
  rw [lookup_eq_nodeOf] at h ⊢
  obtain ⟨d, hd, hy⟩ := Option.bind_eq_some_iff.mp h
  rw [hd, Option.bind_some]
  exact K.node d (dataPos_valid hd) y hy

theorem Keeps.trans (K₁ : Keeps fs ip fs₁ ip₁) (K₂ : Keeps fs₁ ip₁ fs₂ ip₂) :
    Keeps fs ip fs₂ ip₂ where
  node pos hv y h := K₂.node pos hv y (K₁.node pos hv y h)
  data bn y h := (K₂.data bn y (K₁.lookup h)).trans (K₁.data bn y h)
  size := K₂.size.trans K₁.size
  isize := K₂.isize.trans K₁.isize

end Keeps

/-! ## 2. One allocation -/

/-- One allocation of `bmap`: the block `b`, free before, is marked in use and now at the
position `q` that was empty; the disk changes only at `b` and at index blocks of the tree. -/
structure Grows (fs : FsState) (ip : DInode) (q : Pos) (b : Nat) (fs' : FsState) (ip' : DInode) :
    Prop where
  valid : q.Valid
  empty : nodeOf fs.disk ip q = none
  free : fs.used b = false
  used : fs'.used = Function.update fs.used b true
  size : fs'.size = fs.size
  isize : ip'.size = ip.size
  node : ∀ pos, pos.Valid →
    nodeOf fs'.disk ip' pos = if pos = q then some b else nodeOf fs.disk ip pos
  disk : ∀ y, fs'.disk y ≠ fs.disk y →
    y = b ∨ ∃ pos, pos.Valid ∧ pos.path.length < depth pos.slot ∧ nodeOf fs.disk ip pos = some y

section Grows

variable {fs fs' : FsState} {ip ip' : DInode} {q : Pos} {b : Nat}

/-- After an allocation the tree is the tree before and `b`, up to order. -/
theorem Grows.treeBlocks_perm (hg : Grows fs ip q b fs' ip') :
    (treeBlocks fs'.disk ip').Perm (b :: treeBlocks fs.disk ip) := by
  rw [treeBlocks_eq_filterMap, treeBlocks_eq_filterMap]
  refine PartialImage.perm_filterMap_insert hg.empty ?_ positions_nodup
    (mem_positions.mpr hg.valid) fun pos hpos hne => ?_
  · rw [hg.node q hg.valid, if_pos rfl]
  · rw [hg.node pos (mem_positions.mp hpos), if_neg hne]

theorem Grows.blockInv (h : BlockInv fs ip) (hg : Grows fs ip q b fs' ip') : BlockInv fs' ip' where
  nodup := by
    -- the new block was free, so it was not in the tree
    have hb : b ∉ treeBlocks fs.disk ip := fun hb => by
      have := h.used b hb
      rw [hg.free] at this
      cases this
    exact hg.treeBlocks_perm.nodup_iff.mpr (List.nodup_cons.mpr ⟨hb, h.nodup⟩)
  used y hy := by
    rw [hg.used]
    rcases List.mem_cons.mp (hg.treeBlocks_perm.subset hy) with rfl | hy
    · exact Function.update_self _ _ _
    · by_cases hyb : y = b
      · rw [hyb, Function.update_self]
      · rw [Function.update_of_ne hyb]
        exact h.used y hy
  zero_used := by
    rw [hg.used]
    by_cases h0 : (0 : Nat) = b
    · rw [h0, Function.update_self]
    · rw [Function.update_of_ne h0]
      exact h.zero_used
  size_le := hg.size ▸ h.size_le

theorem Grows.keeps (h : BlockInv fs ip) (hg : Grows fs ip q b fs' ip') : Keeps fs ip fs' ip' where
  node pos hv y hy := by
    have hne : pos ≠ q := by
      rintro rfl
      rw [hg.empty] at hy
      cases hy
    rw [hg.node pos hv, if_neg hne]
    exact hy
  data bn y hy := by
    by_contra hne
    rw [lookup_eq_nodeOf] at hy
    obtain ⟨d, hd, hdy⟩ := Option.bind_eq_some_iff.mp hy
    -- a changed block is the new one, which was free, or an index block, which is no data block
    rcases hg.disk y hne with rfl | ⟨pos, hv, hlt, hpos⟩
    · exact h.node_ne_of_free hg.free (dataPos_valid hd) hdy
    · have hpd := h.inj hv (dataPos_valid hd) hpos hdy
      subst hpd
      have := dataPos_full hd
      omega
  size := hg.size
  isize := hg.isize

end Grows

/-- One step of the walk of `bmap` at position `q`: the block `x` was there and nothing
changes, or `x` is allocated there. -/
def AllocStep (fs : FsState) (ip : DInode) (q : Pos) (x : Nat) (fs' : FsState) (ip' : DInode) :
    Prop :=
  (nodeOf fs.disk ip q = some x ∧ fs' = fs ∧ ip' = ip) ∨ Grows fs ip q x fs' ip'

/-- Where the walk of `bmap` from `fs, ip` stands: the invariant holds, the tree is kept, and
block `x` is at position `q`. -/
structure Reaches (fs : FsState) (ip : DInode) (q : Pos) (x : Nat) (fs' : FsState) (ip' : DInode) :
    Prop where
  inv : BlockInv fs' ip'
  keeps : Keeps fs ip fs' ip'
  node : nodeOf fs'.disk ip' q = some x

section Step

variable {fs fs₁ fs₂ : FsState} {ip ip₁ ip₂ : DInode} {q q' : Pos} {c x : Nat}

theorem AllocStep.reaches (h : BlockInv fs ip) (hs : AllocStep fs ip q x fs₁ ip₁) :
    Reaches fs ip q x fs₁ ip₁ := by
  rcases hs with ⟨hx, rfl, rfl⟩ | hg
  · exact ⟨h, Keeps.refl _ _, hx⟩
  · refine ⟨hg.blockInv h, hg.keeps h, ?_⟩
    rw [hg.node q hg.valid, if_pos rfl]

theorem Reaches.next (hr : Reaches fs ip q c fs₁ ip₁) (hs : AllocStep fs₁ ip₁ q' x fs₂ ip₂) :
    Reaches fs ip q' x fs₂ ip₂ :=
  have hr' := hs.reaches hr.inv
  ⟨hr'.inv, hr.keeps.trans hr'.keeps, hr'.node⟩

end Step

/-! ## 3. `balloc`, `slotOrAlloc`, `entryOrAlloc` -/

theorem balloc_eq_some {fs fs' : FsState} {b : Nat} (h : balloc fs = some (b, fs')) :
    b < fs.size ∧ fs.used b = false ∧
      fs' = { fs with used := Function.update fs.used b true,
                      disk := Function.update fs.disk b Block.zero } := by
  unfold balloc at h
  split at h
  · cases h
  · rename_i b' hf
    simp only [Option.some.injEq, Prod.mk.injEq] at h
    obtain ⟨rfl, rfl⟩ := h
    refine ⟨List.mem_range.mp (List.mem_of_find?_eq_some hf), ?_, rfl⟩
    simpa using List.find?_some hf

section Alloc

variable {fs fs' : FsState} {ip ip' : DInode}

/-- Under the invariant, a block that `balloc` returns is a non-null block number below `2^32`. -/
theorem BlockInv.balloc_ne_zero (h : BlockInv fs ip) {b : Nat} (hb : fs.used b = false) : b ≠ 0 := by
  rintro rfl
  rw [h.zero_used] at hb
  cases hb

theorem slotOrAlloc_step (h : BlockInv fs ip) {k : AddrIdx} {a : Nat}
    (hs : slotOrAlloc fs ip k = some (a, fs', ip')) : AllocStep fs ip ⟨k, []⟩ a fs' ip' := by
  unfold slotOrAlloc at hs
  dsimp only at hs
  split_ifs at hs with h0
  · -- a null slot: `balloc`, then the slot points at the new block
    obtain ⟨⟨b, fs1⟩, hb, he⟩ := Option.map_eq_some_iff.mp hs
    simp only [Prod.mk.injEq] at he
    obtain ⟨rfl, rfl, rfl⟩ := he
    obtain ⟨-, hfree, rfl⟩ := balloc_eq_some hb
    have hb0 := h.balloc_ne_zero hfree
    refine .inr ⟨by simp [Pos.Valid], by simp [nodeOf, h0, present], hfree, rfl, rfl, rfl, ?_, ?_⟩
    · intro pos hv
      by_cases hk : pos.slot = k
      · -- below the new slot: the new block, and nothing under it, since it is zeroed
        obtain ⟨slot, path⟩ := pos
        simp only at hk
        subst hk
        rcases path with _ | ⟨j, p⟩
        · simp [nodeOf, present, hb0]
        · simp [nodeOf, present, hb0, h0]
      · have hne : pos ≠ ⟨k, []⟩ := fun he => hk (by rw [he])
        rw [if_neg hne, ← h.nodeOf_update_free hfree Block.zero hv]
        simp only [nodeOf, Function.update_of_ne hk]
    · intro y hy
      left
      by_contra hyb
      exact hy (Function.update_of_ne hyb _ _)
  · cases hs
    exact .inl ⟨by simp [nodeOf, present, h0], rfl, rfl⟩

/-- The word `j` of an index block after `setWord`: the new block there, the old words
elsewhere. -/
theorem word_setWord (blk : Block) (j j' : Fin nindirect) {b : Nat} (hb : b < 2 ^ 32) :
    Block.word (Bytes.setWord blk j b) j' = if j' = j then b else blk.word j' := by
  unfold Block.word
  split_ifs with hj
  · subst hj
    exact (@Bytes.getWord_setWord_self nindirect blk j' b).trans (Nat.mod_eq_of_lt hb)
  · exact @Bytes.getWord_setWord_of_ne nindirect blk j j' b hj

/-- **The positions after an allocation below an index block**: `balloc` zeroes `b`, and the
entry `j` of `c`, the block at `q`, now points at it; the new block is at the child of `q`
through `j`, and every other position holds what it held. -/
theorem entryOrAlloc_node (h : BlockInv fs ip) {q : Pos} {c : Nat}
    (hc : nodeOf fs.disk ip q = some c) {j : Fin nindirect} (hv : (q.child j).Valid)
    (hx0 : (fs.disk c).word j = 0) {b : Nat} (hfree : fs.used b = false) (hb0 : b ≠ 0)
    (hb32 : b < 2 ^ 32) (hcb : c ≠ b) {pos : Pos} (hv' : pos.Valid) :
    nodeOf (Function.update (Function.update fs.disk b Block.zero) c
        (Bytes.setWord (fs.disk c) j b)) ip pos =
      if pos = q.child j then some b else nodeOf fs.disk ip pos := by
  have hq := hv.of_child
  -- the new disk: `b` zeroed by `balloc`, then `c` with its entry `j` set (stated by terms:
  -- `setWord` of a `Block` is typed through `4 * NINDIRECT = BSIZE`, which `rw` does not see)
  have hD : ∀ y, y ≠ c → y ≠ b → Function.update (Function.update fs.disk b Block.zero) c
      (Bytes.setWord (fs.disk c) j b) y = fs.disk y := fun y hyc hyb =>
    (Function.update_of_ne hyc _ _).trans (Function.update_of_ne hyb _ _)
  have hDc : Function.update (Function.update fs.disk b Block.zero) c
      (Bytes.setWord (fs.disk c) j b) c = Bytes.setWord (fs.disk c) j b :=
    Function.update_self _ _ _
  have hDb : Function.update (Function.update fs.disk b Block.zero) c
      (Bytes.setWord (fs.disk c) j b) b = Block.zero :=
    (Function.update_of_ne hcb.symm _ _).trans (Function.update_self _ _ _)
  generalize Function.update (Function.update fs.disk b Block.zero) c
    (Bytes.setWord (fs.disk c) j b) = D at hD hDc hDb ⊢
  -- the walk to `q` reads neither `c` nor `b`
  have hqD : nodeOf D ip q = some c := by
    rw [nodeOf_congr fun i hi y hy => ?_, hc]
    have hyc : y ≠ c := by
      rintro rfl
      exact h.take_ne hq hc hi hy
    have hyb : y ≠ b := by
      rintro rfl
      exact h.node_ne_of_free hfree (hq.take i) hy
    rw [hD y hyc hyb]
  by_cases hext : pos.slot = q.slot ∧ q.path ++ [j] <+: pos.path
  · -- below the new entry: the new block, and nothing under it, since it is zeroed
    obtain ⟨hs, r, hr⟩ := hext
    obtain ⟨slot, path⟩ := pos
    simp only at hs hr
    subst hs hr
    have hpos : (⟨q.slot, q.path ++ [j] ++ r⟩ : Pos) = ⟨q.slot, q.path ++ (j :: r)⟩ := by simp
    rw [hpos, nodeOf_append, nodeOf_append, hqD, hc]
    simp only [Option.bind_some, walk_cons]
    rw [hDc, word_setWord _ _ _ hb32, if_pos rfl, hx0]
    rcases r with _ | ⟨j', r⟩
    · simp [present, hb0, Pos.child]
    · have hne : (⟨q.slot, q.path ++ j :: j' :: r⟩ : Pos) ≠ q.child j := by simp [Pos.child]
      rw [if_neg hne]
      simp [present, hb0, hDb]
  · have hne : pos ≠ q.child j := by
      rintro rfl
      exact hext ⟨rfl, List.prefix_refl _⟩
    rw [if_neg hne]
    refine nodeOf_congr fun i hi y hy => ?_
    have hyb : y ≠ b := by
      rintro rfl
      exact h.node_ne_of_free hfree (hv'.take i) hy
    by_cases hyc : y = c
    · subst hyc
      -- reading `c` is reading the block at `q`; not its entry `j`, or `pos` would lie below
      -- the new entry
      have hpq := h.inj (hv'.take i) hq hy hc
      have hj : pos.path[i] ≠ j := by
        intro hj
        apply hext
        refine ⟨by rw [← hpq]; rfl, ?_⟩
        have htake : pos.path.take i = q.path := congrArg Pos.path hpq
        rw [← htake, ← hj, ← List.take_succ_eq_append_getElem hi]
        exact List.take_prefix _ _
      rw [hDc, word_setWord _ _ _ hb32, if_neg hj]
    · rw [hD y hyc hyb]

theorem entryOrAlloc_step (h : BlockInv fs ip) {q : Pos} {c : Nat}
    (hc : nodeOf fs.disk ip q = some c) {j : Fin nindirect} (hv : (q.child j).Valid) {x : Nat}
    (hs : entryOrAlloc fs c j = some (x, fs')) : AllocStep fs ip (q.child j) x fs' ip := by
  have hq := hv.of_child
  unfold entryOrAlloc at hs
  dsimp only at hs
  split_ifs at hs with hx0
  · -- a null entry: `balloc`, then the entry of `c` points at the new block
    obtain ⟨⟨b, fs1⟩, hb, he⟩ := Option.map_eq_some_iff.mp hs
    simp only [Prod.mk.injEq] at he
    obtain ⟨rfl, rfl⟩ := he
    obtain ⟨hlt, hfree, rfl⟩ := balloc_eq_some hb
    have hb0 := h.balloc_ne_zero hfree
    have hb32 : b < 2 ^ 32 := lt_of_lt_of_le hlt h.size_le
    have hcb : c ≠ b := fun hcb => h.node_ne_of_free hfree hq (hcb ▸ hc)
    refine .inr ⟨hv, by simp [nodeOf_child, hc, hx0, present], hfree, rfl, rfl, rfl, ?_, ?_⟩
    · intro pos hv'
      exact entryOrAlloc_node h hc hv hx0 hfree hb0 hb32 hcb hv'
    · intro y hy
      by_cases hyc : y = c
      · exact .inr ⟨q, hq, hv.length_lt_of_child, hyc ▸ hc⟩
      · left
        by_contra hyb
        exact hy ((Function.update_of_ne hyc _ _).trans (Function.update_of_ne hyb _ _))
  · cases hs
    exact .inl ⟨by simp [nodeOf_child, hc, present, hx0], rfl, rfl⟩

/-- The walk of `bmap` at its slot. -/
theorem reaches_slot (h : BlockInv fs ip) {k : AddrIdx} {α : Type} {f : Nat × FsState × DInode → Option α}
    {r : α} (hb : (slotOrAlloc fs ip k).bind f = some r) :
    ∃ a fs₁ ip₁, Reaches fs ip ⟨k, []⟩ a fs₁ ip₁ ∧ f (a, fs₁, ip₁) = some r := by
  obtain ⟨⟨a, fs₁, ip₁⟩, hs, hf⟩ := Option.bind_eq_some_iff.mp hb
  exact ⟨a, fs₁, ip₁, (slotOrAlloc_step h hs).reaches h, hf⟩

/-- The walk of `bmap` one entry further down. -/
theorem Reaches.entry {fs₁ : FsState} {ip₁ : DInode} {q : Pos} {c : Nat}
    (hr : Reaches fs ip q c fs₁ ip₁) {j : Fin nindirect} (hv : (q.child j).Valid) {α : Type}
    {f : Nat × FsState → Option α} {r : α} (hb : (entryOrAlloc fs₁ c j).bind f = some r) :
    ∃ x fs₂, Reaches fs ip (q.child j) x fs₂ ip₁ ∧ f (x, fs₂) = some r := by
  obtain ⟨⟨x, fs₂⟩, hs, hf⟩ := Option.bind_eq_some_iff.mp hb
  exact ⟨x, fs₂, hr.next (entryOrAlloc_step hr.inv hr.node hv hs), hf⟩

end Alloc

/-! ## 4. `bmap` -/

section Bmap

variable {fs fs' : FsState} {ip ip' : DInode}

/-- **What `bmap` does to the tree**: under the invariant, `bmap` keeps it, keeps every block
of the tree at its position and the contents of every data block, and returns the block that
`lookup` then finds for `bn`. -/
theorem bmap_spec (h : BlockInv fs ip) {bn x : Nat} (hb : bmap fs ip bn = some (x, fs', ip')) :
    BlockInv fs' ip' ∧ Keeps fs ip fs' ip' ∧ lookup fs'.disk ip' bn = some x := by
  suffices ∃ d, dataPos bn = some d ∧ Reaches fs ip d x fs' ip' by
    obtain ⟨d, hd, hr⟩ := this
    refine ⟨hr.inv, hr.keeps, ?_⟩
    rw [lookup_eq_nodeOf, hd, Option.bind_some]
    exact hr.node
  unfold bmap at hb
  unfold dataPos
  dsimp only at hb ⊢
  -- one case per tree, each walked from its slot one entry at a time
  split_ifs at hb ⊢ with h0 h1 h2 h3
  · exact ⟨_, rfl, (slotOrAlloc_step h hb).reaches h⟩
  · obtain ⟨a, fs₁, ip₁, r₁, hb⟩ := reaches_slot h hb
    obtain ⟨x', fs₂, r₂, hb⟩ := r₁.entry (by simp [Pos.Valid, Pos.child]) hb
    simp only [Option.pure_def, Option.some.injEq, Prod.mk.injEq] at hb
    obtain ⟨rfl, rfl, rfl⟩ := hb
    exact ⟨_, rfl, r₂⟩
  · obtain ⟨a, fs₁, ip₁, r₁, hb⟩ := reaches_slot h hb
    obtain ⟨a', fs₂, r₂, hb⟩ := r₁.entry (by simp [Pos.Valid, Pos.child]) hb
    obtain ⟨x', fs₃, r₃, hb⟩ := r₂.entry (by simp [Pos.Valid, Pos.child]) hb
    simp only [Option.pure_def, Option.some.injEq, Prod.mk.injEq] at hb
    obtain ⟨rfl, rfl, rfl⟩ := hb
    exact ⟨_, rfl, r₃⟩
  · obtain ⟨a, fs₁, ip₁, r₁, hb⟩ := reaches_slot h hb
    obtain ⟨a', fs₂, r₂, hb⟩ := r₁.entry (by simp [Pos.Valid, Pos.child]) hb
    obtain ⟨a'', fs₃, r₃, hb⟩ := r₂.entry (by simp [Pos.Valid, Pos.child]) hb
    obtain ⟨x', fs₄, r₄, hb⟩ := r₃.entry (by simp [Pos.Valid, Pos.child]) hb
    simp only [Option.pure_def, Option.some.injEq, Prod.mk.injEq] at hb
    obtain ⟨rfl, rfl, rfl⟩ := hb
    exact ⟨_, rfl, r₄⟩

/-- `bmap` of a file block it has mapped returns the same block again, and changes nothing. -/
theorem bmap_again (h : BlockInv fs ip) {bn x : Nat} (hb : bmap fs ip bn = some (x, fs', ip')) :
    bmap fs' ip' bn = some (x, fs', ip') :=
  bmap_of_lookup (bmap_spec h hb).2.2

/-- **Distinct file blocks get distinct disk blocks**, however `bmap` allocates them. -/
theorem bmap_ne {fs₂ : FsState} {ip₂ : DInode} (h : BlockInv fs ip) {bn bn' x x' : Nat}
    (hb : bmap fs ip bn = some (x, fs', ip')) (hb' : bmap fs' ip' bn' = some (x', fs₂, ip₂))
    (hne : bn ≠ bn') : x ≠ x' := by
  obtain ⟨h₁, -, hx⟩ := bmap_spec h hb
  obtain ⟨h₂, K₂, hx'⟩ := bmap_spec h₁ hb'
  rintro rfl
  exact hne (h₂.lookup_inj (K₂.lookup hx) hx')

/-- An empty inode on a device of 20 blocks of which block 0 is in use. -/
theorem blockInv_empty : BlockInv ⟨fun _ => Block.zero, fun b => decide (b = 0), 20⟩ ⟨0, fun _ => 0⟩ :=
  ⟨⟨by decide, by decide⟩, rfl, by decide⟩

/-- The first file block of the empty inode gets block 1, and mapping it again returns 1. -/
theorem bmap_again_first :
    ∃ fs₁ ip₁, bmap ⟨fun _ => Block.zero, fun b => decide (b = 0), 20⟩ ⟨0, fun _ => 0⟩ 0 =
        some (1, fs₁, ip₁) ∧ bmap fs₁ ip₁ 0 = some (1, fs₁, ip₁) :=
  ⟨_, _, rfl, bmap_again blockInv_empty rfl⟩

/-- File blocks 0 and 1 of the empty inode get blocks 1 and 2. -/
theorem bmap_ne_first_two :
    ∃ fs₁ ip₁ fs₂ ip₂, bmap ⟨fun _ => Block.zero, fun b => decide (b = 0), 20⟩ ⟨0, fun _ => 0⟩ 0 =
        some (1, fs₁, ip₁) ∧ bmap fs₁ ip₁ 1 = some (2, fs₂, ip₂) ∧ (1 : Nat) ≠ 2 := by
  have hne : (0 : Nat) ≠ 1 := by decide
  refine ⟨_, _, _, _, rfl, rfl, ?_⟩
  exact bmap_ne blockInv_empty rfl rfl hne

end Bmap

end Xv6.Fs
