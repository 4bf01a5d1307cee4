import Xv6.Lib.Bytes
import Xv6.Lib.Reach

/-!
# The on-disk layout of `fs.h`, and the free bitmap of `fs.c`

A block is `BSIZE` bytes; an index block is read as `NINDIRECT` little-endian `uint`s
(`Block.word`). An inode's `addrs[NDIRECT+3]` holds `NDIRECT` direct blocks, then the roots of
the single, double and triple indirect trees.

The disk is a map from block numbers to blocks. The buffer cache and the log are left out:
every `bread` sees what the last `log_write` of that block wrote. The free bitmap is kept as the
bit it holds for each block (`FsState.used`): `BBLOCK(b, sb)`, byte `bi / 8` and mask
`1 << (bi % 8)` select that bit, one bit per block, and the bitmap blocks lie below the data
blocks that inodes point to.
-/

set_option autoImplicit false

namespace Xv6.Fs

/-- `BSIZE`. -/
def bsize : Nat := 512

/-- `NDIRECT`. -/
def ndirect : Nat := 10

/-- `NINDIRECT`: the `uint`s of a block. -/
def nindirect : Nat := bsize / 4

/-- `NDINDIRECT`. -/
def ndindirect : Nat := nindirect * nindirect

/-- `NTINDIRECT`. -/
def ntindirect : Nat := nindirect * ndindirect

/-- `MAXFILE`. -/
def maxfile : Nat := ndirect + nindirect + ndindirect + ntindirect

/-- The contents of a disk block. -/
abbrev Block := Fin bsize → UInt8

/-- `((uint *) bp->data)[j]`. -/
def Block.word (b : Block) (j : Fin nindirect) : Nat := Bytes.getWord b j

/-- The block holding the `uint`s `w`: what `wsect` writes from a `uint[NINDIRECT]` array. -/
def Block.ofWords (w : Fin nindirect → Nat) : Block := Bytes.ofWords w

/-- The zero-filled block. -/
def Block.zero : Block := fun _ => 0

@[simp] theorem Block.word_ofWords (w : Fin nindirect → Nat) (j : Fin nindirect) :
    (Block.ofWords w).word j = w j % 2 ^ 32 :=
  Bytes.getWord_ofWords w j

theorem Block.ofWords_congr {w w' : Fin nindirect → Nat} (h : ∀ j, w j % 2 ^ 32 = w' j % 2 ^ 32) :
    Block.ofWords w = Block.ofWords w' :=
  Bytes.ofWords_congr h

@[simp] theorem Block.word_zero (j : Fin nindirect) : Block.zero.word j = 0 := rfl

/-- An index of `addrs[NDIRECT+3]`. -/
abbrev AddrIdx := Fin (ndirect + 3)

/-- The three tree roots are numbered `0 … 2`. -/
scoped instance treeRoots_neZero : NeZero (3 : Nat) := ⟨by decide⟩

/-- `addrs[NDIRECT]`, `addrs[NDIRECT+1]`, `addrs[NDIRECT+2]`: the roots of the trees of one,
two and three levels of index blocks. -/
def indIdx (k : Fin 3) : AddrIdx := ⟨ndirect + k.val, by have := k.isLt; omega⟩

/-- A direct slot `addrs[i]`, `i < NDIRECT`. -/
def dirIdx (i : Fin ndirect) : AddrIdx := ⟨i.val, by omega⟩

/-- The fields of `struct dinode` (and of `struct inode`) that the block map uses. -/
structure DInode where
  size : Nat
  addrs : AddrIdx → Nat

/-- The device: its blocks and its free bitmap, with `sb.size`. -/
structure FsState where
  disk : Nat → Block
  /-- Whether the bitmap marks the block in use. -/
  used : Nat → Bool
  size : Nat

/-! ## `bfree` -/

/-- `bfree(dev, b)`: clear the bit of `b`; `none` is the panic `freeing free block`. -/
def bfree (fs : FsState) (b : Nat) : Option FsState :=
  if fs.used b then some { fs with used := Function.update fs.used b false } else none

@[simp] theorem bfree_eq_some {fs fs' : FsState} {b : Nat} :
    bfree fs b = some fs' ↔
      fs.used b = true ∧ fs' = { fs with used := Function.update fs.used b false } := by
  unfold bfree
  split
  · rename_i h
    constructor
    · intro h'
      exact ⟨h, (Option.some.inj h').symm⟩
    · rintro ⟨-, rfl⟩
      rfl
  · rename_i h
    simp [h]

/-- Freeing the blocks of a list, in order, with `bfree`. -/
def freeList (fs : FsState) (bs : List Nat) : Option FsState := Reach.run bfree fs bs

/-- **Freeing distinct used blocks** clears exactly their bits, and nothing panics. -/
theorem freeList_nodup {fs : FsState} {bs : List Nat} (hnd : bs.Nodup)
    (hused : ∀ b ∈ bs, fs.used b = true) :
    freeList fs bs = some { fs with used := fun b => fs.used b && decide (b ∉ bs) } := by
  induction bs generalizing fs with
  | nil => simp [freeList]
  | cons b bs ih =>
    obtain ⟨hb, hnd⟩ := List.nodup_cons.mp hnd
    have hstep : bfree fs b = some { fs with used := Function.update fs.used b false } :=
      bfree_eq_some.mpr ⟨hused b List.mem_cons_self, rfl⟩
    -- the bits of the rest are still set once `b` is freed
    have hrest : ∀ c ∈ bs, (Function.update fs.used b false) c = true := by
      intro c hc
      rw [Function.update_of_ne (by rintro rfl; exact hb hc)]
      exact hused c (List.mem_cons_of_mem b hc)
    rw [freeList, Reach.run_cons, hstep, Option.bind_some, ← freeList, ih hnd hrest]
    congr
    funext c
    by_cases hc : c = b
    · subst hc; simp
    · simp [hc]

theorem freeList_append (fs : FsState) (bs cs : List Nat) :
    freeList fs (bs ++ cs) = (freeList fs bs).bind fun fs => freeList fs cs :=
  Reach.run_append fs bs cs

/-- `bfree` writes only the bitmap. -/
theorem freeList_disk {fs fs' : FsState} {bs : List Nat} (h : freeList fs bs = some fs') :
    fs'.disk = fs.disk ∧ fs'.size = fs.size :=
  Reach.run_inv (P := fun (g : FsState) => g.disk = fs.disk ∧ g.size = fs.size) ⟨rfl, rfl⟩
    (fun _ _ g g' hg hs => by
      obtain ⟨-, rfl⟩ := bfree_eq_some.mp hs
      exact hg) h

end Xv6.Fs
