import Xv6.Fs.Mkfs

/-!
# `iappend` against `bmap`: what the kernel reads from the image

`iappend` of a fresh inode fills file blocks in order, with the blocks `freeblock`,
`freeblock + 1`, …: the `NDIRECT` direct blocks first, then the indirect block, then the blocks
it points to. After `k` file blocks the image and the inode are `appendImg` and `appendDin`
(`iappendLoop_round` is one round of the loop, `iappendLoop_stages` the run).

So for a content of at most `NDIRECT + NINDIRECT` blocks, `iappend` succeeds and the kernel's
`bmap`/`readi` read the content back (`iappend_readi`). One block more, and `iappend` indexes
`indirect[NINDIRECT]` (`iappend_overflow`): the kernel would look for that block under the
double indirect root `addrs[NDIRECT+1]`, which `iappend` never sets.
-/

set_option autoImplicit false

namespace Xv6.Fs

/-! ## The image after `k` file blocks -/

section Stages

variable (F : Nat)

/-- The block `iappend` takes for file block `i` of a fresh inode, from `freeblock = F`. -/
def appendPhys (i : Nat) : Nat := if i < ndirect then F + i else F + i + 1

/-- The indirect block, taken between file blocks `NDIRECT - 1` and `NDIRECT`. -/
def appendInd : Nat := F + ndirect

/-- `freeblock` after `k` file blocks. -/
def appendFree (k : Nat) : Nat := if k ≤ ndirect then F + k else F + k + 1

/-- The file block that a data block `b ≥ F` holds. -/
def appendFbn (b : Nat) : Nat := if b < F + ndirect then b - F else b - F - 1

/-- The inode after `k` file blocks, before `iappend` sets its size. -/
def appendDin (k : Nat) : DInode :=
  ⟨0, fun a => if a.val < ndirect then (if a.val < k then F + a.val else 0)
    else if a = indIdx 0 ∧ ndirect < k then appendInd F else 0⟩

/-- The indirect block after `k` file blocks. -/
def appendIndBlock (k : Nat) : Block :=
  Block.ofWords fun j => if ndirect + j.val < k then appendPhys F (ndirect + j.val) else 0

/-- File block `i` of the content `p`, zero past its end. -/
def fileBlock (p : List UInt8) (i : Nat) : Block := fun o => p.getD (i * bsize + o.val) 0

/-- The disk after `k` file blocks of `p` over `d`. -/
def appendDisk (d : Nat → Block) (p : List UInt8) (k : Nat) : Nat → Block := fun b =>
  if ndirect < k ∧ b = appendInd F then appendIndBlock F k
  else if F ≤ b ∧ b < appendFree F k then fileBlock p (appendFbn F b)
  else d b

end Stages

/-- The image after `k` file blocks of `p`. -/
def appendImg (img : Img) (p : List UInt8) (k : Nat) : Img :=
  { img with disk := appendDisk img.freeblock img.disk p k,
             freeblock := appendFree img.freeblock k }

/-- The blocks from `freeblock` on are zero, `freeblock` is not 0 (block 0 is the boot block),
and the blocks of a file of `NDIRECT + NINDIRECT` blocks fit in a `uint`. -/
structure FreshFrom (img : Img) : Prop where
  pos : 0 < img.freeblock
  room : img.freeblock + ndirect + nindirect + 1 < 2 ^ 32
  zero : ∀ b, img.freeblock ≤ b → img.disk b = Block.zero

/-- Every block number the file can take is kept by `xint` and by the `uint` slots. -/
theorem FreshFrom.mod_eq {img : Img} (hf : FreshFrom img) {b : Nat}
    (hb : b ≤ img.freeblock + ndirect + nindirect + 1) : b % 2 ^ 32 = b :=
  Nat.mod_eq_of_lt (by have := hf.room; omega)

/-! ## Reading the stages -/

section Read

variable {F : Nat} {d : Nat → Block} {p : List UInt8} {k b i : Nat}

theorem appendFree_of_le (h : k ≤ ndirect) : appendFree F k = F + k := if_pos h

theorem appendFree_of_gt (h : ndirect < k) : appendFree F k = F + k + 1 := if_neg (by omega)

theorem appendPhys_of_lt (h : i < ndirect) : appendPhys F i = F + i := if_pos h

theorem appendPhys_of_ge (h : ndirect ≤ i) : appendPhys F i = F + i + 1 := if_neg (by omega)

theorem appendInd_eq : appendInd F = F + ndirect := rfl

@[simp] theorem appendFbn_phys (i : Nat) : appendFbn F (appendPhys F i) = i := by
  unfold appendFbn appendPhys
  split_ifs <;> omega

theorem appendDisk_ind (h : ndirect < k) : appendDisk F d p k (appendInd F) = appendIndBlock F k := by
  simp [appendDisk, h]

theorem appendDisk_data (hne : b ≠ appendInd F ∨ k ≤ ndirect) (h1 : F ≤ b)
    (h2 : b < appendFree F k) : appendDisk F d p k b = fileBlock p (appendFbn F b) := by
  have : ¬(ndirect < k ∧ b = appendInd F) := by omega
  unfold appendDisk
  rw [if_neg this, if_pos ⟨h1, h2⟩]

theorem appendDisk_old (hne : b ≠ appendInd F ∨ k ≤ ndirect) (h : b < F ∨ appendFree F k ≤ b) :
    appendDisk F d p k b = d b := by
  have h1 : ¬(ndirect < k ∧ b = appendInd F) := by omega
  have h2 : ¬(F ≤ b ∧ b < appendFree F k) := by omega
  unfold appendDisk
  rw [if_neg h1, if_neg h2]

theorem appendDin_addrs_direct (F k : Nat) (i : Fin ndirect) :
    (appendDin F k).addrs (dirIdx i) = if i.val < k then F + i.val else 0 := by
  simp [appendDin, dirIdx]

theorem appendDin_addrs_ind (F k : Nat) :
    (appendDin F k).addrs (indIdx 0) = if ndirect < k then appendInd F else 0 := by
  simp [appendDin, indIdx]

/-- At `NDIRECT`, `iappend` sets the root `addrs[NDIRECT]` to the indirect block. -/
theorem appendDin_root (F : Nat) :
    { appendDin F ndirect with
        addrs := Function.update (appendDin F ndirect).addrs (indIdx 0) (appendInd F) } =
      appendDin F (ndirect + 1) := by
  simp only [appendDin]
  congr
  funext a
  by_cases ha : a = indIdx 0
  · subst ha
    simp [indIdx]
  · rw [Function.update_of_ne ha]
    simp only [ha, false_and, if_false]
    split_ifs <;> first | rfl | omega

/-- Past the indirect block, a block of the tree leaves the inode as it is. -/
theorem appendDin_succ_of_gt (h : ndirect < k) : appendDin F (k + 1) = appendDin F k := by
  have h1 : ndirect < k + 1 := by omega
  simp only [appendDin, h, h1, and_true]
  congr
  funext a
  split_ifs <;> first | rfl | omega

theorem appendFree_cases :
    (k ≤ ndirect ∧ appendFree F k = F + k) ∨ (ndirect < k ∧ appendFree F k = F + k + 1) := by
  unfold appendFree
  split_ifs <;> omega

theorem appendPhys_cases :
    (k < ndirect ∧ appendPhys F k = F + k) ∨ (ndirect ≤ k ∧ appendPhys F k = F + k + 1) := by
  unfold appendPhys
  split_ifs <;> omega

end Read

/-! ## The stages, one block further -/

section Succ

variable {F : Nat} {d : Nat → Block} {p : List UInt8} {k : Nat}

/-- A direct block: stage `k + 1` writes file block `k` at `appendPhys k`. -/
theorem appendDisk_succ_direct (hk : k < ndirect) :
    appendDisk F d p (k + 1) =
      Function.update (appendDisk F d p k) (appendPhys F k) (fileBlock p k) := by
  have hk1 : k + 1 ≤ ndirect := hk
  have hf := appendFree_cases (F := F) (k := k)
  have hf1 := appendFree_cases (F := F) (k := k + 1)
  have hp := appendPhys_cases (F := F) (k := k)
  funext b
  by_cases hb : b = appendPhys F k
  · subst hb
    rw [Function.update_self, appendDisk_data (.inr hk1) (by omega) (by omega), appendFbn_phys]
  · rw [Function.update_of_ne hb]
    -- the other data blocks are those of stage `k`
    by_cases hr : F ≤ b ∧ b < appendFree F k
    · rw [appendDisk_data (.inr hk1) hr.1 (by omega), appendDisk_data (.inr hk.le) hr.1 hr.2]
    · rw [appendDisk_old (.inr hk1) (by omega), appendDisk_old (.inr hk.le) (by omega)]

/-- A block of the indirect tree: stage `k + 1` also rewrites the indirect block. -/
theorem appendDisk_succ_ind (hk : ndirect ≤ k) :
    appendDisk F d p (k + 1) =
      Function.update (Function.update (appendDisk F d p k) (appendInd F) (appendIndBlock F (k + 1)))
        (appendPhys F k) (fileBlock p k) := by
  have hf := appendFree_cases (F := F) (k := k)
  have hf1 := appendFree_cases (F := F) (k := k + 1)
  have hp := appendPhys_cases (F := F) (k := k)
  have hi : appendInd F = F + ndirect := appendInd_eq
  funext b
  by_cases hb : b = appendPhys F k
  · subst hb
    rw [Function.update_self, appendDisk_data (.inl (by omega)) (by omega) (by omega),
      appendFbn_phys]
  · rw [Function.update_of_ne hb]
    by_cases hbi : b = appendInd F
    · subst hbi
      rw [Function.update_self, appendDisk_ind (by omega)]
    · rw [Function.update_of_ne hbi]
      by_cases hr : F ≤ b ∧ b < appendFree F k
      · rw [appendDisk_data (.inl hbi) hr.1 (by omega), appendDisk_data (.inl hbi) hr.1 hr.2]
      · rw [appendDisk_old (.inl hbi) (by omega), appendDisk_old (.inl hbi) (by omega)]

/-- The indirect block of stage `k + 1` is that of stage `k` with entry `k - NDIRECT` set to
`appendPhys k`. -/
theorem appendIndBlock_succ (hk : ndirect ≤ k) (hj : k - ndirect < nindirect) :
    Block.ofWords (Function.update (appendIndBlock F k).word ⟨k - ndirect, hj⟩ (appendPhys F k)) =
      appendIndBlock F (k + 1) := by
  apply Block.ofWords_congr
  intro j
  by_cases hjk : j = ⟨k - ndirect, hj⟩
  · subst hjk
    have hk' : ndirect + (k - ndirect) = k := by omega
    simp only [Function.update_self, hk', Nat.lt_succ_self, if_true]
  · have hv : ndirect + j.val ≠ k := fun h => hjk (Fin.ext (by dsimp only; omega))
    have hlt : ndirect + j.val < k ↔ ndirect + j.val < k + 1 := by omega
    rw [Function.update_of_ne hjk, appendIndBlock, Block.word_ofWords, Nat.mod_mod]
    simp only [hlt]

/-- Stage `NDIRECT` has not touched the indirect block: it is still zero. -/
theorem appendIndBlock_ndirect : (appendIndBlock F ndirect).word = Block.zero.word := by
  funext j
  rw [appendIndBlock, Block.word_ofWords, if_neg (by omega)]
  rfl

/-- An image is that of stage `k` when its fields are. -/
theorem eq_appendImg {img img' : Img} (hd : img'.disk = appendDisk img.freeblock img.disk p k)
    (hi : img'.inodes = img.inodes) (hf : img'.freeblock = appendFree img.freeblock k) :
    img' = appendImg img p k := by
  obtain ⟨d', i', f'⟩ := img'
  simp only at hd hi hf
  subst hd hi hf
  rfl

/-- Stage `0` is the image itself. -/
@[simp] theorem appendImg_zero (img : Img) : appendImg img p 0 = img := by
  have hd : appendDisk img.freeblock img.disk p 0 = img.disk := by
    funext b
    exact appendDisk_old (.inr (Nat.zero_le _)) (by rw [appendFree_of_le (Nat.zero_le _)]; omega)
  simp only [appendImg, hd, appendFree_of_le (Nat.zero_le ndirect), Nat.add_zero]

end Succ

/-! ## One block of the loop -/

/-- What `iappendBlock` leaves at stage `k`, before the loop writes the data: the block it
returns, `appendPhys k`, is still zero, and writing file block `k` there gives stage `k + 1`. -/
structure Taken (img : Img) (p : List UInt8) (k : Nat) (img1 : Img) : Prop where
  zero : img1.disk (appendPhys img.freeblock k) = Block.zero
  write : { img1 with disk := Function.update img1.disk (appendPhys img.freeblock k) (fileBlock p k) } =
    appendImg img p (k + 1)

section Step

variable {img : Img} {p : List UInt8}

/-- The blocks from `freeblock` on that stage `k` has not taken are still zero. -/
theorem FreshFrom.appendDisk_zero (hf : FreshFrom img) {k b : Nat}
    (hne : b ≠ appendInd img.freeblock ∨ k ≤ ndirect) (hb : appendFree img.freeblock k ≤ b) :
    appendDisk img.freeblock img.disk p k b = Block.zero := by
  have hfk := appendFree_cases (F := img.freeblock) (k := k)
  rw [appendDisk_old hne (.inr hb)]
  exact hf.zero _ (by omega)

/-- **A direct block**: slot `k` is null, takes `freeblock`, and the data goes there. -/
theorem iappendBlock_direct (hf : FreshFrom img) {k : Nat} (hk : k < ndirect) :
    ∃ img1, iappendBlock (appendImg img p k) (appendDin img.freeblock k) k =
        some (img1, appendDin img.freeblock (k + 1), appendPhys img.freeblock k) ∧
      Taken img p k img1 := by
  have hslot : (appendDin img.freeblock k).addrs (dirIdx ⟨k, hk⟩) = 0 := by
    rw [appendDin_addrs_direct]
    simp
  have hfree : appendFree img.freeblock k = img.freeblock + k := appendFree_of_le hk.le
  have hmod : (img.freeblock + k) % 2 ^ 32 = img.freeblock + k := hf.mod_eq (by omega)
  have hphys : appendPhys img.freeblock k = img.freeblock + k := appendPhys_of_lt hk
  have hk1 : k + 1 ≤ ndirect := hk
  refine ⟨{ appendImg img p k with freeblock := appendFree img.freeblock k + 1 }, ?_, ?_, ?_⟩
  · -- the slot gets `freeblock`; the inode is the one after `k + 1` blocks
    simp only [iappendBlock, dif_pos hk, allocSlot, hslot, if_true, appendImg, hfree, hmod,
      Function.update_self, hphys]
    congr
    funext a
    by_cases ha : a = dirIdx ⟨k, hk⟩
    · subst ha
      simp [dirIdx, hk]
    · rw [Function.update_of_ne ha]
      simp only [appendDin]
      have hv : a.val ≠ k := fun h => ha (Fin.ext h)
      split_ifs <;> first | rfl | omega
  · -- block `freeblock + k` is still zero
    show appendDisk img.freeblock img.disk p k (appendPhys img.freeblock k) = Block.zero
    rw [hphys]
    exact hf.appendDisk_zero (.inr hk.le) hfree.le
  · refine eq_appendImg (appendDisk_succ_direct hk).symm rfl ?_
    show appendFree img.freeblock k + 1 = _
    rw [hfree, appendFree_of_le hk1]
    rfl

/-- **The indirect block**: at `k = NDIRECT` the root `addrs[NDIRECT]` is null and takes
`freeblock`; entry 0 of the (zero) block then takes the next one. -/
theorem iappendBlock_root (hf : FreshFrom img) :
    ∃ img1, iappendBlock (appendImg img p ndirect) (appendDin img.freeblock ndirect) ndirect =
        some (img1, appendDin img.freeblock (ndirect + 1), appendPhys img.freeblock ndirect) ∧
      Taken img p ndirect img1 := by
  have hroot : (appendDin img.freeblock ndirect).addrs (indIdx 0) = 0 := by
    rw [appendDin_addrs_ind, if_neg (lt_irrefl _)]
  have hfree : appendFree img.freeblock ndirect = img.freeblock + ndirect := appendFree_of_le le_rfl
  have hm0 : (img.freeblock + ndirect) % 2 ^ 32 = img.freeblock + ndirect := hf.mod_eq (by omega)
  have hphys : appendPhys img.freeblock ndirect = img.freeblock + ndirect + 1 :=
    appendPhys_of_ge le_rfl
  have hm1 : appendPhys img.freeblock ndirect % 2 ^ 32 = appendPhys img.freeblock ndirect := by
    rw [hphys]
    exact hf.mod_eq (by omega)
  -- the root block is still zero: it reads as the indirect block of stage `NDIRECT`
  have hzero : (appendDisk img.freeblock img.disk p ndirect (img.freeblock + ndirect)).word =
      (appendIndBlock img.freeblock ndirect).word := by
    rw [appendIndBlock_ndirect, hf.appendDisk_zero (.inr le_rfl) hfree.le]
  have hj : ndirect - ndirect < nindirect := by simp [nindirect, bsize]
  have hentry : (appendIndBlock img.freeblock ndirect).word ⟨ndirect - ndirect, hj⟩ = 0 := by
    rw [appendIndBlock_ndirect]
    rfl
  have hx : (img.freeblock + ndirect + 1) % 2 ^ 32 = appendPhys img.freeblock ndirect := by
    rw [← hphys, hm1]
  have hne : appendPhys img.freeblock ndirect ≠ appendInd img.freeblock := by
    rw [hphys, appendInd_eq]
    omega
  refine ⟨{ appendImg img p ndirect with
      freeblock := img.freeblock + ndirect + 2
      disk := Function.update (appendImg img p ndirect).disk (appendInd img.freeblock)
        (appendIndBlock img.freeblock (ndirect + 1)) }, ?_, ?_, ?_⟩
  · simp only [iappendBlock, lt_irrefl, dif_neg, not_false_eq_true, allocSlot, hroot, ↓reduceIte,
      appendImg, hfree, hm0, Function.update_self, hzero, dif_pos hj, hentry, hx,
      appendIndBlock_succ le_rfl hj, appendInd_eq]
    rw [← appendDin_root]
    rfl
  · -- the data block is past the root, still zero
    show Function.update (appendDisk img.freeblock img.disk p ndirect) (appendInd img.freeblock) _
      (appendPhys img.freeblock ndirect) = Block.zero
    rw [Function.update_of_ne hne, hf.appendDisk_zero (.inr le_rfl) (by omega)]
  · refine eq_appendImg (appendDisk_succ_ind le_rfl).symm rfl ?_
    show img.freeblock + ndirect + 2 = _
    rw [appendFree_of_gt (by omega)]
    omega

/-- **An entry of the indirect block**: past `NDIRECT` the root is set, and entry
`k - NDIRECT`, still null, takes `freeblock`. -/
theorem iappendBlock_entry (hf : FreshFrom img) {k : Nat} (hk1 : ndirect < k)
    (hk2 : k < ndirect + nindirect) :
    ∃ img1, iappendBlock (appendImg img p k) (appendDin img.freeblock k) k =
        some (img1, appendDin img.freeblock (k + 1), appendPhys img.freeblock k) ∧
      Taken img p k img1 := by
  have hj : k - ndirect < nindirect := by omega
  have hroot : (appendDin img.freeblock k).addrs (indIdx 0) = appendInd img.freeblock := by
    rw [appendDin_addrs_ind, if_pos hk1]
  have hroot0 : appendInd img.freeblock ≠ 0 := by
    rw [appendInd_eq]
    have := hf.pos
    omega
  have hphys : appendPhys img.freeblock k = img.freeblock + k + 1 := appendPhys_of_ge hk1.le
  have hfree : appendFree img.freeblock k = appendPhys img.freeblock k := by
    rw [appendFree_of_gt hk1, hphys]
  have hm : appendPhys img.freeblock k % 2 ^ 32 = appendPhys img.freeblock k := by
    rw [hphys]
    exact hf.mod_eq (by omega)
  -- entry `k - NDIRECT` is still null at stage `k`
  have hentry : (appendIndBlock img.freeblock k).word ⟨k - ndirect, hj⟩ = 0 := by
    rw [appendIndBlock, Block.word_ofWords, if_neg (by dsimp only; omega)]
    rfl
  have hne : appendPhys img.freeblock k ≠ appendInd img.freeblock := by
    rw [hphys, appendInd_eq]
    omega
  refine ⟨{ appendImg img p k with
      freeblock := appendPhys img.freeblock k + 1
      disk := Function.update (appendImg img p k).disk (appendInd img.freeblock)
        (appendIndBlock img.freeblock (k + 1)) }, ?_, ?_, ?_⟩
  · simp only [iappendBlock, dif_neg (show ¬k < ndirect by omega), allocSlot, hroot, hroot0,
      ↓reduceIte, appendImg, appendDisk_ind hk1, dif_pos hj, hentry, hfree, hm,
      Function.update_self, appendIndBlock_succ hk1.le hj, appendDin_succ_of_gt hk1]
  · -- the data block is past the root, still zero
    show Function.update (appendDisk img.freeblock img.disk p k) (appendInd img.freeblock) _
      (appendPhys img.freeblock k) = Block.zero
    rw [Function.update_of_ne hne, hf.appendDisk_zero (.inl hne) hfree.le]
  · refine eq_appendImg (appendDisk_succ_ind hk1.le).symm rfl ?_
    show appendPhys img.freeblock k + 1 = _
    rw [appendFree_of_gt (by omega), hphys]
    omega

/-- **Every block of the first two levels**: one round's `iappendBlock` at stage `k`. -/
theorem iappendBlock_stage (hf : FreshFrom img) {k : Nat} (hk : k < ndirect + nindirect) :
    ∃ img1, iappendBlock (appendImg img p k) (appendDin img.freeblock k) k =
        some (img1, appendDin img.freeblock (k + 1), appendPhys img.freeblock k) ∧
      Taken img p k img1 := by
  rcases Nat.lt_trichotomy k ndirect with h | rfl | h
  · exact iappendBlock_direct hf h
  · exact iappendBlock_root hf
  · exact iappendBlock_entry hf h hk

end Step

/-! ## The loop -/

/-- The first write of a block, at offset 0 of a zero block, is file block `k`. -/
theorem bcopyInto_zero_fileBlock (p : List UInt8) (k : Nat) :
    bcopyInto Block.zero 0 ((p.drop (k * bsize)).take (min (p.length - k * bsize) bsize)) =
      fileBlock p k := by
  funext o
  have ho := o.isLt
  simp only [bcopyInto, fileBlock, Block.zero, List.length_take, List.length_drop, Nat.zero_le,
    true_and, Nat.zero_add, Nat.sub_zero]
  by_cases h : o.val < min (p.length - k * bsize) bsize
  · rw [if_pos (by omega), List.getD_eq_getElem?_getD, List.getD_eq_getElem?_getD,
      List.getElem?_take_of_lt h, List.getElem?_drop]
  · -- past the end of the content
    rw [if_neg (by omega), List.getD_eq_getElem?_getD, List.getElem?_eq_none (by omega)]
    rfl

theorem drop_min_length {α : Type} (l : List α) (m : Nat) :
    l.drop (min l.length m) = l.drop m := by
  rcases le_total m l.length with h | h
  · rw [min_eq_right h]
  · rw [min_eq_left h, List.drop_length, List.drop_eq_nil_of_le h]

section Loop

variable {img : Img} {p : List UInt8}

/-- **One round of the loop**: from stage `k`, with bytes left, the loop appends file block `k`
and is at stage `k + 1`. -/
theorem iappendLoop_round (hf : FreshFrom img) {k fuel : Nat} (hk : k < ndirect + nindirect)
    (hlen : k * bsize < p.length) :
    iappendLoop (fuel + 1) (appendImg img p k) (appendDin img.freeblock k)
        (min p.length (k * bsize)) (p.drop (k * bsize)) =
      iappendLoop fuel (appendImg img p (k + 1)) (appendDin img.freeblock (k + 1))
        (min p.length ((k + 1) * bsize)) (p.drop ((k + 1) * bsize)) := by
  have hoff : min p.length (k * bsize) = k * bsize := min_eq_right hlen.le
  have hfbn : k * bsize / bsize = k := Nat.mul_div_cancel k (by decide)
  have hmax : k < maxfile := by
    simp only [maxfile] at hk ⊢
    omega
  have hn1 : min (p.drop (k * bsize)).length ((k + 1) * bsize - k * bsize) =
      min (p.length - k * bsize) bsize := by
    rw [List.length_drop, Nat.succ_mul, Nat.add_sub_cancel_left]
  obtain ⟨b, bs, hq⟩ := List.exists_cons_of_length_pos
    (show 0 < (p.drop (k * bsize)).length by rw [List.length_drop]; omega)
  obtain ⟨img1, hb, ht⟩ := iappendBlock_stage hf hk (p := p)
  rw [hoff, hq, iappendLoop]
  simp only [hfbn, if_pos hmax, hb, Option.bind_some]
  rw [← hq, hn1, Nat.sub_self, ht.zero, bcopyInto_zero_fileBlock, ht.write, List.drop_drop]
  -- the offset and the bytes left of stage `k + 1`
  have hend : k * bsize + min (p.length - k * bsize) bsize = min p.length ((k + 1) * bsize) := by
    rw [Nat.succ_mul]
    omega
  rw [hend, drop_min_length]

/-- **The run of the loop**: `d` rounds from stage `k`, while every block they append still
holds bytes. -/
theorem iappendLoop_stages (hf : FreshFrom img) {k d fuel : Nat}
    (hK : k + d ≤ ndirect + nindirect) (hlen : (k + d) * bsize < p.length + bsize) :
    iappendLoop (fuel + d) (appendImg img p k) (appendDin img.freeblock k)
        (min p.length (k * bsize)) (p.drop (k * bsize)) =
      iappendLoop fuel (appendImg img p (k + d)) (appendDin img.freeblock (k + d))
        (min p.length ((k + d) * bsize)) (p.drop ((k + d) * bsize)) := by
  -- induction on the rounds left, the stage moving up
  induction d generalizing k with
  | zero => rfl
  | succ d ih =>
    have he : k + 1 + d = k + (d + 1) := Nat.add_right_comm k 1 d
    have hk : k < ndirect + nindirect := by omega
    have hl : k * bsize < p.length := by
      have : (k + 1) * bsize ≤ (k + (d + 1)) * bsize := Nat.mul_le_mul_right _ (by omega)
      rw [Nat.succ_mul] at this
      omega
    show iappendLoop (fuel + d + 1) _ _ _ _ = _
    rw [iappendLoop_round hf hk hl, ih (k := k + 1) (by omega) (by rw [he]; exact hlen), he]

theorem iappendLoop_nil (fuel : Nat) (img : Img) (din : DInode) (off : Nat) :
    iappendLoop fuel img din off [] = some (img, din, off) := by
  cases fuel <;> rfl

end Loop

/-! ## `iappend` of a fresh inode -/

/-- The file blocks of a content of `n` bytes. -/
def nblocks (n : Nat) : Nat := (n + bsize - 1) / bsize

theorem appendDin_zero (F : Nat) : appendDin F 0 = ⟨0, fun _ => 0⟩ := by
  simp only [appendDin, Nat.not_lt_zero, if_false, and_false, ite_self]

section Fresh

variable {img : Img} {p : List UInt8} {inum : Nat}

/-- The loop of `iappend` on a fresh inode, as the run from stage `0`. -/
theorem iappendLoop_fresh (hi : img.inodes inum = ⟨0, fun _ => 0⟩) {fuel : Nat} :
    iappendLoop fuel img (img.inodes inum) (img.inodes inum).size p =
      iappendLoop fuel (appendImg img p 0) (appendDin img.freeblock 0) (min p.length (0 * bsize))
        (p.drop (0 * bsize)) := by
  rw [hi, appendImg_zero, appendDin_zero, Nat.zero_mul, Nat.min_zero, List.drop_zero]

/-- **`iappend` of at most `NDIRECT + NINDIRECT` blocks** gives the image and the inode of the
last stage. -/
theorem iappend_fresh (hf : FreshFrom img) (hi : img.inodes inum = ⟨0, fun _ => 0⟩)
    (hn : p.length ≤ (ndirect + nindirect) * bsize) :
    iappend img inum p = some { appendImg img p (nblocks p.length) with
      inodes := Function.update img.inodes inum
        { appendDin img.freeblock (nblocks p.length) with size := p.length } } := by
  have hN : nblocks p.length ≤ p.length := by
    simp only [nblocks, bsize]
    omega
  have hK : 0 + nblocks p.length ≤ ndirect + nindirect := by
    simp only [nblocks, ndirect, nindirect, bsize] at hn ⊢
    omega
  have hlen : (0 + nblocks p.length) * bsize < p.length + bsize := by
    simp only [nblocks, bsize]
    omega
  -- after the last block the offset is the length and no byte is left
  have hend : min p.length (nblocks p.length * bsize) = p.length := by
    apply min_eq_left
    simp only [nblocks, bsize]
    omega
  have hdrop : p.drop (nblocks p.length * bsize) = [] := by
    apply List.drop_eq_nil_of_le
    simp only [nblocks, bsize]
    omega
  -- `p.length` rounds of fuel: one per block and the rest unused
  have hfuel :
      iappendLoop p.length = iappendLoop (p.length - nblocks p.length + nblocks p.length) := by
    rw [Nat.sub_add_cancel hN]
  unfold iappend
  dsimp only
  rw [iappendLoop_fresh hi, hfuel, iappendLoop_stages hf hK hlen, Nat.zero_add, hend, hdrop,
    iappendLoop_nil, Option.map_some]
  rfl

end Fresh

/-! ## What the kernel reads -/

section Kernel

variable {img : Img} {p : List UInt8} {inum : Nat}

/-- **`bmap`'s walk** finds file block `i < N` of stage `N` at `appendPhys i`: in the direct
slot `i`, or in entry `i - NDIRECT` of the block under `addrs[NDIRECT]`. -/
theorem lookup_append (hf : FreshFrom img) {d : Nat → Block} {N i : Nat}
    (hN : N ≤ ndirect + nindirect) (hi : i < N) :
    lookup (appendDisk img.freeblock d p N) (appendDin img.freeblock N) i =
      some (appendPhys img.freeblock i) := by
  have hpos := hf.pos
  unfold lookup
  by_cases h0 : i < ndirect
  · rw [dif_pos h0, appendDin_addrs_direct, if_pos hi, appendPhys_of_lt h0]
    exact present_eq_some.mpr ⟨by omega, rfl⟩
  · have h1 : i - ndirect < nindirect := by omega
    have he : ndirect + (i - ndirect) = i := by omega
    have hphys : appendPhys img.freeblock i = img.freeblock + i + 1 := appendPhys_of_ge (by omega)
    have hroot : present (appendInd img.freeblock) = some (appendInd img.freeblock) :=
      present_eq_some.mpr ⟨by rw [appendInd_eq]; omega, rfl⟩
    -- the entry, read back modulo `2 ^ 32`
    have hmod : appendPhys img.freeblock i % 2 ^ 32 = appendPhys img.freeblock i := by
      rw [hphys]
      exact hf.mod_eq (by omega)
    rw [dif_neg h0]
    dsimp only
    rw [dif_pos h1, appendDin_addrs_ind, if_pos (by omega), hroot, Option.bind_some,
      appendDisk_ind (by omega), appendIndBlock, Block.word_ofWords, if_pos (by dsimp only; omega)]
    dsimp only
    rw [he, hmod]
    exact present_eq_some.mpr ⟨by omega, rfl⟩

/-- The block at `appendPhys i` holds file block `i`. -/
theorem appendDisk_phys {F : Nat} {d : Nat → Block} {N i : Nat} (hi : i < N) :
    appendDisk F d p N (appendPhys F i) = fileBlock p i := by
  have hp := appendPhys_cases (F := F) (k := i)
  have hf := appendFree_cases (F := F) (k := N)
  have hind : appendInd F = F + ndirect := appendInd_eq
  rw [appendDisk_data (.inl (by omega)) (by omega) (by omega), appendFbn_phys]

/-- **The content of the last stage** is what the kernel finds through `bmap`. -/
theorem hasContent_append (hf : FreshFrom img) (hn : p.length ≤ (ndirect + nindirect) * bsize)
    (size : Nat) :
    HasContent (appendDisk img.freeblock img.disk p (nblocks p.length))
      { appendDin img.freeblock (nblocks p.length) with size := size } p := by
  intro j hj
  have hb : j / bsize < nblocks p.length := by
    simp only [nblocks, bsize]
    omega
  have hN : nblocks p.length ≤ ndirect + nindirect := by
    simp only [nblocks, ndirect, nindirect, bsize] at hn ⊢
    omega
  refine ⟨appendPhys img.freeblock (j / bsize), lookup_append hf hN hb, ?_⟩
  rw [appendDisk_phys hb, byteAt, dif_pos (Nat.mod_lt _ (by decide))]
  -- byte `j % BSIZE` of file block `j / BSIZE` is byte `j`
  show p.getD (j / bsize * bsize + j % bsize) 0 = p[j]
  rw [Nat.div_add_mod', List.getD_eq_getElem?_getD, List.getElem?_eq_getElem hj, Option.getD_some]

/-- **`mkfs` and the kernel agree up to `NDIRECT + NINDIRECT` blocks**: `iappend` of a fresh
inode succeeds, and every `readi` of the inode it writes, on a device holding the image's
blocks, returns the bytes of the content at that offset. -/
theorem iappend_readi (hf : FreshFrom img) (hi : img.inodes inum = ⟨0, fun _ => 0⟩)
    (hn : p.length ≤ (ndirect + nindirect) * bsize) :
    ∃ img', iappend img inum p = some img' ∧ (img'.inodes inum).size = p.length ∧
      ∀ fs : FsState, fs.disk = img'.disk → ∀ off n, off ≤ p.length → off + n < 2 ^ 32 →
        readi fs (img'.inodes inum) off n =
          some (↑(min n (p.length - off)), (p.drop off).take (min n (p.length - off)), fs,
            img'.inodes inum) := by
  refine ⟨_, iappend_fresh hf hi hn, by simp, ?_⟩
  intro fs hd off n hoff hw
  have hc := hasContent_append hf hn p.length
  rw [show appendDisk img.freeblock img.disk p (nblocks p.length) = fs.disk from hd.symm] at hc
  dsimp only
  rw [Function.update_self]
  exact readi_of_content hc rfl hoff hw

/-- Past the indirect block, `iappend` indexes `indirect[NINDIRECT]`, out of the array. -/
theorem iappendBlock_past (img' : Img) (F : Nat) :
    iappendBlock img' (appendDin F (ndirect + nindirect)) (ndirect + nindirect) = none := by
  have hroot : (appendDin F (ndirect + nindirect)).addrs (indIdx 0) = appendInd F := by
    rw [appendDin_addrs_ind, if_pos (by decide)]
  have hroot0 : appendInd F ≠ 0 := by
    rw [appendInd_eq]
    have : 0 < ndirect := by decide
    omega
  simp only [iappendBlock, dif_neg (show ¬ndirect + nindirect < ndirect by decide), allocSlot,
    hroot, hroot0, ↓reduceIte, Nat.add_sub_cancel_left, lt_irrefl, dif_neg, not_false_eq_true]

/-- **One block more, and `iappend` is undefined**: a content of more than
`NDIRECT + NINDIRECT` blocks reaches `indirect[NINDIRECT]` at file block `NDIRECT + NINDIRECT`,
which `assert(fbn < MAXFILE)` admits. -/
theorem iappend_overflow (hf : FreshFrom img) (hi : img.inodes inum = ⟨0, fun _ => 0⟩)
    (hn : (ndirect + nindirect) * bsize < p.length) : iappend img inum p = none := by
  have hK : 0 + (ndirect + nindirect) ≤ ndirect + nindirect := by omega
  have hlen : (0 + (ndirect + nindirect)) * bsize < p.length + bsize := by
    rw [Nat.zero_add]
    omega
  -- one round of fuel past the stages: the one that fails
  have hfuel : iappendLoop p.length =
      iappendLoop (p.length - (ndirect + nindirect) - 1 + 1 + (ndirect + nindirect)) := by
    have : ndirect + nindirect < p.length := by
      simp only [ndirect, nindirect, bsize] at hn ⊢
      omega
    have e : p.length - (ndirect + nindirect) - 1 + 1 + (ndirect + nindirect) = p.length := by
      omega
    rw [e]
  have hmax : ndirect + nindirect < maxfile := by decide
  obtain ⟨b, bs, hq⟩ := List.exists_cons_of_length_pos
    (show 0 < (p.drop ((ndirect + nindirect) * bsize)).length by rw [List.length_drop]; omega)
  unfold iappend
  dsimp only
  rw [iappendLoop_fresh hi, hfuel, iappendLoop_stages hf hK hlen, Nat.zero_add,
    min_eq_right hn.le, hq, iappendLoop]
  simp only [Nat.mul_div_cancel _ (show 0 < bsize by decide), if_pos hmax, iappendBlock_past,
    Option.bind_none, Option.map_none]

end Kernel

/-! ## What `iappend` never writes -/

section Roots

theorem allocSlot_addrs_of_ne {img : Img} {din : DInode} {k a : AddrIdx} (h : a ≠ k) :
    (allocSlot img din k).2.addrs a = din.addrs a := by
  unfold allocSlot
  split_ifs
  · exact Function.update_of_ne h _ _
  · rfl

/-- `iappendBlock` writes the direct slots and `addrs[NDIRECT]` only. -/
theorem iappendBlock_addrs {img img' : Img} {din din' : DInode} {fbn x : Nat}
    (h : iappendBlock img din fbn = some (img', din', x)) {a : AddrIdx} (ha : ndirect < a.val) :
    din'.addrs a = din.addrs a := by
  have hdir : ∀ i : Fin ndirect, a ≠ dirIdx i := fun i hi => by
    have := congrArg Fin.val hi
    simp only [dirIdx] at this
    omega
  have hind : a ≠ indIdx 0 := fun hi => by
    have := congrArg Fin.val hi
    simp only [indIdx] at this
    omega
  unfold iappendBlock at h
  split at h
  · -- a direct block: the slot is the only write
    generalize hs : allocSlot img din _ = r at h
    obtain ⟨img2, din2⟩ := r
    have hd : (img2, din2).2.addrs a = din.addrs a := by
      rw [← hs]
      exact allocSlot_addrs_of_ne (hdir _)
    dsimp only at h
    cases h
    exact hd
  · -- past the direct blocks, the root `addrs[NDIRECT]` is the only write to the inode
    generalize hs : allocSlot img din (indIdx 0) = r at h
    obtain ⟨img2, din2⟩ := r
    have hd : (img2, din2).2.addrs a = din.addrs a := by
      rw [← hs]
      exact allocSlot_addrs_of_ne hind
    dsimp only at h
    split_ifs at h <;> (cases h; exact hd)

/-- **The run**: the loop of `iappend` keeps every slot past `addrs[NDIRECT]`. -/
theorem iappendLoop_addrs {fuel : Nat} {img img' : Img} {din din' : DInode} {off off' : Nat}
    {p : List UInt8} (h : iappendLoop fuel img din off p = some (img', din', off')) {a : AddrIdx}
    (ha : ndirect < a.val) : din'.addrs a = din.addrs a := by
  induction fuel generalizing img din off p with
  | zero =>
    cases p with
    | nil =>
      cases h
      rfl
    | cons b bs => cases h
  | succ fuel ih =>
    cases p with
    | nil =>
      cases h
      rfl
    | cons b bs =>
      simp only [iappendLoop] at h
      split_ifs at h
      obtain ⟨⟨img2, din2, x⟩, hb, h⟩ := Option.bind_eq_some_iff.mp h
      rw [ih h, iappendBlock_addrs hb ha]

theorem iappend_addrs {img img' : Img} {inum : Nat} {p : List UInt8}
    (h : iappend img inum p = some img') {a : AddrIdx} (ha : ndirect < a.val) :
    (img'.inodes inum).addrs a = (img.inodes inum).addrs a := by
  unfold iappend at h
  obtain ⟨⟨img2, din2, off⟩, hl, rfl⟩ := Option.map_eq_some_iff.mp h
  dsimp only
  rw [Function.update_self]
  exact iappendLoop_addrs hl ha

/-- Without a double indirect root, `bmap`'s walk finds no block of that tree. -/
theorem lookup_double_of_root {disk : Nat → Block} {ip : DInode} {bn : Nat}
    (h : ip.addrs (indIdx 1) = 0) (h1 : ndirect + nindirect ≤ bn)
    (h2 : bn < ndirect + nindirect + ndindirect) : lookup disk ip bn = none := by
  unfold lookup
  rw [dif_neg (by omega)]
  dsimp only
  rw [dif_neg (by omega), dif_pos (by omega), h]
  rfl

/-- **No inode that `iappend` writes from a fresh one has a block where `bmap` looks past
`NDIRECT + NINDIRECT`**: the kernel reads those blocks from `addrs[NDIRECT+1]`, which `iappend`
never sets. -/
theorem iappend_lookup_double {img img' : Img} {inum : Nat} {p : List UInt8}
    (h : iappend img inum p = some img') (hi : img.inodes inum = ⟨0, fun _ => 0⟩)
    (disk : Nat → Block) {bn : Nat} (h1 : ndirect + nindirect ≤ bn)
    (h2 : bn < ndirect + nindirect + ndindirect) : lookup disk (img'.inodes inum) bn = none := by
  have hroot : (img'.inodes inum).addrs (indIdx 1) = 0 := by
    rw [iappend_addrs h (a := indIdx 1) (by decide), hi]
  exact lookup_double_of_root hroot h1 h2

end Roots

/-! ## A file one block too long -/

/-- The image `mkfs` starts from: every block zero, every inode free, and `freeblock = nmeta`,
`2 + nlog + ninodeblocks + nbitmap = 68` for `FSSIZE = 40000`. -/
def mkfsStart : Img := ⟨fun _ => Block.zero, fun _ => ⟨0, fun _ => 0⟩, 68⟩

/-- A content of `NDIRECT + NINDIRECT + 1` full blocks. -/
def bigFile : List UInt8 := List.replicate ((ndirect + nindirect + 1) * bsize) 1

theorem iappend_big_file_undefined :
    (∀ off < bigFile.length, off / bsize < maxfile) ∧ iappend mkfsStart 1 bigFile = none := by
  have hlen : bigFile.length = (ndirect + nindirect + 1) * bsize := List.length_replicate
  refine ⟨fun off hoff => ?_,
    iappend_overflow ⟨by decide, by decide, fun _ _ => rfl⟩ rfl ?_⟩
  · -- every file block of the content passes `assert(fbn < MAXFILE)`
    rw [hlen] at hoff
    simp only [ndirect, nindirect, bsize, maxfile, ndindirect, ntindirect] at hoff ⊢
    omega
  · rw [hlen, Nat.succ_mul]
    have : 0 < bsize := by decide
    omega

end Xv6.Fs
