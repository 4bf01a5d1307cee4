import Xv6.Fs.Write
import Xv6.Lib.Count

/-!
# When `bmap` and `writei` do not panic

`balloc` panics (`balloc: out of blocks`) when the bitmap marks every block below `sb.size`
in use, and `bmap` panics past `MAXFILE`. `freeCount` is the number of free blocks. `balloc`
succeeds while one is left and takes exactly one (`balloc_of_free`). A `bmap` of a file block
below `MAXFILE` calls it at most four times, for the slot and for the entries of up to three
index blocks, so it succeeds with four free blocks and takes at most four (`bmap_of_free`).
Each round of `writei` calls `bmap` for the block at its offset. Where the file has that block
`bmap` only reads (`bmap_of_lookup`); else the block starts at the end of the file and is one
that the write adds to it (`bmap_round_of_free`). So a `writei` that passes its checks never
panics while four blocks are free for each block it adds to the file, and takes no more
(`writei_of_free`): overwriting a file's bytes takes none.

`Uses k fs fs'` says that going from `fs` to `fs'` kept the size of the device and took at
most `k` free blocks; it composes along the calls (`Uses.trans`).
-/

set_option autoImplicit false

namespace Xv6.Fs

/-- The number of blocks below `sb.size` that the bitmap marks free. -/
def freeCount (fs : FsState) : Nat := Count.count fun b : Fin fs.size => !fs.used b

/-- From `fs` to `fs'` the device kept its size and lost at most `k` free blocks. -/
structure Uses (k : Nat) (fs fs' : FsState) : Prop where
  size : fs'.size = fs.size
  free : freeCount fs ≤ freeCount fs' + k

theorem Uses.refl (k : Nat) (fs : FsState) : Uses k fs fs := ⟨rfl, Nat.le_add_right _ _⟩

theorem Uses.trans {j k : Nat} {fs₁ fs₂ fs₃ : FsState} (h₁ : Uses j fs₁ fs₂) (h₂ : Uses k fs₂ fs₃) :
    Uses (j + k) fs₁ fs₃ :=
  ⟨h₂.size.trans h₁.size, by have := h₁.free; have := h₂.free; omega⟩

theorem Uses.mono {j k : Nat} {fs fs' : FsState} (h : Uses j fs fs') (hjk : j ≤ k) : Uses k fs fs' :=
  ⟨h.size, by have := h.free; omega⟩

/-- Writing blocks does not change which blocks are free. -/
@[simp] theorem freeCount_disk (fs : FsState) (d : Nat → Block) :
    freeCount { fs with disk := d } = freeCount fs := rfl

theorem Uses.disk {k : Nat} {fs fs' : FsState} (h : Uses k fs fs') (d : Nat → Block) :
    Uses k fs { fs' with disk := d } :=
  ⟨h.size, by rw [freeCount_disk]; exact h.free⟩

/-! ## `balloc` -/

/-- Marking a free block used takes one free block. -/
theorem freeCount_setUsed {fs : FsState} {b : Nat} (hb : b < fs.size) (hfree : fs.used b = false)
    (d : Nat → Block) :
    freeCount { fs with used := Function.update fs.used b true, disk := d } + 1 = freeCount fs := by
  -- the new family of free blocks is the old one with block `b` turned off
  have hfun : (fun c : Fin fs.size => !Function.update fs.used b true c.val) =
      Function.update (fun c : Fin fs.size => !fs.used c.val) ⟨b, hb⟩ false := by
    funext c
    by_cases hc : c = ⟨b, hb⟩
    · subst hc
      simp
    · have hcb : c.val ≠ b := fun h => hc (Fin.ext h)
      simp [Function.update_of_ne hc, Function.update_of_ne hcb]
  have hup := Count.count_update (fun c : Fin fs.size => !fs.used c.val) ⟨b, hb⟩ false
  simp only [hfree, Bool.not_false, Bool.toNat_true, Bool.toNat_false, Nat.add_zero] at hup
  unfold freeCount
  dsimp only
  rw [hfun]
  exact hup

theorem balloc_isSome {fs : FsState} (h : 0 < freeCount fs) : (balloc fs).isSome := by
  obtain ⟨i, hi⟩ := Count.count_pos.mp h
  unfold balloc
  cases hf : (List.range fs.size).find? (fun b => !fs.used b) with
  | none =>
    have := List.find?_eq_none.mp hf i.val (List.mem_range.mpr i.isLt)
    exact absurd hi this
  | some b => rfl

/-- **`balloc` succeeds while a block is free**, and takes one. -/
theorem balloc_of_free {fs : FsState} (h : 0 < freeCount fs) :
    ∃ b fs', balloc fs = some (b, fs') ∧ Uses 1 fs fs' := by
  obtain ⟨⟨b, fs'⟩, hb⟩ := Option.isSome_iff_exists.mp (balloc_isSome h)
  obtain ⟨hlt, hfree, rfl⟩ := balloc_eq_some hb
  exact ⟨b, _, hb, rfl, (freeCount_setUsed hlt hfree _).symm.le⟩

/-! ## `bmap` -/

theorem slotOrAlloc_of_free (fs : FsState) (ip : DInode) (k : AddrIdx) (h : 0 < freeCount fs) :
    ∃ a fs' ip', slotOrAlloc fs ip k = some (a, fs', ip') ∧ Uses 1 fs fs' := by
  unfold slotOrAlloc
  dsimp only
  split_ifs
  · obtain ⟨b, fs', hb, hu⟩ := balloc_of_free h
    exact ⟨b, fs', _, by rw [hb]; rfl, hu⟩
  · exact ⟨_, fs, ip, rfl, Uses.refl 1 fs⟩

theorem entryOrAlloc_of_free (fs : FsState) (addr : Nat) (j : Fin nindirect) (h : 0 < freeCount fs) :
    ∃ x fs', entryOrAlloc fs addr j = some (x, fs') ∧ Uses 1 fs fs' := by
  unfold entryOrAlloc
  dsimp only
  split_ifs
  · obtain ⟨b, fs', hb, hu⟩ := balloc_of_free h
    exact ⟨b, _, by rw [hb]; rfl, hu.disk _⟩
  · exact ⟨_, fs, rfl, Uses.refl 1 fs⟩

/-- **`bmap` succeeds with four free blocks** for any file block below `MAXFILE`, and takes
at most four. -/
theorem bmap_of_free (fs : FsState) (ip : DInode) {bn : Nat} (hbn : bn < maxfile)
    (h : 4 ≤ freeCount fs) :
    ∃ x fs' ip', bmap fs ip bn = some (x, fs', ip') ∧ Uses 4 fs fs' := by
  unfold bmap
  dsimp only
  -- one case per tree; each allocation leaves enough free blocks for the next
  split_ifs with h0 h1 h2 h3
  · obtain ⟨a, fs₁, ip₁, hs, hu₁⟩ := slotOrAlloc_of_free fs ip (dirIdx ⟨bn, h0⟩) (by omega)
    exact ⟨a, fs₁, ip₁, hs, hu₁.mono (by decide)⟩
  · obtain ⟨a, fs₁, ip₁, hs, hu₁⟩ := slotOrAlloc_of_free fs ip (indIdx 0) (by omega)
    obtain ⟨x, fs₂, he, hu₂⟩ := entryOrAlloc_of_free fs₁ a ⟨bn - ndirect, h1⟩
      (by have := hu₁.free; omega)
    refine ⟨x, fs₂, ip₁, ?_, (hu₁.trans hu₂).mono (by decide)⟩
    simp [hs, he]
  · obtain ⟨a, fs₁, ip₁, hs, hu₁⟩ := slotOrAlloc_of_free fs ip (indIdx 1) (by omega)
    obtain ⟨a₂, fs₂, he₂, hu₂⟩ := entryOrAlloc_of_free fs₁ a
      ⟨(bn - ndirect - nindirect) / nindirect, div_lt_nindirect h2⟩ (by have := hu₁.free; omega)
    obtain ⟨x, fs₃, he₃, hu₃⟩ := entryOrAlloc_of_free fs₂ a₂
      ⟨(bn - ndirect - nindirect) % nindirect, mod_lt_nindirect _⟩
      (by have := hu₁.free; have := hu₂.free; omega)
    refine ⟨x, fs₃, ip₁, ?_, ((hu₁.trans hu₂).trans hu₃).mono (by decide)⟩
    simp [hs, he₂, he₃]
  · obtain ⟨a, fs₁, ip₁, hs, hu₁⟩ := slotOrAlloc_of_free fs ip (indIdx 2) (by omega)
    obtain ⟨a₂, fs₂, he₂, hu₂⟩ := entryOrAlloc_of_free fs₁ a
      ⟨(bn - ndirect - nindirect - ndindirect) / ndindirect, div_lt_ndindirect h3⟩
      (by have := hu₁.free; omega)
    obtain ⟨a₃, fs₃, he₃, hu₃⟩ := entryOrAlloc_of_free fs₂ a₂
      ⟨(bn - ndirect - nindirect - ndindirect) % ndindirect / nindirect, mod_div_lt_nindirect _⟩
      (by have := hu₁.free; have := hu₂.free; omega)
    obtain ⟨x, fs₄, he₄, hu₄⟩ := entryOrAlloc_of_free fs₃ a₃
      ⟨(bn - ndirect - nindirect - ndindirect) % nindirect, mod_lt_nindirect _⟩
      (by have := hu₁.free; have := hu₂.free; have := hu₃.free; omega)
    exact ⟨x, fs₄, ip₁, by simp [hs, he₂, he₃, he₄], (hu₁.trans hu₂).trans hu₃ |>.trans hu₄⟩
  · -- past the triple-indirect tree: excluded by `bn < MAXFILE`
    exact absurd hbn (by simp only [maxfile]; omega)

/-! ## `writei` -/

/-- The blocks of data a file of `n` bytes has, `⌈n / BSIZE⌉`. A write that ends at `e` in a
file of `len` bytes adds `blocksFor e - blocksFor len` of them. -/
def blocksFor (n : Nat) : Nat := (n + bsize - 1) / bsize

theorem blocksFor_mono {m n : Nat} (h : m ≤ n) : blocksFor m ≤ blocksFor n :=
  Nat.div_le_div_right (by omega)

/-- The blocks a write ending at `e` adds to a file of `len` bytes, counted from the length it
leaves. -/
theorem blocksFor_max_sub (len e : Nat) :
    blocksFor (max len e) - blocksFor len = blocksFor e - blocksFor len := by
  rcases le_total len e with h | h
  · rw [max_eq_right h]
  · have := blocksFor_mono h
    rw [max_eq_left h]
    omega

/-- The blocks added in two steps add up. -/
theorem blocksFor_sub_add {a b c : Nat} (hab : a ≤ b) (hbc : b ≤ c) :
    blocksFor b - blocksFor a + (blocksFor c - blocksFor b) = blocksFor c - blocksFor a := by
  have := blocksFor_mono hab
  have := blocksFor_mono hbc
  omega

/-- A file block where `lookup` finds nothing holds no byte of the file: it starts at or past
the end. -/
theorem HasContent.le_of_lookup_none {disk : Nat → Block} {ip : DInode} {data : List UInt8}
    (hc : HasContent disk ip data) {bn : Nat} (hn : lookup disk ip bn = none) :
    data.length ≤ bn * bsize := by
  by_contra hlt
  obtain ⟨y, hy, -⟩ := hc (bn * bsize) (by omega)
  rw [Nat.mul_div_cancel _ (by decide), hn] at hy
  cases hy

/-- A round of `n` bytes left that starts a block at the end of a file of `len` bytes and writes
`m ≥ 1` of them: that block is one of those the write adds, and the rest add the others. -/
theorem blocksFor_round {len off n m : Nat} (hend : len ≤ off / bsize * bsize) (hoff : off ≤ len)
    (hm1 : 1 ≤ m) (hmn : m ≤ n) :
    1 + (blocksFor (off + n) - blocksFor (off + m)) ≤ blocksFor (off + n) - blocksFor len := by
  unfold blocksFor
  simp only [bsize] at hend ⊢
  omega

section Writei

variable {fs : FsState} {ip : DInode} {off : Nat} {data : List UInt8}

/-- **The `bmap` of a round of `writei`** in a file holding `data`, from an offset within it.
Where `lookup` finds the block, `bmap` only reads it and takes nothing; else the block starts
at the end of the file, is one of those the write adds, and `bmap` takes at most four. Either
way it takes no more than the blocks the write adds before the round and no longer adds
after it, four each. -/
theorem bmap_round_of_free (hc : HasContent fs.disk ip data) (hoff : off ≤ data.length)
    (hbn : off / bsize < maxfile) {n m : Nat} (hm1 : 1 ≤ m) (hmn : m ≤ n) (hfree : 4 * (blocksFor (off + n) - blocksFor data.length) ≤ freeCount fs) :
    ∃ x fs₁ ip₁ j, bmap fs ip (off / bsize) = some (x, fs₁, ip₁) ∧ Uses j fs fs₁ ∧
      j + 4 * (blocksFor (off + n) - blocksFor (max data.length (off + m))) ≤
        4 * (blocksFor (off + n) - blocksFor data.length) := by
  cases hl : lookup fs.disk ip (off / bsize) with
  | some x =>
    -- a block the file has: no allocation, and the round adds no block
    have := blocksFor_mono (le_max_left data.length (off + m))
    exact ⟨x, fs, ip, 0, bmap_of_lookup hl, Uses.refl 0 fs, by omega⟩
  | none =>
    -- a new block: the file ends where it starts, at `off`
    have hend := hc.le_of_lookup_none hl
    have hlen : data.length = off := le_antisymm (hend.trans (Nat.div_mul_le_self _ _)) hoff
    have hround := blocksFor_round hend hoff hm1 hmn
    rw [max_eq_right (by omega)]
    obtain ⟨x, fs₁, ip₁, hb, hu⟩ := bmap_of_free fs ip hbn (by omega)
    exact ⟨x, fs₁, ip₁, 4, hb, hu, by omega⟩

/-- **The loop of `writei` does not panic**, from an offset within a file holding `data` and
within `MAXFILE*BSIZE`, while four blocks are free for each block the write adds to the file;
it takes no more than those. -/
theorem writeiLoop_of_free : ∀ (fuel : Nat) {fs : FsState} {ip : DInode} (off : Nat)
    (src : List UInt8) {data : List UInt8}, BlockInv fs ip → HasContent fs.disk ip data → off ≤ data.length →
    src.length ≤ fuel → off + src.length ≤ maxfile * bsize →
    4 * (blocksFor (off + src.length) - blocksFor data.length) ≤ freeCount fs →
    ∃ fs' ip' off', writeiLoop fuel fs ip off src = some (fs', ip', off') ∧
      Uses (4 * (blocksFor (off + src.length) - blocksFor data.length)) fs fs'
  | fuel, fs, ip, off, [], _, _, _, _, _, _, _ => ⟨fs, ip, off, by cases fuel <;> rfl, Uses.refl _ fs⟩
  | 0, _, _, _, _ :: _, _, _, _, _, hf, _, _ => absurd hf (by simp)
  | fuel + 1, fs, ip, off, b :: bs, data, h, hc, hoff, hf, hend, hfree => by
    have hbn : off / bsize < maxfile := by
      simp only [List.length_cons, bsize] at hend ⊢
      omega
    -- the round writes `m ≥ 1` bytes into the block at `off`, the rest from `off + m`
    set m := min (b :: bs).length (bsize - off % bsize) with hm
    have hm1 : 1 ≤ m := by
      have : off % bsize < bsize := Nat.mod_lt _ (by decide)
      simp only [hm, List.length_cons]
      omega
    have hml : m ≤ (b :: bs).length := min_le_left _ _
    obtain ⟨x, fs₁, ip₁, j, hb, hu₁, hj⟩ := bmap_round_of_free hc hoff hbn hm1 hml hfree
    have hq : ((b :: bs).take m).length ≤ bsize - off % bsize := by simp [hm]
    obtain ⟨h₂, hc₂⟩ := writeRound h hc hoff hb _ hq
    have hlen₂ := Splice.length_overwrite hoff ((b :: bs).take m)
    rw [List.length_take, min_eq_left hml] at hlen₂
    have hsum : off + m + ((b :: bs).drop m).length = off + (b :: bs).length := by
      rw [List.length_drop]
      omega
    obtain ⟨fs', ip', off', hw, hu₂⟩ := writeiLoop_of_free fuel (off + m) ((b :: bs).drop m) h₂ hc₂
      (by omega) (by simp only [List.length_drop, List.length_cons] at hf hml ⊢; omega) (by omega)
      (by
        rw [freeCount_disk, hsum, hlen₂]
        have := hu₁.free
        omega)
    refine ⟨fs', ip', off', ?_, ?_⟩
    · rw [writeiLoop, hb, Option.bind_some]
      exact hw
    · rw [hsum, hlen₂] at hu₂
      exact ((hu₁.disk _).trans hu₂).mono hj

/-- **A `writei` that passes its checks does not panic**: from an offset within a file holding
`data`, ending within `MAXFILE*BSIZE`, with four free blocks for each block it adds to the
file, it writes all of `src`, and takes no more blocks than that. -/
theorem writei_of_free (h : BlockInv fs ip) (hc : HasContent fs.disk ip data)
    (hsize : ip.size = data.length) (src : List UInt8) (hoff : off ≤ data.length)
    (hend : off + src.length ≤ maxfile * bsize)
    (hfree : 4 * (blocksFor (off + src.length) - blocksFor data.length) ≤ freeCount fs) :
    ∃ fs' ip', writei fs ip off src = some ((src.length : Int), fs', ip') ∧
      Uses (4 * (blocksFor (off + src.length) - blocksFor data.length)) fs fs' := by
  have hwrap : (off + src.length) % 2 ^ 32 = off + src.length :=
    Nat.mod_eq_of_lt (lt_of_le_of_lt hend maxfile_bsize_lt)
  obtain ⟨fs', ip', off', hl, hu⟩ := writeiLoop_of_free _ off src h hc hoff le_rfl hend hfree
  unfold writei
  dsimp only
  rw [if_neg (by omega), if_neg (by omega), hl, Option.map_some]
  exact ⟨fs', _, rfl, hu⟩

end Writei

end Xv6.Fs
