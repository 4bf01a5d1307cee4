import Xv6.Fs.BmapSpec
import Xv6.Fs.Mkfs
import Xv6.Lib.Splice

/-!
# `writei`: writing a file is writing its byte array

`writei(ip, src, off, n)` checks the offset, then for each block that the write touches maps
it with `bmap` and copies the bytes into it with `memmove`, and if the file grew sets its size.
The `memmove` into the buffer is `bcopyInto` (mkfs's `bcopy`); the `T_DEV` branch is left out,
as for `readi`.

Under the invariant `BlockInv`, and for an inode whose blocks hold the bytes `data`
(`HasContent`), a round of the loop keeps the invariant and leaves the content with the
round's bytes written at `off` (`writeRound`): the block `bmap` returns is the data block of
that file block, and writing it changes no other data block and no index block. So the loop
leaves the content `Splice.overwrite data off src` (`writeiLoop_spec`), and `writei` at an
offset within the file leaves exactly the file that writing `src` at `off` into the byte array
leaves, with its size (`writei_spec`). A `writei` that fails its checks returns `-1` and
changes nothing (`writei_fail`).
-/

set_option autoImplicit false

namespace Xv6.Fs

/-! ## 1. The code -/

/-- The loop of `writei` from offset `off`, with the bytes `src` still to write: the device and
the inode after the `bmap`s and the copies, and the offset the loop ends at. Each round writes
at least one byte, so `src.length` rounds of fuel are enough. -/
def writeiLoop : Nat → FsState → DInode → Nat → List UInt8 → Option (FsState × DInode × Nat)
  | _, fs, ip, off, [] => some (fs, ip, off)
  | 0, _, _, _, _ :: _ => none
  | fuel + 1, fs, ip, off, b :: bs =>
    -- `bp = bread(ip->dev, bmap(ip, off/BSIZE))`, with `r.1` the block `bmap` returns
    (bmap fs ip (off / bsize)).bind fun r =>
      let m := min (b :: bs).length (bsize - off % bsize)
      -- `memmove(bp->data + off%BSIZE, src, m); log_write(bp)`
      let blk := bcopyInto (r.2.1.disk r.1) (off % bsize) ((b :: bs).take m)
      writeiLoop fuel { r.2.1 with disk := Function.update r.2.1.disk r.1 blk } r.2.2 (off + m)
        ((b :: bs).drop m)

/-- `writei(ip, src, off, n)` of a file or directory, `n` the length of `src`: the count it
returns, with the device and the inode (`iupdate` writes it back when the size grows). -/
def writei (fs : FsState) (ip : DInode) (off : Nat) (src : List UInt8) :
    Option (Int × FsState × DInode) :=
  let n := src.length
  if ip.size < off ∨ (off + n) % 2 ^ 32 < off then some (-1, fs, ip)
  else if maxfile * bsize < (off + n) % 2 ^ 32 then some (-1, fs, ip)
  else
    (writeiLoop n fs ip off src).map fun r =>
      (n, r.1, if 0 < n ∧ r.2.1.size < r.2.2 then { r.2.1 with size := r.2.2 } else r.2.1)

/-! ## 2. Writing a data block -/

/-- A byte of the buffer after `memmove` of `q` to offset `o`. -/
theorem byteAt_bcopyInto (b : Block) (o : Nat) (q : List UInt8) {k : Nat} (hk : k < bsize) :
    byteAt (bcopyInto b o q) k = if o ≤ k ∧ k < o + q.length then q.getD (k - o) 0 else byteAt b k := by
  simp [byteAt, bcopyInto, hk]

section Data

variable {fs : FsState} {ip : DInode} {bn x : Nat}

/-- **Writing a data block leaves the tree**: no walk reads a data block. -/
theorem TreeInv.nodeOf_update_data (h : TreeInv fs ip) (hx : lookup fs.disk ip bn = some x)
    (v : Block) {pos : Pos} (hv : pos.Valid) :
    nodeOf (Function.update fs.disk x v) ip pos = nodeOf fs.disk ip pos := by
  rw [lookup_eq_nodeOf] at hx
  obtain ⟨d, hd, hdx⟩ := Option.bind_eq_some_iff.mp hx
  refine nodeOf_congr fun i hi y hy => ?_
  have hyx : y ≠ x := by
    rintro rfl
    exact h.take_ne_data hd hdx hv hi hy
  rw [Function.update_of_ne hyx]

theorem TreeInv.lookup_update_data (h : TreeInv fs ip) (hx : lookup fs.disk ip bn = some x)
    (v : Block) (bn' : Nat) :
    lookup (Function.update fs.disk x v) ip bn' = lookup fs.disk ip bn' := by
  rw [lookup_eq_nodeOf, lookup_eq_nodeOf]
  cases hd : dataPos bn' with
  | none => rfl
  | some d => exact h.nodeOf_update_data hx v (dataPos_valid hd)

/-- The invariant does not read the size of the file. -/
theorem BlockInv.setSize (h : BlockInv fs ip) (s : Nat) : BlockInv fs { ip with size := s } :=
  ⟨⟨h.nodup, h.used⟩, h.zero_used, h.size_le⟩

theorem BlockInv.update_data (h : BlockInv fs ip) (hx : lookup fs.disk ip bn = some x) (v : Block) :
    BlockInv { fs with disk := Function.update fs.disk x v } ip := by
  have ht : treeBlocks (Function.update fs.disk x v) ip = treeBlocks fs.disk ip := by
    rw [treeBlocks_eq_filterMap, treeBlocks_eq_filterMap]
    exact List.filterMap_congr fun pos hpos => h.nodeOf_update_data hx v (mem_positions.mp hpos)
  exact ⟨⟨by simpa [ht] using h.nodup, by simpa [ht] using h.used⟩, h.zero_used, h.size_le⟩

end Data

/-! ## 3. The loop -/

theorem HasContent.nil (disk : Nat → Block) (ip : DInode) : HasContent disk ip [] :=
  fun _ h => absurd h (Nat.not_lt_zero _)

/-- **One round of `writei`**: after `bmap` of the file block at `off`, copying `q`, which
fits in that block, to offset `off % BSIZE` of it writes `q` into the content at `off`. -/
theorem writeRound {fs fs₁ : FsState} {ip ip₁ : DInode} {data : List UInt8} {off x : Nat}
    (h : BlockInv fs ip) (hc : HasContent fs.disk ip data) (hoff : off ≤ data.length)
    (hb : bmap fs ip (off / bsize) = some (x, fs₁, ip₁)) (q : List UInt8)
    (hq : q.length ≤ bsize - off % bsize) :
    BlockInv { fs₁ with disk := Function.update fs₁.disk x (bcopyInto (fs₁.disk x) (off % bsize) q) }
        ip₁ ∧
      HasContent (Function.update fs₁.disk x (bcopyInto (fs₁.disk x) (off % bsize) q)) ip₁
        (Splice.overwrite data off q) := by
  obtain ⟨h₁, K, hx⟩ := bmap_spec h hb
  refine ⟨h₁.update_data hx _, fun i hi => ?_⟩
  have hlen := Splice.length_overwrite hoff q
  have hmod : i % bsize < bsize := Nat.mod_lt _ (by decide)
  rw [h₁.lookup_update_data hx, ← List.getD_eq_getElem _ 0, Splice.getD_overwrite hoff]
  by_cases hin : off ≤ i ∧ i < off + q.length
  · -- a byte written in this round, in the block `bmap` returned
    have hblk : i / bsize = off / bsize := by
      simp only [bsize] at hq hmod ⊢
      omega
    refine ⟨x, by rw [hblk, hx], ?_⟩
    have hk : off % bsize ≤ i % bsize ∧ i % bsize < off % bsize + q.length := by
      simp only [bsize] at hq hmod ⊢
      omega
    have hidx : i % bsize - off % bsize = i - off := by
      simp only [bsize] at hq hmod ⊢
      omega
    rw [if_pos hin, Function.update_self, byteAt_bcopyInto _ _ _ hmod, if_pos hk, hidx]
  · -- a byte of the old content, in its old block
    have hi' : i < data.length := by omega
    obtain ⟨y, hy, hby⟩ := hc i hi'
    have hy₁ := K.lookup hy
    refine ⟨y, hy₁, ?_⟩
    rw [if_neg hin, List.getD_eq_getElem _ _ hi', ← hby, ← K.data _ _ hy]
    by_cases hyx : y = x
    · -- the block of this round, outside the bytes it copies
      subst hyx
      have hblk : i / bsize = off / bsize := h₁.lookup_inj hy₁ hx
      have hk : ¬ (off % bsize ≤ i % bsize ∧ i % bsize < off % bsize + q.length) := by
        simp only [bsize] at hq hmod hblk ⊢
        omega
      rw [Function.update_self, byteAt_bcopyInto _ _ _ hmod, if_neg hk]
    · rw [Function.update_of_ne hyx]

/-- **The loop of `writei`** writes `src` into the content at `off`, keeps the invariant and
the size, and ends at `off + n`. -/
theorem writeiLoop_spec : ∀ (fuel : Nat) {fs fs' : FsState} {ip ip' : DInode} {off off' : Nat}
    {src data : List UInt8}, BlockInv fs ip → HasContent fs.disk ip data → off ≤ data.length →
    writeiLoop fuel fs ip off src = some (fs', ip', off') →
    BlockInv fs' ip' ∧ HasContent fs'.disk ip' (Splice.overwrite data off src) ∧
      off' = off + src.length ∧ ip'.size = ip.size
  | _, fs, fs', ip, ip', off, off', [], data, h, hc, _, hw => by
    simp only [writeiLoop, Option.some.injEq, Prod.mk.injEq] at hw
    obtain ⟨rfl, rfl, rfl⟩ := hw
    exact ⟨h, by simpa using hc, by simp, rfl⟩
  | 0, _, _, _, _, _, _, _ :: _, _, _, _, _, hw => by simp [writeiLoop] at hw
  | fuel + 1, fs, fs', ip, ip', off, off', b :: bs, data, h, hc, hoff, hw => by
    rw [writeiLoop] at hw
    obtain ⟨⟨x, fs₁, ip₁⟩, hb, hw⟩ := Option.bind_eq_some_iff.mp hw
    dsimp only at hw
    -- the `m` bytes of this round, then the rest from `off + m`
    have hq : ((b :: bs).take (min (b :: bs).length (bsize - off % bsize))).length ≤
        bsize - off % bsize := by
      simp
    obtain ⟨h₂, hc₂⟩ := writeRound h hc hoff hb _ hq
    have hoff₂ := Splice.le_length_overwrite hoff ((b :: bs).take (min (b :: bs).length (bsize - off % bsize)))
    rw [List.length_take, min_eq_left (min_le_left _ _)] at hoff₂
    obtain ⟨h', hc', rfl, hs'⟩ := writeiLoop_spec fuel h₂ hc₂ hoff₂ hw
    have hsplit := Splice.overwrite_append hoff ((b :: bs).take (min (b :: bs).length (bsize - off % bsize)))
      ((b :: bs).drop (min (b :: bs).length (bsize - off % bsize)))
    rw [List.take_append_drop, List.length_take, min_eq_left (min_le_left _ _)] at hsplit
    refine ⟨h', by rwa [hsplit], ?_, hs'.trans (bmap_spec h hb).2.1.isize⟩
    simp only [List.length_drop]
    omega

/-! ## 4. `writei` -/

section Writei

variable {fs fs' : FsState} {ip ip' : DInode} {off : Nat} {src : List UInt8} {r : Int}

/-- `MAXFILE*BSIZE`, the end of the largest file, is a `uint`. -/
theorem maxfile_bsize_lt : maxfile * bsize < 2 ^ 32 := by decide

/-- **`writei` writes the byte array.** For an inode whose blocks hold the bytes `data`, a
`writei` of `src` at an offset within the file and an end within `MAXFILE*BSIZE` returns the
count `n`, keeps the invariant, and leaves the inode holding `data` with `src` written at
`off`, its size the length of that array. -/
theorem writei_spec {data : List UInt8} (h : BlockInv fs ip) (hc : HasContent fs.disk ip data)
    (hsize : ip.size = data.length) (hoff : off ≤ ip.size) (hend : off + src.length ≤ maxfile * bsize)
    (hw : writei fs ip off src = some (r, fs', ip')) :
    r = src.length ∧ BlockInv fs' ip' ∧ HasContent fs'.disk ip' (Splice.overwrite data off src) ∧
      ip'.size = (Splice.overwrite data off src).length := by
  have hwrap : (off + src.length) % 2 ^ 32 = off + src.length :=
    Nat.mod_eq_of_lt (lt_of_le_of_lt hend maxfile_bsize_lt)
  unfold writei at hw
  dsimp only at hw
  rw [if_neg (by omega), if_neg (by omega)] at hw
  obtain ⟨⟨fs₁, ip₁, off'⟩, hl, he⟩ := Option.map_eq_some_iff.mp hw
  obtain ⟨h₁, hc₁, rfl, hs₁⟩ := writeiLoop_spec _ h hc (hsize ▸ hoff) hl
  simp only [Prod.mk.injEq] at he
  obtain ⟨rfl, rfl, rfl⟩ := he
  have hlen := Splice.length_overwrite (hsize ▸ hoff) src
  -- the size is set when the write ends past it; either way the inode has the same tree
  split_ifs with hgrow
  · exact ⟨rfl, h₁.setSize _, hc₁, by simp only; omega⟩
  · refine ⟨rfl, h₁, hc₁, ?_⟩
    rw [hs₁, hsize, hlen]
    omega

/-- **A `writei` that fails its checks** returns `-1` and leaves the device and the inode: an
offset past the end of the file, or a write past `MAXFILE*BSIZE`. -/
theorem writei_fail (hn : off + src.length < 2 ^ 32)
    (hbad : ip.size < off ∨ maxfile * bsize < off + src.length) :
    writei fs ip off src = some (-1, fs, ip) := by
  unfold writei
  dsimp only
  rw [Nat.mod_eq_of_lt hn]
  split_ifs with h1 h2
  · rfl
  · rfl
  · omega

end Writei

end Xv6.Fs
