import Xv6.Fs.Layout

/-!
# The kernel's block map: `balloc`, `bmap`, `readi`

`bmap(ip, bn)` walks the direct slots, then the single, double and triple indirect trees,
allocating with `balloc` every null pointer on its path. `lookup` is the same walk that only
reads: where every pointer on the path is set, `bmap` returns the block `lookup` finds and
changes nothing (`bmap_of_lookup`). So `readi` of an inode returns the bytes that the
lookups of its blocks point to (`readi_of_content`).

`readi` is modelled for the inodes of files and directories: the `T_DEV` branch is left out.
-/

set_option autoImplicit false

namespace Xv6.Fs

/-! ## Allocation -/

/-- `balloc(dev)`: the first block below `sb.size` whose bit is clear, marked used and zeroed
with `bzero`; `none` is the panic `balloc: out of blocks`. -/
def balloc (fs : FsState) : Option (Nat × FsState) :=
  match (List.range fs.size).find? fun b => !fs.used b with
  | none => none
  | some b =>
    some (b, { fs with used := Function.update fs.used b true,
                       disk := Function.update fs.disk b Block.zero })

/-- `if((addr = ip->addrs[k]) == 0) ip->addrs[k] = addr = balloc(ip->dev);`. -/
def slotOrAlloc (fs : FsState) (ip : DInode) (k : AddrIdx) : Option (Nat × FsState × DInode) :=
  let a := ip.addrs k
  if a = 0 then
    (balloc fs).map fun (b, fs) => (b, fs, { ip with addrs := Function.update ip.addrs k b })
  else some (a, fs, ip)

/-- `bp = bread(dev, addr); a = (uint*)bp->data; if((addr = a[j]) == 0){ a[j] = addr =
balloc(dev); log_write(bp); }`: the buffer `bp` holds the block as read before `balloc`. -/
def entryOrAlloc (fs : FsState) (addr : Nat) (j : Fin nindirect) : Option (Nat × FsState) :=
  let blk := fs.disk addr
  let x := blk.word j
  if x = 0 then
    (balloc fs).map fun (b, fs) =>
      (b, { fs with disk := Function.update fs.disk addr (Bytes.setWord blk j b) })
  else some (x, fs)

theorem div_lt_nindirect {bn : Nat} (h : bn < ndindirect) : bn / nindirect < nindirect :=
  Nat.div_lt_of_lt_mul h

theorem div_lt_ndindirect {bn : Nat} (h : bn < ntindirect) : bn / ndindirect < nindirect := by
  unfold ntindirect at h
  exact Nat.div_lt_of_lt_mul (by rwa [Nat.mul_comm] at h)

theorem mod_div_lt_nindirect (bn : Nat) : bn % ndindirect / nindirect < nindirect :=
  div_lt_nindirect (Nat.mod_lt _ (by decide))

theorem mod_lt_nindirect (bn : Nat) : bn % nindirect < nindirect := Nat.mod_lt _ (by decide)

/-- `bmap(ip, bn)`; `none` is a panic (`bmap: out of range`, or `balloc`'s). -/
def bmap (fs : FsState) (ip : DInode) (bn : Nat) : Option (Nat × FsState × DInode) :=
  if h0 : bn < ndirect then slotOrAlloc fs ip (dirIdx ⟨bn, h0⟩)
  else
    let bn := bn - ndirect
    if h1 : bn < nindirect then do
      let (a, fs, ip) ← slotOrAlloc fs ip (indIdx 0)
      let (x, fs) ← entryOrAlloc fs a ⟨bn, h1⟩
      pure (x, fs, ip)
    else
      let bn := bn - nindirect
      if h2 : bn < ndindirect then do
        let (a, fs, ip) ← slotOrAlloc fs ip (indIdx 1)
        let (a, fs) ← entryOrAlloc fs a ⟨bn / nindirect, div_lt_nindirect h2⟩
        let (x, fs) ← entryOrAlloc fs a ⟨bn % nindirect, mod_lt_nindirect bn⟩
        pure (x, fs, ip)
      else
        let bn := bn - ndindirect
        if h3 : bn < ntindirect then do
          let (a, fs, ip) ← slotOrAlloc fs ip (indIdx 2)
          let (a, fs) ← entryOrAlloc fs a ⟨bn / ndindirect, div_lt_ndindirect h3⟩
          let (a, fs) ← entryOrAlloc fs a ⟨bn % ndindirect / nindirect, mod_div_lt_nindirect bn⟩
          let (x, fs) ← entryOrAlloc fs a ⟨bn % nindirect, mod_lt_nindirect bn⟩
          pure (x, fs, ip)
        else none

/-! ## The walk without allocation -/

/-- A pointer that is set. -/
def present (a : Nat) : Option Nat := if a = 0 then none else some a

/-- The walk of `bmap` that only reads: the block it finds for `bn` when every pointer on the
path is set. -/
def lookup (disk : Nat → Block) (ip : DInode) (bn : Nat) : Option Nat :=
  if h0 : bn < ndirect then present (ip.addrs (dirIdx ⟨bn, h0⟩))
  else
    let bn := bn - ndirect
    if h1 : bn < nindirect then
      (present (ip.addrs (indIdx 0))).bind fun a => present ((disk a).word ⟨bn, h1⟩)
    else
      let bn := bn - nindirect
      if h2 : bn < ndindirect then
        (present (ip.addrs (indIdx 1))).bind fun a =>
        (present ((disk a).word ⟨bn / nindirect, div_lt_nindirect h2⟩)).bind fun a =>
        present ((disk a).word ⟨bn % nindirect, mod_lt_nindirect bn⟩)
      else
        let bn := bn - ndindirect
        if h3 : bn < ntindirect then
          (present (ip.addrs (indIdx 2))).bind fun a =>
          (present ((disk a).word ⟨bn / ndindirect, div_lt_ndindirect h3⟩)).bind fun a =>
          (present ((disk a).word ⟨bn % ndindirect / nindirect, mod_div_lt_nindirect bn⟩)).bind
            fun a => present ((disk a).word ⟨bn % nindirect, mod_lt_nindirect bn⟩)
        else none

theorem present_eq_some {a x : Nat} : present a = some x ↔ a ≠ 0 ∧ a = x := by
  unfold present
  split <;> simp_all [eq_comm]

theorem slotOrAlloc_of_present {fs : FsState} {ip : DInode} {k : AddrIdx} {a : Nat}
    (h : present (ip.addrs k) = some a) : slotOrAlloc fs ip k = some (a, fs, ip) := by
  obtain ⟨ha, rfl⟩ := present_eq_some.mp h
  simp [slotOrAlloc, ha]

theorem entryOrAlloc_of_present {fs : FsState} {addr : Nat} {j : Fin nindirect} {x : Nat}
    (h : present ((fs.disk addr).word j) = some x) : entryOrAlloc fs addr j = some (x, fs) := by
  obtain ⟨hx, rfl⟩ := present_eq_some.mp h
  simp [entryOrAlloc, hx]

/-- **Where every pointer is set, `bmap` only reads**: it returns the block `lookup` finds and
leaves the device and the inode. -/
theorem bmap_of_lookup {fs : FsState} {ip : DInode} {bn x : Nat}
    (h : lookup fs.disk ip bn = some x) : bmap fs ip bn = some (x, fs, ip) := by
  unfold lookup at h
  unfold bmap
  dsimp only at h ⊢
  split_ifs at h ⊢ with h0 h1 h2 h3
  · exact slotOrAlloc_of_present h
  · -- single indirect
    obtain ⟨a, ha, hx⟩ := Option.bind_eq_some_iff.mp h
    simp [slotOrAlloc_of_present ha, entryOrAlloc_of_present hx]
  · -- double indirect
    obtain ⟨a, ha, h⟩ := Option.bind_eq_some_iff.mp h
    obtain ⟨a', ha', hx⟩ := Option.bind_eq_some_iff.mp h
    simp [slotOrAlloc_of_present ha, entryOrAlloc_of_present ha', entryOrAlloc_of_present hx]
  · -- triple indirect
    obtain ⟨a, ha, h⟩ := Option.bind_eq_some_iff.mp h
    obtain ⟨a', ha', h⟩ := Option.bind_eq_some_iff.mp h
    obtain ⟨a'', ha'', hx⟩ := Option.bind_eq_some_iff.mp h
    simp [slotOrAlloc_of_present ha, entryOrAlloc_of_present ha', entryOrAlloc_of_present ha'',
      entryOrAlloc_of_present hx]

/-! ## `readi` -/

/-- Byte `o` of a block, `0` past its end. -/
def byteAt (b : Block) (o : Nat) : UInt8 := if h : o < bsize then b ⟨o, h⟩ else 0

/-- `memmove(dst, bp->data + o, m)`: bytes `o, …, o + m - 1` of the buffer. -/
def blockBytes (b : Block) (o m : Nat) : List UInt8 := (List.range m).map fun i => byteAt b (o + i)

/-- The loop of `readi` from offset `off`, with `n` bytes still to read: the bytes copied, and
the device and inode after the `bmap`s. Each round copies at least one byte, so `n` rounds of
fuel are enough. -/
def readiLoop : Nat → FsState → DInode → Nat → Nat → Option (List UInt8 × FsState × DInode)
  | 0, fs, ip, _, n => if n = 0 then some ([], fs, ip) else none
  | fuel + 1, fs, ip, off, n =>
    if n = 0 then some ([], fs, ip)
    else (bmap fs ip (off / bsize)).bind fun (x, fs, ip) =>
      let m := min n (bsize - off % bsize)
      let bytes := blockBytes (fs.disk x) (off % bsize) m
      (readiLoop fuel fs ip (off + m) (n - m)).map fun (rest, fs, ip) => (bytes ++ rest, fs, ip)

/-- `readi(ip, dst, off, n)` of a file or directory: the count it returns with the bytes it
copies to `dst`, and the device and inode after the `bmap`s. -/
def readi (fs : FsState) (ip : DInode) (off n : Nat) :
    Option (Int × List UInt8 × FsState × DInode) :=
  if ip.size < off ∨ (off + n) % 2 ^ 32 < off then some (-1, [], fs, ip)
  else
    let n := if ip.size < off + n then ip.size - off else n
    (readiLoop n fs ip off n).map fun (bytes, fs, ip) => (n, bytes, fs, ip)

/-- The bytes `data` are what the blocks of `ip` hold: byte `i` is at `i % BSIZE` in the block
that the walk of `bmap` finds for `i / BSIZE`. -/
def HasContent (disk : Nat → Block) (ip : DInode) (data : List UInt8) : Prop :=
  ∀ i (h : i < data.length), ∃ x, lookup disk ip (i / bsize) = some x ∧
    byteAt (disk x) (i % bsize) = data[i]

/-- One round reads bytes `off … off + m - 1` from one block. -/
theorem blockBytes_of_content {disk : Nat → Block} {ip : DInode} {data : List UInt8}
    (hc : HasContent disk ip data) {off m x : Nat} (hm : m ≤ bsize - off % bsize)
    (hlen : off + m ≤ data.length) (hx : lookup disk ip (off / bsize) = some x) :
    blockBytes (disk x) (off % bsize) m = (data.drop off).take m := by
  apply List.ext_getElem
  · simp [blockBytes]
    omega
  · intro i hi _
    simp only [blockBytes, List.length_map, List.length_range] at hi
    -- byte `off + i` lies in the same block as byte `off`
    have hdiv : (off + i) / bsize = off / bsize := by
      simp only [bsize] at hm ⊢
      omega
    have hmod : (off + i) % bsize = off % bsize + i := by
      simp only [bsize] at hm ⊢
      omega
    obtain ⟨x', hx', hb⟩ := hc (off + i) (by omega)
    rw [hdiv, hx] at hx'
    cases hx'
    simp only [blockBytes, List.getElem_map, List.getElem_range, List.getElem_take,
      List.getElem_drop]
    rw [← hmod, hb]

/-- **`readiLoop` reads the content**: from offset `off`, `n` bytes of it, touching nothing. -/
theorem readiLoop_of_content {fs : FsState} {ip : DInode} {data : List UInt8}
    (hc : HasContent fs.disk ip data) :
    ∀ fuel off n, n ≤ fuel → off + n ≤ data.length →
      readiLoop fuel fs ip off n = some ((data.drop off).take n, fs, ip)
  | 0, off, n, hn, _ => by
    obtain rfl : n = 0 := by omega
    simp [readiLoop]
  | fuel + 1, off, n, hn, hlen => by
    by_cases h0 : n = 0
    · subst h0
      simp [readiLoop]
    obtain ⟨x, hx, -⟩ := hc off (by omega)
    have hm : 0 < bsize - off % bsize := by
      have := Nat.mod_lt off (show 0 < bsize by decide)
      omega
    rw [readiLoop, if_neg h0, bmap_of_lookup hx, Option.bind_some]
    dsimp only
    rw [readiLoop_of_content hc fuel (off + min n (bsize - off % bsize))
        (n - min n (bsize - off % bsize)) (by omega) (by omega),
      blockBytes_of_content hc (by omega) (by omega) hx, Option.map_some]
    -- the two pieces make the `n` bytes from `off`
    have hsplit : n = min n (bsize - off % bsize) + (n - min n (bsize - off % bsize)) := by omega
    conv => rhs; rw [hsplit, List.take_add, List.drop_drop]

/-- **`readi` returns the content of the file**: from an offset within the file, the bytes up
to the count asked for or the end of the file, whichever comes first. -/
theorem readi_of_content {fs : FsState} {ip : DInode} {data : List UInt8}
    (hc : HasContent fs.disk ip data) (hsize : ip.size = data.length) {off n : Nat} (hoff : off ≤ ip.size)
    (hwrap : off + n < 2 ^ 32) :
    readi fs ip off n =
      some (↑(min n (ip.size - off)), (data.drop off).take (min n (ip.size - off)), fs, ip) := by
  have hn : (if ip.size < off + n then ip.size - off else n) = min n (ip.size - off) := by
    split <;> omega
  unfold readi
  rw [if_neg (by rw [Nat.mod_eq_of_lt hwrap]; omega)]
  dsimp only
  rw [hn, readiLoop_of_content hc _ off _ le_rfl (by omega)]
  rfl

end Xv6.Fs
