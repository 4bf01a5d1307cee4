import Xv6.Fs.Room

/-!
# `file.c`: an open file is a byte array with a cursor

`fileread(f, addr, n)` reads with `readi` at `f->off` and moves `f->off` past the bytes it
read; `pfileread(f, addr, n, off)` reads at `off` and leaves `f->off` alone. `filewrite` and
`pfilewrite` write in chunks of at most `max = ((MAXOPBLOCKS-1-1-2) / 2) * 512` bytes, one
transaction and one `writei` each (`writeChunks`), from `f->off` or from `off`. A chunk that
`writei` refuses ends the loop with the chunks before it written, and the call returns `-1`.
Only the `FD_INODE` branches are here; the `FD_PIPE` ones call the pipe.

`Stores fs ip data` says that the inode `ip` on the device `fs` is a file holding the bytes
`data`. From there the loop writes exactly `chunkedLen` bytes: the whole write when it ends
within `MAXFILE*BSIZE`, else the whole chunks that do, and nothing from past the end of the
file (`writeChunks_spec`). With four free blocks for each block the write adds to the file it
runs to its end, so neither `balloc: out of blocks` nor `short filewrite` can happen
(`writeChunks_eq`): overwriting bytes the file has takes no block.

To the processes that use it, an open file is then a byte array with a cursor (`ByteFile`).
Each call on the inode returns what the same call on the array returns and keeps the two
related (`fileCall_refines`), and so does every run of calls while the device has four free
blocks for each block the run adds to the file (`fileRun_refines`).
-/

set_option autoImplicit false

namespace Xv6.Fs

/-! ## 1. The code -/

/-- `MAXOPBLOCKS`, the most blocks one file system operation may write. -/
def maxopblocks : Nat := 10

/-- `max = ((MAXOPBLOCKS-1-1-2) / 2) * 512`, the bytes of one chunk of `filewrite`: the
transaction also writes the inode, an index block, the bitmap and two blocks of slop. -/
def maxChunk : Nat := (maxopblocks - 1 - 1 - 2) / 2 * 512

/-- The `uint` that an `int` argument converts to. -/
def uintOfInt (i : Int) : Nat := (i % 2 ^ 32).toNat

/-- A `struct file` of type `FD_INODE`: whether it was opened for reading and for writing,
and `f->off`. The inode `f->ip` is kept beside it. -/
structure File where
  readable : Bool
  writable : Bool
  off : Nat
  deriving DecidableEq, Repr

/-- The loop `while(i < n)` of `filewrite` and `pfilewrite` from the offset `off`, with `src`
the bytes from `addr + i` on. A chunk of `n1 = min(n - i, max)` bytes is one `writei`; its
count `r` moves the offset when positive, ends the loop when negative, and `r != n1` is the
panic `short filewrite`. The result is the `i` the loop adds up, the device, the inode and the
offset. Each round writes at least one byte, so `src.length` rounds of fuel are enough. -/
def writeChunks : Nat → FsState → DInode → Nat → List UInt8 →
    Option (Nat × FsState × DInode × Nat)
  | _, fs, ip, off, [] => some (0, fs, ip, off)
  | 0, _, _, _, _ :: _ => none
  | fuel + 1, fs, ip, off, b :: bs =>
    let n1 := min (b :: bs).length maxChunk
    -- `r = writei(f->ip, addr + i, f->off, n1)`, with `w.1` the `r`
    (writei fs ip off ((b :: bs).take n1)).bind fun w =>
      if w.1 < 0 then some (0, w.2.1, w.2.2, off)
      else if w.1 ≠ n1 then none
      else (writeChunks fuel w.2.1 w.2.2 ((off + n1) % 2 ^ 32) ((b :: bs).drop n1)).map
        fun t => (n1 + t.1, t.2)

/-- `filewrite(f, addr, n)` of an inode, `src` the `n` bytes at `addr`: `-1` if `f` is not
writable, else the loop from `f->off`, which it moves, and `n` if the loop wrote all `n`
bytes, `-1` if not. -/
def filewrite (fs : FsState) (ip : DInode) (f : File) (src : List UInt8) :
    Option (Int × FsState × DInode × File) :=
  if f.writable = false then some (-1, fs, ip, f)
  else (writeChunks src.length fs ip f.off src).map fun w =>
    (if w.1 = src.length then (src.length : Int) else -1, w.2.1, w.2.2.1, { f with off := w.2.2.2 })

/-- `pfilewrite(f, addr, n, off)`: the loop from `off`, the `uint` that `writei` receives,
leaving `f->off`. The `int off += r` of the C cannot overflow: `writei` refuses every chunk
that ends past `MAXFILE*BSIZE < 2^31`, so its `uint` is the one the model carries. -/
def pfilewrite (fs : FsState) (ip : DInode) (f : File) (src : List UInt8) (off : Int) :
    Option (Int × FsState × DInode) :=
  if f.writable = false then some (-1, fs, ip)
  else (writeChunks src.length fs ip (uintOfInt off) src).map fun w =>
    (if w.1 = src.length then (src.length : Int) else -1, w.2.1, w.2.2.1)

/-- `fileread(f, addr, n)` of an inode: `-1` if `f` is not readable, else `readi` at `f->off`,
and `f->off += r` when it read `r > 0` bytes. -/
def fileread (fs : FsState) (ip : DInode) (f : File) (n : Nat) :
    Option (Int × List UInt8 × FsState × DInode × File) :=
  if f.readable = false then some (-1, [], fs, ip, f)
  else (readi fs ip f.off n).map fun r =>
    (r.1, r.2.1, r.2.2.1, r.2.2.2,
      { f with off := if (0 : Int) < r.1 then (f.off + r.1.toNat) % 2 ^ 32 else f.off })

/-- `pfileread(f, addr, n, off)`: `readi` at `off`; its `off += r` is on the argument, and
lost. -/
def pfileread (fs : FsState) (ip : DInode) (f : File) (n : Nat) (off : Int) :
    Option (Int × List UInt8 × FsState × DInode) :=
  if f.readable = false then some (-1, [], fs, ip)
  else readi fs ip (uintOfInt off) n

theorem maxChunk_eq : maxChunk = 1536 := rfl

theorem maxfile_bsize_eq : maxfile * bsize = 1082201088 := rfl

theorem uintOfInt_lt (i : Int) : uintOfInt i < 2 ^ 32 := by
  unfold uintOfInt
  omega

/-- An offset that is a `uint` is the `uint` it converts to. -/
theorem uintOfInt_natCast {n : Nat} (h : n < 2 ^ 32) : uintOfInt n = n := by
  unfold uintOfInt
  omega

/-! ## 2. How many bytes the loop writes -/

/-- The bytes that the loop writes of `n` bytes at `off` into a file of `len` bytes: none
from past the end of the file, all `n` when the write ends within `MAXFILE*BSIZE`, and else
the whole chunks that end within it. -/
def chunkedLen (len off n : Nat) : Nat :=
  if len < off then 0
  else if off + n ≤ maxfile * bsize then n
  else maxChunk * ((maxfile * bsize - off) / maxChunk)

section Chunks

variable {len len' off n : Nat}

theorem chunkedLen_past (h : len < off) : chunkedLen len off n = 0 := if_pos h

theorem chunkedLen_zero (hlen : len ≤ maxfile * bsize) : chunkedLen len off 0 = 0 := by
  unfold chunkedLen
  split_ifs <;> omega

/-- A first chunk that fits: the loop writes it, then goes on from its end in the file it
leaves, of any length `len'` that reaches there. -/
theorem chunkedLen_step (hoff : off ≤ len) (hfit : off + min n maxChunk ≤ maxfile * bsize)
    (hlen' : off + min n maxChunk ≤ len') :
    chunkedLen len off n = min n maxChunk + chunkedLen len' (off + min n maxChunk) (n - min n maxChunk) := by
  unfold chunkedLen
  rw [maxChunk_eq] at *
  split_ifs <;> omega

/-- A write from within the file to an end within `MAXFILE*BSIZE`: the loop writes all of it. -/
theorem chunkedLen_fit (hoff : off ≤ len) (hend : off + n ≤ maxfile * bsize) : chunkedLen len off n = n := by
  rw [chunkedLen, if_neg (by omega), if_pos hend]

/-- A first chunk that does not fit: the loop writes nothing. -/
theorem chunkedLen_stop (hoff : off ≤ len)
    (hover : maxfile * bsize < off + min n maxChunk) : chunkedLen len off n = 0 := by
  unfold chunkedLen
  rw [maxChunk_eq] at *
  split_ifs <;> omega

end Chunks

/-- The bytes the loop leaves in a file holding `data`: the first `chunkedLen` bytes of `src`
written at `off`. -/
def chunkedWrite (data : List UInt8) (off : Nat) (src : List UInt8) : List UInt8 :=
  Splice.overwrite data off (src.take (chunkedLen data.length off src.length))

/-! ## 3. The loop writes the byte array -/

/-- The inode `ip` on the device `fs` is a file holding the bytes `data`: its block tree is
sound, its blocks hold `data`, and its size is the length of `data`, within
`MAXFILE*BSIZE`. -/
structure Stores (fs : FsState) (ip : DInode) (data : List UInt8) : Prop where
  inv : BlockInv fs ip
  content : HasContent fs.disk ip data
  size : ip.size = data.length
  le_max : data.length ≤ maxfile * bsize

section Loop

variable {fs fs' : FsState} {ip ip' : DInode} {off : Nat} {src : List UInt8} {r : Int}

/-- `writei` from past the end of the file returns `-1` and changes nothing. -/
theorem writei_past_end (src : List UInt8) (h : ip.size < off) :
    writei fs ip off src = some (-1, fs, ip) := by
  unfold writei
  rw [if_pos (Or.inl h)]

/-- `writei` returns `-1` or the count it was asked for. -/
theorem writei_result (hw : writei fs ip off src = some (r, fs', ip')) : r = -1 ∨ r = src.length := by
  unfold writei at hw
  dsimp only at hw
  split_ifs at hw
  · simp only [Option.some.injEq, Prod.mk.injEq] at hw
    exact Or.inl hw.1.symm
  · simp only [Option.some.injEq, Prod.mk.injEq] at hw
    exact Or.inl hw.1.symm
  · obtain ⟨_, _, he⟩ := Option.map_eq_some_iff.mp hw
    exact Or.inr (congrArg Prod.fst he).symm

/-- One round of the loop, for a nonempty `src`. -/
theorem writeChunks_succ (hsrc : src ≠ []) (fuel : Nat) (fs : FsState) (ip : DInode) (off : Nat) :
    writeChunks (fuel + 1) fs ip off src =
      (writei fs ip off (src.take (min src.length maxChunk))).bind fun w =>
        if w.1 < 0 then some (0, w.2.1, w.2.2, off)
        else if w.1 ≠ (min src.length maxChunk : Nat) then none
        else (writeChunks fuel w.2.1 w.2.2 ((off + min src.length maxChunk) % 2 ^ 32)
          (src.drop (min src.length maxChunk))).map fun t => (min src.length maxChunk + t.1, t.2) := by
  obtain ⟨b, bs, rfl⟩ := List.exists_cons_of_ne_nil hsrc
  rfl

theorem writeChunks_nil (fuel : Nat) (fs : FsState) (ip : DInode) (off : Nat) :
    writeChunks fuel fs ip off [] = some (0, fs, ip, off) := by
  cases fuel <;> rfl

theorem length_take_chunk (src : List UInt8) :
    (src.take (min src.length maxChunk)).length = min src.length maxChunk := by
  simp

/-- The first chunk of the loop, from a file holding `data`: `writei` refuses it, when it
starts past the end of the file or would end past `MAXFILE*BSIZE`, and then the loop has
nothing to write; or it writes all of it, leaving a file that holds it at `off`. -/
theorem writei_chunk {data : List UInt8} (hs : Stores fs ip data)
    (hw : writei fs ip off (src.take (min src.length maxChunk)) = some (r, fs', ip')) :
    (r = -1 ∧ fs' = fs ∧ ip' = ip ∧ chunkedLen data.length off src.length = 0) ∨
    (r = min src.length maxChunk ∧ off ≤ data.length ∧
      off + min src.length maxChunk ≤ maxfile * bsize ∧
      Stores fs' ip' (Splice.overwrite data off (src.take (min src.length maxChunk)))) := by
  have hn1 := length_take_chunk src
  by_cases hpast : data.length < off
  · -- from past the end of the file `writei` refuses
    rw [writei_past_end _ (hs.size ▸ hpast)] at hw
    simp only [Option.some.injEq, Prod.mk.injEq] at hw
    obtain ⟨rfl, rfl, rfl⟩ := hw
    exact .inl ⟨rfl, rfl, rfl, chunkedLen_past hpast⟩
  by_cases hfit : off + min src.length maxChunk ≤ maxfile * bsize
  · -- the chunk fits, and is written
    obtain ⟨rfl, hs₁, hc₁, hsz₁⟩ :=
      writei_spec hs.inv hs.content hs.size (by rw [hs.size]; omega) (by rw [hn1]; exact hfit) hw
    have hlen₁ := Splice.length_overwrite (by omega : off ≤ data.length) (src.take (min src.length maxChunk))
    rw [hn1] at hlen₁
    exact .inr ⟨by rw [hn1], by omega, hfit, hs₁, hc₁, hsz₁, by rw [hlen₁]; exact max_le hs.le_max hfit⟩
  · -- the chunk would end past `MAXFILE*BSIZE`
    have hlt : off + (src.take (min src.length maxChunk)).length < 2 ^ 32 := by
      have := hs.le_max
      rw [hn1]
      simp only [maxChunk_eq, maxfile_bsize_eq] at this hfit ⊢
      omega
    rw [writei_fail hlt (Or.inr (by rw [hn1]; omega))] at hw
    simp only [Option.some.injEq, Prod.mk.injEq] at hw
    obtain ⟨rfl, rfl, rfl⟩ := hw
    exact .inl ⟨rfl, rfl, rfl, chunkedLen_stop (by omega) (by omega)⟩

/-- **`writei` of a write that fits**, in a file holding `data`: from an offset within the file
to an end within `MAXFILE*BSIZE`, with four free blocks for each block it adds to the file, it
writes all of `src`, and the file then holds `data` with `src` written at `off`. -/
theorem writei_stores {data : List UInt8} (hs : Stores fs ip data) (src : List UInt8)
    (hoff : off ≤ data.length) (hend : off + src.length ≤ maxfile * bsize)
    (hroom : 4 * (blocksFor (Splice.overwrite data off src).length - blocksFor data.length) ≤ freeCount fs) :
    ∃ fs' ip', writei fs ip off src = some ((src.length : Int), fs', ip') ∧
      Stores fs' ip' (Splice.overwrite data off src) ∧
      Uses (4 * (blocksFor (Splice.overwrite data off src).length - blocksFor data.length)) fs fs' := by
  have hlen := Splice.length_overwrite hoff src
  rw [hlen, blocksFor_max_sub] at hroom ⊢
  obtain ⟨fs', ip', hw, hu⟩ := writei_of_free hs.inv hs.content hs.size src hoff hend hroom
  obtain ⟨-, hinv, hcont, hsize⟩ :=
    writei_spec hs.inv hs.content hs.size (by rw [hs.size]; exact hoff) hend hw
  refine ⟨fs', ip', hw, ⟨hinv, hcont, hsize, ?_⟩, hu⟩
  rw [hlen]
  exact max_le hs.le_max hend

/-- A first chunk that fits: the loop leaves what the rest of it leaves in the file after that
chunk. -/
theorem chunkedWrite_step {data : List UInt8} (hoff : off ≤ data.length)
    (hfit : off + min src.length maxChunk ≤ maxfile * bsize) :
    chunkedWrite data off src =
      chunkedWrite (Splice.overwrite data off (src.take (min src.length maxChunk)))
        (off + min src.length maxChunk) (src.drop (min src.length maxChunk)) := by
  have hlen := Splice.le_length_overwrite hoff (src.take (min src.length maxChunk))
  rw [length_take_chunk] at hlen
  unfold chunkedWrite
  rw [chunkedLen_step hoff hfit hlen, List.length_drop, List.take_add, Splice.overwrite_append hoff,
    length_take_chunk]

/-- **The loop of `filewrite` writes the byte array.** From a file holding `data`, the loop
adds up `chunkedLen` bytes, ends that far past `off`, and leaves a file holding `data` with
those first bytes of `src` written at `off`. -/
theorem writeChunks_spec : ∀ (fuel : Nat) {fs fs' : FsState} {ip ip' : DInode} {off i off' : Nat}
    {src data : List UInt8}, Stores fs ip data →
    writeChunks fuel fs ip off src = some (i, fs', ip', off') →
    i = chunkedLen data.length off src.length ∧ off' = off + i ∧
      Stores fs' ip' (Splice.overwrite data off (src.take i))
  | fuel, fs, fs', ip, ip', off, i, off', [], data, hs, hw => by
    rw [writeChunks_nil] at hw
    simp only [Option.some.injEq, Prod.mk.injEq] at hw
    obtain ⟨rfl, rfl, rfl, rfl⟩ := hw
    exact ⟨(chunkedLen_zero hs.le_max).symm, rfl, by simpa using hs⟩
  | 0, _, _, _, _, _, _, _, _ :: _, _, _, hw => by simp [writeChunks] at hw
  | fuel + 1, fs, fs', ip, ip', off, i, off', b :: bs, data, hs, hw => by
    rw [writeChunks_succ (List.cons_ne_nil b bs)] at hw
    obtain ⟨⟨r, fs₁, ip₁⟩, hwi, hrun⟩ := Option.bind_eq_some_iff.mp hw
    dsimp only at hrun
    rcases writei_chunk hs hwi with ⟨rfl, rfl, rfl, h0⟩ | ⟨rfl, hoff, hfit, hs₁⟩
    · -- a refused chunk ends the loop with nothing written
      rw [if_pos (by decide)] at hrun
      simp only [Option.some.injEq, Prod.mk.injEq] at hrun
      obtain ⟨rfl, rfl, rfl, rfl⟩ := hrun
      exact ⟨h0.symm, rfl, by simpa using hs⟩
    · -- the chunk is written, and the loop goes on from its end
      rw [if_neg (by omega), if_neg (by simp)] at hrun
      obtain ⟨⟨i', fs₂, ip₂, off₂⟩, hrest, he⟩ := Option.map_eq_some_iff.mp hrun
      simp only [Prod.mk.injEq] at he
      obtain ⟨rfl, rfl, rfl, rfl⟩ := he
      have hreach := Splice.le_length_overwrite hoff ((b :: bs).take (min (b :: bs).length maxChunk))
      rw [length_take_chunk] at hreach
      rw [Nat.mod_eq_of_lt (lt_of_le_of_lt hfit maxfile_bsize_lt)] at hrest
      obtain ⟨rfl, rfl, hs₂⟩ := writeChunks_spec fuel hs₁ hrest
      have hk := chunkedLen_step hoff hfit hreach
      rw [← List.length_drop] at hk
      refine ⟨hk.symm, by omega, ?_⟩
      -- the two writes make one, of the first `chunkedLen` bytes
      rw [← hk]
      show Stores _ _ (chunkedWrite data off (b :: bs))
      rw [chunkedWrite_step hoff hfit]
      exact hs₂

/-- **The loop of `filewrite` does not panic** while four blocks are free for each block it
adds to the file: `writei` refuses a chunk or writes all of it, so `short filewrite` cannot
happen, and the loop takes no more blocks than that. -/
theorem writeChunks_of_free : ∀ (fuel : Nat) {fs : FsState} {ip : DInode} (off : Nat) (src : List UInt8)
    {data : List UInt8}, Stores fs ip data → src.length ≤ fuel →
    4 * (blocksFor (chunkedWrite data off src).length - blocksFor data.length) ≤ freeCount fs →
    ∃ i fs' ip' off', writeChunks fuel fs ip off src = some (i, fs', ip', off') ∧
      Uses (4 * (blocksFor (chunkedWrite data off src).length - blocksFor data.length)) fs fs'
  | fuel, fs, ip, off, [], _, _, _, _ => ⟨0, fs, ip, off, writeChunks_nil fuel fs ip off, Uses.refl _ fs⟩
  | 0, _, _, _, _ :: _, _, _, hf, _ => absurd hf (by simp)
  | fuel + 1, fs, ip, off, b :: bs, data, hs, hf, hfree => by
    have hn1 := length_take_chunk (b :: bs)
    rw [writeChunks_succ (List.cons_ne_nil b bs)]
    by_cases hpast : data.length < off
    · -- from past the end of the file `writei` refuses, and the loop ends
      rw [writei_past_end _ (hs.size ▸ hpast), Option.bind_some, if_pos (by simp)]
      exact ⟨0, fs, ip, off, rfl, Uses.refl _ fs⟩
    have hoff : off ≤ data.length := by omega
    by_cases hfit : off + min (b :: bs).length maxChunk ≤ maxfile * bsize
    · -- the chunk is written, and the loop goes on from its end in the file it leaves
      rw [chunkedWrite_step hoff hfit] at hfree ⊢
      set n1 := min (b :: bs).length maxChunk with hn1_def
      -- the blocks the chunk adds, and those the rest of the loop adds after it
      have hD : (Splice.overwrite data off ((b :: bs).take n1)).length ≤
          (chunkedWrite (Splice.overwrite data off ((b :: bs).take n1)) (off + n1) ((b :: bs).drop n1)).length :=
        Splice.length_le_overwrite _ _ _
      have hsum := blocksFor_sub_add (Splice.length_le_overwrite data off ((b :: bs).take n1)) hD
      obtain ⟨fs₁, ip₁, hwi, hs₁, hu₁⟩ := writei_stores hs ((b :: bs).take n1) hoff
        (by rw [hn1]; exact hfit) (by omega)
      rw [hwi, Option.bind_some]
      dsimp only
      rw [hn1, if_neg (by omega), if_neg (by simp), Nat.mod_eq_of_lt (lt_of_le_of_lt hfit maxfile_bsize_lt)]
      obtain ⟨i, fs', ip', off', hrest, hu₂⟩ := writeChunks_of_free fuel (off + n1) ((b :: bs).drop n1) hs₁
        (by simp only [List.length_drop, List.length_cons, hn1_def, maxChunk_eq] at hf ⊢; omega)
        (by have := hu₁.free; omega)
      refine ⟨_, fs', ip', off', by rw [hrest]; rfl, (hu₁.trans hu₂).mono ?_⟩
      omega
    · -- the chunk would end past `MAXFILE*BSIZE`: `writei` refuses, and the loop ends
      have hlt : off + ((b :: bs).take (min (b :: bs).length maxChunk)).length < 2 ^ 32 := by
        have := hs.le_max
        rw [hn1]
        simp only [maxChunk_eq, maxfile_bsize_eq] at this hfit ⊢
        omega
      rw [writei_fail hlt (Or.inr (by rw [hn1]; omega)), Option.bind_some, if_pos (by simp)]
      exact ⟨0, fs, ip, off, rfl, Uses.refl _ fs⟩

/-- **The loop of `filewrite`**, from a file holding `data` with four free blocks for each
block the write adds to it: it returns, having written the first `chunkedLen` bytes of `src`
at `off`. -/
theorem writeChunks_eq {data : List UInt8} (hs : Stores fs ip data)
    (hroom : 4 * (blocksFor (chunkedWrite data off src).length - blocksFor data.length) ≤ freeCount fs) :
    ∃ fs' ip', writeChunks src.length fs ip off src =
        some (chunkedLen data.length off src.length, fs', ip', off + chunkedLen data.length off src.length) ∧
      Stores fs' ip' (chunkedWrite data off src) ∧
      Uses (4 * (blocksFor (chunkedWrite data off src).length - blocksFor data.length)) fs fs' := by
  obtain ⟨i, fs', ip', off', hw, hu⟩ := writeChunks_of_free _ off src hs le_rfl hroom
  obtain ⟨rfl, rfl, hs'⟩ := writeChunks_spec _ hs hw
  exact ⟨fs', ip', hw, hs', hu⟩

end Loop

/-! ## 4. The byte array with a cursor -/

/-- What an open file is to the processes that use it: the bytes of the file, the cursor,
and whether it was opened for reading and for writing. -/
structure ByteFile where
  data : List UInt8
  off : Nat
  readable : Bool
  writable : Bool
  deriving DecidableEq, Repr

/-- Reading `n` bytes at `off`: `-1` past the end, else the bytes there, as many as are
left. -/
def readAt (data : List UInt8) (off n : Nat) : Int × List UInt8 :=
  if data.length < off then (-1, []) else ((min n (data.length - off) : Nat), (data.drop off).take n)

/-- Writing `src` at `off`: the first `chunkedLen` bytes go in, and the count is `n` when all
of them do, `-1` when not. The result is the count, the bytes, and the end of the write. -/
def writeAt (data : List UInt8) (off : Nat) (src : List UInt8) : Int × List UInt8 × Nat :=
  let k := chunkedLen data.length off src.length
  (if k = src.length then src.length else -1, Splice.overwrite data off (src.take k), off + k)

theorem writeAt_data (data : List UInt8) (off : Nat) (src : List UInt8) :
    (writeAt data off src).2.1 = chunkedWrite data off src := rfl

/-- The calls on an open file: `read` and `write` at the cursor, `pread` and `pwrite` at an
`int` offset. -/
inductive FileCall where
  | read (n : Nat)
  | write (src : List UInt8)
  | pread (n : Nat) (off : Int)
  | pwrite (src : List UInt8) (off : Int)
  deriving DecidableEq, Repr

/-- The bytes a call asks to read. -/
def FileCall.asked : FileCall → Nat
  | .read n => n
  | .pread n _ => n
  | _ => 0

/-- A call on the byte array: the count and the bytes read, and the array after it. -/
def ByteFile.call (a : ByteFile) : FileCall → (Int × List UInt8) × ByteFile
  | .read n =>
    if a.readable then (readAt a.data a.off n, { a with off := a.off + (readAt a.data a.off n).2.length })
    else ((-1, []), a)
  | .write src =>
    if a.writable then
      (((writeAt a.data a.off src).1, []),
        { a with data := (writeAt a.data a.off src).2.1, off := (writeAt a.data a.off src).2.2 })
    else ((-1, []), a)
  | .pread n off => if a.readable then (readAt a.data (uintOfInt off) n, a) else ((-1, []), a)
  | .pwrite src off =>
    if a.writable then
      (((writeAt a.data (uintOfInt off) src).1, []), { a with data := (writeAt a.data (uintOfInt off) src).2.1 })
    else ((-1, []), a)

/-- A run of calls on the byte array: what each returns, and the array at the end. -/
def ByteFile.run (a : ByteFile) : List FileCall → List (Int × List UInt8) × ByteFile
  | [] => ([], a)
  | c :: cs => ((a.call c).1 :: ((a.call c).2.run cs).1, ((a.call c).2.run cs).2)

/-- A call never shortens the file. -/
theorem ByteFile.length_le_call (a : ByteFile) (c : FileCall) :
    a.data.length ≤ (a.call c).2.data.length := by
  cases c with
  | read n =>
    rw [ByteFile.call]
    split_ifs <;> exact le_rfl
  | write src =>
    rw [ByteFile.call]
    split_ifs
    · exact Splice.length_le_overwrite _ _ _
    · exact le_rfl
  | pread n o =>
    rw [ByteFile.call]
    split_ifs <;> exact le_rfl
  | pwrite src o =>
    rw [ByteFile.call]
    split_ifs
    · exact Splice.length_le_overwrite _ _ _
    · exact le_rfl

/-- A run never shortens the file. -/
theorem ByteFile.length_le_run : ∀ (a : ByteFile) (cs : List FileCall), a.data.length ≤ (a.run cs).2.data.length
  | _, [] => le_rfl
  | a, c :: cs => (a.length_le_call c).trans ((a.call c).2.length_le_run cs)

/-- An open file of type `FD_INODE` with its inode and the device. -/
structure FileSt where
  fs : FsState
  ip : DInode
  file : File

/-- A call through `sys_read`, `sys_write`, `sys_pread` or `sys_pwrite` on the open file. -/
def FileSt.call (s : FileSt) : FileCall → Option ((Int × List UInt8) × FileSt)
  | .read n => (fileread s.fs s.ip s.file n).map fun r => ((r.1, r.2.1), ⟨r.2.2.1, r.2.2.2.1, r.2.2.2.2⟩)
  | .write src => (filewrite s.fs s.ip s.file src).map fun r => ((r.1, []), ⟨r.2.1, r.2.2.1, r.2.2.2⟩)
  | .pread n off => (pfileread s.fs s.ip s.file n off).map fun r => ((r.1, r.2.1), ⟨r.2.2.1, r.2.2.2, s.file⟩)
  | .pwrite src off => (pfilewrite s.fs s.ip s.file src off).map fun r => ((r.1, []), ⟨r.2.1, r.2.2, s.file⟩)

/-- A run of calls on the open file; `none` if one of them panics. -/
def FileSt.run (s : FileSt) : List FileCall → Option (List (Int × List UInt8) × FileSt)
  | [] => some ([], s)
  | c :: cs => (s.call c).bind fun o => (o.2.run cs).map fun t => (o.1 :: t.1, t.2)

/-- The open file is the byte array: its inode stores the bytes, its `off` is the cursor, a
`uint`, and it has the array's modes. -/
structure FileSt.Refines (s : FileSt) (a : ByteFile) : Prop where
  stores : Stores s.fs s.ip a.data
  off : s.file.off = a.off
  off_lt : a.off < 2 ^ 32
  readable : s.file.readable = a.readable
  writable : s.file.writable = a.writable

/-! ## 5. Each call, and every run of calls -/

section Refine

variable {fs : FsState} {ip : DInode} {data : List UInt8} {off n : Nat}

/-- **`readi` reads the byte array**, for a count that is an `int`. -/
theorem readi_stores (hs : Stores fs ip data) (hn : n < 2 ^ 31) :
    readi fs ip off n = some ((readAt data off n).1, (readAt data off n).2, fs, ip) := by
  unfold readAt
  split_ifs with hpast
  · unfold readi
    rw [if_pos (Or.inl (hs.size ▸ hpast))]
  · have hwrap : off + n < 2 ^ 32 := by
      have := hs.le_max
      rw [maxfile_bsize_eq] at this
      omega
    have htake := @List.take_eq_take_min _ (data.drop off) n
    rw [List.length_drop] at htake
    rw [readi_of_content hs.content hs.size (by rw [hs.size]; omega) hwrap, hs.size, ← htake]

/-- The cursor after `fileread`: `f->off += r` moves it past the bytes read, and cannot
wrap. -/
theorem readAt_cursor (off n : Nat) (hlen : data.length ≤ maxfile * bsize) :
    (if 0 < (readAt data off n).1 then (off + (readAt data off n).1.toNat) % 2 ^ 32 else off) =
      off + (readAt data off n).2.length := by
  unfold readAt
  rw [maxfile_bsize_eq] at hlen
  split_ifs with hpast hpos hpos
  · simp at hpos
  · rfl
  · simp only [List.length_take, List.length_drop]
    omega
  · simp only [List.length_take, List.length_drop]
    omega

/-- The cursor after a write is a `uint`. -/
theorem writeAt_end_lt (hoff : off < 2 ^ 32) (src : List UInt8) :
    (writeAt data off src).2.2 < 2 ^ 32 := by
  have := maxfile_bsize_lt
  simp only [writeAt, chunkedLen, maxChunk_eq]
  split_ifs <;> omega

/-- **`filewrite` writes the byte array at the cursor**, with four free blocks for each block
the write adds to the file. -/
theorem filewrite_eq (hs : Stores fs ip data) {f : File} (hw : f.writable = true) {src : List UInt8}
    (hroom : 4 * (blocksFor (writeAt data f.off src).2.1.length - blocksFor data.length) ≤ freeCount fs) :
    ∃ fs' ip', filewrite fs ip f src =
        some ((writeAt data f.off src).1, fs', ip', { f with off := (writeAt data f.off src).2.2 }) ∧
      Stores fs' ip' (writeAt data f.off src).2.1 ∧
      Uses (4 * (blocksFor (writeAt data f.off src).2.1.length - blocksFor data.length)) fs fs' := by
  rw [writeAt_data] at hroom ⊢
  obtain ⟨fs', ip', hl, hs', hu⟩ := writeChunks_eq hs hroom
  refine ⟨fs', ip', ?_, hs', hu⟩
  rw [filewrite, if_neg (by simp [hw]), hl]
  rfl

/-- **`pfilewrite` writes the byte array at its offset**, with four free blocks for each block
the write adds to the file. -/
theorem pfilewrite_eq (hs : Stores fs ip data) {f : File} (hw : f.writable = true) {src : List UInt8}
    (o : Int)
    (hroom : 4 * (blocksFor (writeAt data (uintOfInt o) src).2.1.length - blocksFor data.length) ≤ freeCount fs) :
    ∃ fs' ip', pfilewrite fs ip f src o = some ((writeAt data (uintOfInt o) src).1, fs', ip') ∧
      Stores fs' ip' (writeAt data (uintOfInt o) src).2.1 ∧
      Uses (4 * (blocksFor (writeAt data (uintOfInt o) src).2.1.length - blocksFor data.length)) fs fs' := by
  rw [writeAt_data] at hroom ⊢
  obtain ⟨fs', ip', hl, hs', hu⟩ := writeChunks_eq hs hroom
  refine ⟨fs', ip', ?_, hs', hu⟩
  rw [pfilewrite, if_neg (by simp [hw]), hl]
  rfl

end Refine

/-- **One call on an open file is the call on the byte array.** For a read of an `int`
count, and with four free blocks for each block the call adds to the file, the call does not
panic, returns what the array returns, and leaves the file the array after the call. It takes
no more blocks than that. -/
theorem fileCall_refines {s : FileSt} {a : ByteFile} (h : s.Refines a) (c : FileCall)
    (hask : c.asked < 2 ^ 31)
    (hroom : 4 * (blocksFor (a.call c).2.data.length - blocksFor a.data.length) ≤ freeCount s.fs) :
    ∃ s', s.call c = some ((a.call c).1, s') ∧ s'.Refines (a.call c).2 ∧
      Uses (4 * (blocksFor (a.call c).2.data.length - blocksFor a.data.length)) s.fs s'.fs := by
  cases c with
  | read n =>
    have hn : n < 2 ^ 31 := hask
    by_cases hr : a.readable = true
    · rw [ByteFile.call, if_pos hr]
      have hcur := readAt_cursor a.off n h.stores.le_max
      refine ⟨⟨s.fs, s.ip, { s.file with off := a.off + (readAt a.data a.off n).2.length }⟩, ?_,
        ⟨h.stores, rfl, ?_, h.readable, h.writable⟩, Uses.refl _ _⟩
      · rw [FileSt.call, fileread, if_neg (by simp [h.readable, hr]), h.off, readi_stores h.stores hn,
          Option.map_some, Option.map_some]
        simp only [hcur]
      · rw [← hcur]
        split_ifs
        · exact Nat.mod_lt _ (by decide)
        · exact h.off_lt
    · rw [ByteFile.call, if_neg hr]
      refine ⟨s, ?_, h, Uses.refl _ _⟩
      rw [FileSt.call, fileread, if_pos (by simpa [h.readable] using hr)]
      rfl
  | write src =>
    by_cases hw : a.writable = true
    · rw [ByteFile.call, if_pos hw] at hroom ⊢
      rw [← h.off] at hroom
      obtain ⟨fs', ip', hl, hs', hu⟩ := filewrite_eq h.stores (h.writable.trans hw) hroom
      rw [h.off] at hl hs' hu
      refine ⟨⟨fs', ip', { s.file with off := (writeAt a.data a.off src).2.2 }⟩, ?_,
        ⟨hs', rfl, writeAt_end_lt h.off_lt src, h.readable, h.writable⟩, hu⟩
      rw [FileSt.call, hl, Option.map_some]
    · rw [ByteFile.call, if_neg hw]
      refine ⟨s, ?_, h, Uses.refl _ _⟩
      rw [FileSt.call, filewrite, if_pos (by simpa [h.writable] using hw)]
      rfl
  | pread n o =>
    have hn : n < 2 ^ 31 := hask
    by_cases hr : a.readable = true
    · rw [ByteFile.call, if_pos hr]
      refine ⟨s, ?_, h, Uses.refl _ _⟩
      rw [FileSt.call, pfileread, if_neg (by simp [h.readable, hr]), readi_stores h.stores hn,
        Option.map_some]
    · rw [ByteFile.call, if_neg hr]
      refine ⟨s, ?_, h, Uses.refl _ _⟩
      rw [FileSt.call, pfileread, if_pos (by simpa [h.readable] using hr)]
      rfl
  | pwrite src o =>
    by_cases hw : a.writable = true
    · rw [ByteFile.call, if_pos hw] at hroom ⊢
      obtain ⟨fs', ip', hl, hs', hu⟩ := pfilewrite_eq h.stores (h.writable.trans hw) o hroom
      refine ⟨⟨fs', ip', s.file⟩, ?_, ⟨hs', h.off, h.off_lt, h.readable, h.writable⟩, hu⟩
      rw [FileSt.call, hl, Option.map_some]
    · rw [ByteFile.call, if_neg hw]
      refine ⟨s, ?_, h, Uses.refl _ _⟩
      rw [FileSt.call, pfilewrite, if_pos (by simpa [h.writable] using hw)]
      rfl

/-- **Every run of calls on an open file is the run on the byte array.** While every read
asks for an `int` count and the device has four free blocks for each block the run adds to
the file, the run does not panic, returns what the run on the array returns, call by call, and
leaves the file the array at the end. -/
theorem fileRun_refines : ∀ (cs : List FileCall) {s : FileSt} {a : ByteFile}, s.Refines a →
    (∀ c ∈ cs, c.asked < 2 ^ 31) →
    4 * (blocksFor (a.run cs).2.data.length - blocksFor a.data.length) ≤ freeCount s.fs →
    ∃ s', s.run cs = some ((a.run cs).1, s') ∧ s'.Refines (a.run cs).2
  | [], s, _, h, _, _ => ⟨s, rfl, h⟩
  | c :: cs, s, a, h, hask, hroom => by
    have hroom' : 4 * (blocksFor ((a.call c).2.run cs).2.data.length - blocksFor a.data.length) ≤
        freeCount s.fs := hroom
    -- the blocks the first call adds, and those the rest of the run adds after it
    have hsum := blocksFor_sub_add (a.length_le_call c) ((a.call c).2.length_le_run cs)
    obtain ⟨s₁, hc, h₁, hu⟩ := fileCall_refines h c (hask c List.mem_cons_self) (by omega)
    obtain ⟨s', hr, h'⟩ := fileRun_refines cs h₁ (fun c' hc' => hask c' (List.mem_cons_of_mem _ hc'))
      (by have := hu.free; omega)
    refine ⟨s', ?_, h'⟩
    rw [FileSt.run, hc, Option.bind_some]
    dsimp only
    rw [hr]
    rfl

/-- An empty file, open for reading and writing, on a device of 20 blocks with only block 0
in use. -/
def emptyFileSt : FileSt := ⟨⟨fun _ => Block.zero, fun b => decide (b = 0), 20⟩, ⟨0, fun _ => 0⟩, ⟨true, true, 0⟩⟩

theorem emptyFileSt_refines : emptyFileSt.Refines ⟨[], 0, true, true⟩ where
  stores := ⟨⟨⟨by decide, by decide⟩, rfl, by decide⟩, HasContent.nil _ _, rfl, by decide⟩
  off := rfl
  off_lt := by decide
  readable := rfl
  writable := rfl

/-- Writing three bytes, reading two of them back at offset 1, and reading at the cursor,
which stands at the end. -/
theorem fileRun_refines_write_pread_read :
    emptyFileSt.Refines ⟨[], 0, true, true⟩ ∧
      ∃ s', emptyFileSt.run [.write [1, 2, 3], .pread 2 1, .read 1] =
          some ((ByteFile.run ⟨[], 0, true, true⟩ [.write [1, 2, 3], .pread 2 1, .read 1]).1, s') ∧
        s'.Refines (ByteFile.run ⟨[], 0, true, true⟩ [.write [1, 2, 3], .pread 2 1, .read 1]).2 :=
  ⟨emptyFileSt_refines,
    fileRun_refines _ emptyFileSt_refines (by decide) (by decide)⟩

example : (ByteFile.run ⟨[], 0, true, true⟩ [.write [1, 2, 3], .pread 2 1, .read 1]).1 =
    [(3, []), (2, [2, 3]), (0, [])] := by decide

end Xv6.Fs
