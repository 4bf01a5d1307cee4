import Xv6.Fs.File

/-!
# A file's bytes are the writes made to it

A write of `n` bytes at `off` reaches an inode in three ways (`WriteCall`): `writei` itself, or
the loop of `filewrite` and of `pfilewrite`, which splits it into chunks of `max` bytes, one
`writei` each. A write that starts within the file and ends within `MAXFILE*BSIZE` puts all of
its bytes there, whichever way it goes, and returns `n` (`WriteCall.run_spec`). A run of such
writes on an empty inode then leaves the array that the same writes make of an empty array
(`applyWrites`), its size the largest end offset written, and `readi`, `fileread` and
`pfileread` read that array; `pfileread` and `pfilewrite` leave the open file, `f->off`
included, as it was (`writes_refine_array`). The device needs four free blocks for each block
of the array, as `balloc` panics when none is left.
-/

set_option autoImplicit false

namespace Xv6.Fs

/-! ## 1. Writes, and the array they make -/

/-- A write of the bytes `src` at `off`: passed to `writei`, to `filewrite` on a file whose
`f->off` is `off`, or to `pfilewrite` with the offset `off`. -/
inductive WriteCall where
  | writei (off : Nat) (src : List UInt8)
  | filewrite (off : Nat) (src : List UInt8)
  | pfilewrite (off : Nat) (src : List UInt8)
  deriving DecidableEq, Repr

namespace WriteCall

/-- The offset the write starts at. -/
def off : WriteCall → Nat
  | .writei off _ => off
  | .filewrite off _ => off
  | .pfilewrite off _ => off

/-- The bytes the write writes. -/
def src : WriteCall → List UInt8
  | .writei _ src => src
  | .filewrite _ src => src
  | .pfilewrite _ src => src

/-- The write on the device and the inode, through a file opened for reading and writing: the
count it returns, the device and the inode. -/
def run (fs : FsState) (ip : DInode) : WriteCall → Option (Int × FsState × DInode)
  | .writei off src => Fs.writei fs ip off src
  | .filewrite off src => (Fs.filewrite fs ip ⟨true, true, off⟩ src).map fun r => (r.1, r.2.1, r.2.2.1)
  | .pfilewrite off src => Fs.pfilewrite fs ip ⟨true, true, 0⟩ src off

end WriteCall

/-- The writes one after the other: the count each returns, the device and the inode; `none`
if one of them panics. -/
def writeRun (fs : FsState) (ip : DInode) : List WriteCall → Option (List Int × FsState × DInode)
  | [] => some ([], fs, ip)
  | w :: ws => (w.run fs ip).bind fun r => (writeRun r.2.1 r.2.2 ws).map fun t => (r.1 :: t.1, t.2)

/-- The array the writes make of `data`, each at its offset. -/
def applyWrites (data : List UInt8) : List WriteCall → List UInt8
  | [] => data
  | w :: ws => applyWrites (Splice.overwrite data w.off w.src) ws

/-- The largest end offset of the writes. -/
def maxEnd : List WriteCall → Nat
  | [] => 0
  | w :: ws => max (w.off + w.src.length) (maxEnd ws)

/-- Each write starts within the array the writes before it make of `data`, and ends within
`MAXFILE*BSIZE`. -/
def WritesFit : List UInt8 → List WriteCall → Prop
  | _, [] => True
  | data, w :: ws =>
    w.off ≤ data.length ∧ w.off + w.src.length ≤ maxfile * bsize ∧
      WritesFit (Splice.overwrite data w.off w.src) ws

instance instDecidableWritesFit : ∀ (data : List UInt8) (ws : List WriteCall), Decidable (WritesFit data ws)
  | _, [] => isTrue trivial
  | data, w :: ws =>
    haveI := instDecidableWritesFit (Splice.overwrite data w.off w.src) ws
    inferInstanceAs (Decidable (_ ∧ _ ∧ _))

/-- Writes never shorten the array. -/
theorem length_le_applyWrites : ∀ (data : List UInt8) (ws : List WriteCall),
    data.length ≤ (applyWrites data ws).length
  | _, [] => le_rfl
  | data, w :: ws =>
    (Splice.length_le_overwrite data w.off w.src).trans (length_le_applyWrites _ ws)

/-- Writes that fit leave the array as long as the larger of its old length and the largest
end offset written. -/
theorem length_applyWrites : ∀ {data : List UInt8} {ws : List WriteCall}, WritesFit data ws →
    (applyWrites data ws).length = max data.length (maxEnd ws)
  | data, [], _ => (max_eq_left (Nat.zero_le _)).symm
  | data, w :: ws, ⟨hoff, _, hfit⟩ => by
    rw [applyWrites, length_applyWrites hfit, Splice.length_overwrite hoff, maxEnd, max_assoc]

example : applyWrites [] [.writei 0 [1, 2, 3], .pfilewrite 1 [7], .filewrite 3 [9]] = [1, 7, 3, 9] := by
  decide

/-! ## 2. One write, and a run of them -/

section Run

variable {fs : FsState} {ip : DInode} {data : List UInt8}

/-- **A write that fits puts its bytes in the file**, whichever way it reaches `writei`: from an
offset within the file to an end within `MAXFILE*BSIZE`, with four free blocks for each block it
adds to the file, it returns `n`, and the file then holds `data` with `src` written at `off`. -/
theorem WriteCall.run_spec (hs : Stores fs ip data) (w : WriteCall) (hoff : w.off ≤ data.length)
    (hend : w.off + w.src.length ≤ maxfile * bsize)
    (hroom : 4 * (blocksFor (Splice.overwrite data w.off w.src).length - blocksFor data.length) ≤
      freeCount fs) :
    ∃ fs' ip', w.run fs ip = some ((w.src.length : Int), fs', ip') ∧
      Stores fs' ip' (Splice.overwrite data w.off w.src) ∧
      Uses (4 * (blocksFor (Splice.overwrite data w.off w.src).length - blocksFor data.length)) fs fs' := by
  cases w with
  | writei off src => exact writei_stores hs src hoff hend hroom
  | filewrite off src =>
    dsimp only [WriteCall.off, WriteCall.src] at hoff hend hroom ⊢
    -- the loop writes every chunk, so `filewrite` writes all `n` bytes and returns `n`
    have hall := chunkedLen_fit hoff hend
    have hw : writeAt data off src = ((src.length : Int), Splice.overwrite data off src, off + src.length) := by
      simp [writeAt, hall]
    obtain ⟨fs', ip', hl, hs', hu⟩ := filewrite_eq (f := ⟨true, true, off⟩) hs rfl (by rw [hw]; exact hroom)
    rw [hw] at hl hs' hu
    exact ⟨fs', ip', by rw [WriteCall.run, hl, Option.map_some], hs', hu⟩
  | pfilewrite off src =>
    dsimp only [WriteCall.off, WriteCall.src] at hoff hend hroom ⊢
    have hall := chunkedLen_fit hoff hend
    have hoff32 : uintOfInt off = off :=
      uintOfInt_natCast (lt_of_le_of_lt (Nat.le_add_right _ _) (lt_of_le_of_lt hend maxfile_bsize_lt))
    have hw : writeAt data (uintOfInt off) src =
        ((src.length : Int), Splice.overwrite data off src, off + src.length) := by
      rw [hoff32]
      simp [writeAt, hall]
    obtain ⟨fs', ip', hl, hs', hu⟩ :=
      pfilewrite_eq (f := ⟨true, true, 0⟩) hs rfl (off : Int) (by rw [hw]; exact hroom)
    rw [hw] at hl hs' hu
    exact ⟨fs', ip', hl, hs', hu⟩

/-- **A run of writes that fit puts its bytes in the file**: from a file holding `data`, with
four free blocks for each block the run adds to it, each write returns its `n`, and the file
then holds the array the writes make of `data`. -/
theorem writeRun_spec : ∀ (ws : List WriteCall) {fs : FsState} {ip : DInode} {data : List UInt8},
    Stores fs ip data → WritesFit data ws →
    4 * (blocksFor (applyWrites data ws).length - blocksFor data.length) ≤ freeCount fs →
    ∃ fs' ip', writeRun fs ip ws = some (ws.map fun w => (w.src.length : Int), fs', ip') ∧
      Stores fs' ip' (applyWrites data ws)
  | [], fs, ip, _, hs, _, _ => ⟨fs, ip, rfl, hs⟩
  | w :: ws, fs, ip, data, hs, ⟨hoff, hend, hfit⟩, hroom => by
    -- the blocks the first write adds, and those the rest of the run adds after it
    have hsum := blocksFor_sub_add (Splice.length_le_overwrite data w.off w.src)
      (length_le_applyWrites (Splice.overwrite data w.off w.src) ws)
    have hroom' : 4 * (blocksFor (applyWrites (Splice.overwrite data w.off w.src) ws).length -
        blocksFor data.length) ≤ freeCount fs := hroom
    obtain ⟨fs₁, ip₁, hw, hs₁, hu⟩ := w.run_spec hs hoff hend (by omega)
    obtain ⟨fs', ip', hr, hs'⟩ := writeRun_spec ws hs₁ hfit (by have := hu.free; omega)
    refine ⟨fs', ip', ?_, hs'⟩
    rw [writeRun, hw, Option.bind_some]
    dsimp only
    rw [hr, Option.map_some]
    rfl

end Run

/-! ## 3. Reading what the writes made -/

section Read

variable {s s' : FileSt} {r : Int × List UInt8}

/-- `pfileread` leaves the open file, `f->off` included, as it was. -/
theorem FileSt.call_pread_file {n : Nat} {o : Int} (h : s.call (.pread n o) = some (r, s')) :
    s'.file = s.file := by
  obtain ⟨_, -, he⟩ := Option.map_eq_some_iff.mp h
  rw [← (Prod.mk.inj he).2]

/-- `pfilewrite` leaves the open file, `f->off` included, as it was. -/
theorem FileSt.call_pwrite_file {src : List UInt8} {o : Int} (h : s.call (.pwrite src o) = some (r, s')) :
    s'.file = s.file := by
  obtain ⟨_, -, he⟩ := Option.map_eq_some_iff.mp h
  rw [← (Prod.mk.inj he).2]

end Read

/-- **The bytes of a file are the writes made to it.** On an empty inode, a run of writes, each
passed to `writei`, `filewrite` or `pfilewrite`, from an offset within the file to an end within
`MAXFILE*BSIZE`, with four free blocks for each block of the array the writes make of an empty
array: each write returns its count, and the inode's size is the largest end offset written.
Then `readi` of `n < 2^31` bytes at any offset returns the array's bytes there, as `pfileread`
does, and `fileread` at the file's offset, which it moves past them. `pfileread` and
`pfilewrite` leave `f->off`. -/
theorem writes_refine_array {fs : FsState} {ip : DInode} (hs : Stores fs ip []) (ws : List WriteCall)
    (hfit : WritesFit [] ws) (hroom : 4 * blocksFor (applyWrites [] ws).length ≤ freeCount fs) :
    ∃ fs' ip', writeRun fs ip ws = some (ws.map fun w => (w.src.length : Int), fs', ip') ∧
      ip'.size = maxEnd ws ∧
      (∀ off n, n < 2 ^ 31 →
        readi fs' ip' off n =
          some ((readAt (applyWrites [] ws) off n).1, (readAt (applyWrites [] ws) off n).2, fs', ip')) ∧
      (∀ (f : File) n, f.readable = true → n < 2 ^ 31 →
        (∀ o : Int, FileSt.call ⟨fs', ip', f⟩ (.pread n o) =
          some (readAt (applyWrites [] ws) (uintOfInt o) n, ⟨fs', ip', f⟩)) ∧
        FileSt.call ⟨fs', ip', f⟩ (.read n) =
          some (readAt (applyWrites [] ws) f.off n,
            ⟨fs', ip', { f with off := f.off + (readAt (applyWrites [] ws) f.off n).2.length }⟩)) ∧
      (∀ (s s' : FileSt) (r : Int × List UInt8) (n : Nat) (src : List UInt8) (o : Int),
        (s.call (.pread n o) = some (r, s') → s'.file = s.file) ∧
        (s.call (.pwrite src o) = some (r, s') → s'.file = s.file)) := by
  obtain ⟨fs', ip', hrun, hs'⟩ := writeRun_spec ws hs hfit (by rw [List.length_nil]; omega)
  have hsize : ip'.size = maxEnd ws := by
    rw [hs'.size, length_applyWrites hfit, List.length_nil, max_eq_right (Nat.zero_le _)]
  refine ⟨fs', ip', hrun, hsize, fun off n hn => readi_stores hs' hn, fun f n hr hn => ⟨?_, ?_⟩,
    fun s s' r n src o => ⟨FileSt.call_pread_file, FileSt.call_pwrite_file⟩⟩
  · intro o
    rw [FileSt.call, pfileread, if_neg (by simp [hr]), readi_stores hs' hn, Option.map_some]
  · rw [FileSt.call, fileread, if_neg (by simp [hr]), readi_stores hs' hn, Option.map_some,
      Option.map_some]
    simp only [readAt_cursor f.off n hs'.le_max]

/-! ## 4. Writes past the direct blocks -/

/-- A device of 100 blocks with only block 0 in use. -/
def emptyFs100 : FsState := ⟨fun _ => Block.zero, fun b => decide (b = 0), 100⟩

theorem emptyFs100_stores : Stores emptyFs100 ⟨0, fun _ => 0⟩ [] :=
  ⟨⟨⟨by decide, by decide⟩, rfl, by decide⟩, HasContent.nil _ _, rfl, by decide⟩

/-- 5121 bytes through `writei`, past the ten direct blocks into the first block under the
single indirect block; 200 bytes through `filewrite` from offset 5000, across that boundary;
one byte through `pfilewrite` at offset 3. -/
def crossingWrites : List WriteCall :=
  [.writei 0 (List.replicate 5121 1), .filewrite 5000 (List.replicate 200 2), .pfilewrite 3 [9]]

set_option maxRecDepth 200000 in
/-- The writes of `crossingWrites` on an empty inode return their counts and leave a file of
5200 bytes, in which `readi` at offset 4998 finds two bytes of the first write and then two of
the second. -/
theorem writes_refine_array_past_direct :
    Stores emptyFs100 ⟨0, fun _ => 0⟩ [] ∧ WritesFit [] crossingWrites ∧
      4 * blocksFor (applyWrites [] crossingWrites).length ≤ freeCount emptyFs100 ∧
      ∃ fs' ip', writeRun emptyFs100 ⟨0, fun _ => 0⟩ crossingWrites = some ([5121, 200, 1], fs', ip') ∧
        ip'.size = 5200 ∧ readi fs' ip' 4998 4 = some (4, [1, 1, 2, 2], fs', ip') := by
  have hfit : WritesFit [] crossingWrites := by decide
  have hroom : 4 * blocksFor (applyWrites [] crossingWrites).length ≤ freeCount emptyFs100 := by decide
  obtain ⟨fs', ip', hrun, hsize, hread, -⟩ := writes_refine_array emptyFs100_stores crossingWrites hfit hroom
  have hcounts : crossingWrites.map (fun w => (w.src.length : Int)) = [5121, 200, 1] := by decide
  have hend : maxEnd crossingWrites = 5200 := by decide
  have hat : readAt (applyWrites [] crossingWrites) 4998 4 = (4, [1, 1, 2, 2]) := by decide
  refine ⟨emptyFs100_stores, hfit, hroom, fs', ip', by rw [← hcounts]; exact hrun, hsize.trans hend, ?_⟩
  rw [hread 4998 4 (by decide), hat]

end Xv6.Fs
