import Xv6.Fs.File

/-!
# `log.c`: a commit survives a crash all or nothing

`commit()` writes a transaction in four steps, each a sequence of `bwrite`s: `write_log`
copies the cached copy of each block of the transaction into the log, `write_head` writes the
header naming them (the commit point), `install_trans` copies each log block to its home, and
a second `write_head` clears the header. At boot `recover_from_log` reads the header and
installs what it names. Here each step is a list of disk updates, one for each `bwrite`, so
that a crash after any `bwrite` leaves the disk that a prefix of `commit` leaves.

For a transaction of distinct blocks outside the log (`TransOk`), recovery after a crash at
any point leaves every block outside the log as it was before the commit when the crash came
before the header reached the disk, and as the transaction leaves it when it came after
(`commit_crash`); a crash during recovery changes nothing either (`recover_crash`).
-/

set_option autoImplicit false

namespace Xv6.Log

open Xv6.Fs

/-! ## 1. The code -/

/-- `LOGSIZE`. -/
def logsize : Nat := maxopblocks * 3

/-- The disk: what each block holds. -/
abbrev Disk := Nat → Block

/-- The `uint` at word `j` of a block; none past its end. -/
def wordAt (b : Block) (j : Nat) : Nat := if h : j < nindirect then b.word ⟨j, h⟩ else 0

/-- The block with word `j` set to `v`. -/
def setWordAt (b : Block) (j v : Nat) : Block :=
  if h : j < nindirect then Bytes.setWord b ⟨j, h⟩ v else b

/-- Words `j, j + 1, …` of the block set to `xs`. -/
def putWords (b : Block) : Nat → List Nat → Block
  | _, [] => b
  | j, x :: xs => putWords (setWordAt b j x) (j + 1) xs

/-- The header block after `write_head` of the blocks `lh`: `hb->n` is word 0 and
`hb->block[i]` word `i + 1`; the words past `n` keep what they held. -/
def setHeader (b : Block) (lh : List Nat) : Block := putWords (setWordAt b 0 lh.length) 1 lh

/-- `read_head()`: `n`, then `block[i]` for `i < n`. A negative `n` installs nothing; an `n`
past `LOGSIZE` overruns `log.lh.block`, and is `none`. -/
def readHead (b : Block) : Option (List Nat) :=
  if 2 ^ 31 ≤ wordAt b 0 then some []
  else if logsize < wordAt b 0 then none
  else some ((List.range (wordAt b 0)).map fun i => wordAt b (i + 1))

/-- `write_head()` with the in-memory header `lh`. -/
def writeHead (start : Nat) (lh : List Nat) (d : Disk) : Disk :=
  Function.update d start (setHeader (d start) lh)

/-- The `bwrite` of `write_log()` for `tail`: the cached copy of block `lh[tail]` into log
block `start + tail + 1`. -/
def logBlock (start : Nat) (cache : Disk) (lh : List Nat) (tail : Nat) (d : Disk) : Disk :=
  Function.update d (start + tail + 1) (cache (lh.getD tail 0))

/-- The `bwrite` of `install_trans()` for `tail`: log block `start + tail + 1` into its home
`lh[tail]`. -/
def installBlock (start : Nat) (lh : List Nat) (tail : Nat) (d : Disk) : Disk :=
  Function.update d (lh.getD tail 0) (d (start + tail + 1))

/-- `write_log()`. -/
def writeLog (start : Nat) (cache : Disk) (lh : List Nat) : List (Disk → Disk) :=
  (List.range lh.length).map (logBlock start cache lh)

/-- `install_trans()`. -/
def installTrans (start : Nat) (lh : List Nat) : List (Disk → Disk) :=
  (List.range lh.length).map (installBlock start lh)

/-- `commit()` as the `bwrite`s it does, in order; `cache` is what `bread` returns for the
blocks of the transaction, their dirty copies in the buffer cache. -/
def commit (start : Nat) (cache : Disk) (lh : List Nat) : List (Disk → Disk) :=
  if 0 < lh.length then
    writeLog start cache lh ++ [writeHead start lh] ++ installTrans start lh ++ [writeHead start []]
  else []

/-- The disk after the `bwrite`s `ws`. -/
def runWrites (ws : List (Disk → Disk)) (d : Disk) : Disk := ws.foldl (fun d w => w d) d

/-- The `bwrite`s of `recover_from_log()` once `read_head` has read `lh`. -/
def recoverWrites (start : Nat) (lh : List Nat) : List (Disk → Disk) :=
  installTrans start lh ++ [writeHead start []]

/-- `recover_from_log()`. -/
def recoverFromLog (start : Nat) (d : Disk) : Option Disk :=
  (readHead (d start)).map fun lh => runWrites (recoverWrites start lh) d

/-! ## 2. Runs of writes, and the header -/

theorem runWrites_append (ws ws' : List (Disk → Disk)) (d : Disk) :
    runWrites (ws ++ ws') d = runWrites ws' (runWrites ws d) :=
  List.foldl_append

theorem runWrites_singleton (w : Disk → Disk) (d : Disk) : runWrites [w] d = w d := rfl

theorem runWrites_range_succ (f : Nat → Disk → Disk) (k : Nat) (d : Disk) :
    runWrites ((List.range (k + 1)).map f) d = f k (runWrites ((List.range k).map f) d) := by
  rw [List.range_succ, List.map_append, runWrites_append]
  rfl

theorem take_map_range (f : Nat → Disk → Disk) (n k : Nat) :
    ((List.range n).map f).take k = (List.range (min k n)).map f := by
  rw [← List.map_take, List.take_range]

theorem wordAt_setWordAt (b : Block) {j : Nat} (hj : j < nindirect) (v k : Nat) :
    wordAt (setWordAt b j v) k = if k = j then v % 2 ^ 32 else wordAt b k := by
  have hset : setWordAt b j v = Bytes.setWord (n := nindirect) b ⟨j, hj⟩ v := dif_pos hj
  unfold wordAt
  rw [hset]
  by_cases hk : k < nindirect
  · rw [dif_pos hk, dif_pos hk]
    by_cases hkj : k = j
    · subst hkj
      rw [if_pos rfl]
      exact Bytes.getWord_setWord_self (n := nindirect) b _ v
    · rw [if_neg hkj]
      exact Bytes.getWord_setWord_of_ne (n := nindirect) b v (Fin.ne_of_val_ne hkj)
  · rw [dif_neg hk, dif_neg hk, if_neg (by omega)]

theorem wordAt_putWords : ∀ (xs : List Nat) (b : Block) (j k : Nat), j + xs.length ≤ nindirect →
    wordAt (putWords b j xs) k =
      if j ≤ k ∧ k < j + xs.length then xs.getD (k - j) 0 % 2 ^ 32 else wordAt b k
  | [], b, j, k, _ => by simp [putWords]
  | x :: xs, b, j, k, h => by
    simp only [List.length_cons] at h
    rw [putWords, wordAt_putWords xs _ (j + 1) k (by omega), wordAt_setWordAt b (by omega)]
    -- word `j` is `x`, the words after it are `xs`
    by_cases hkj : k = j
    · subst hkj
      simp
    · by_cases hin : j + 1 ≤ k ∧ k < j + 1 + xs.length
      · rw [if_pos hin, if_pos (by simp only [List.length_cons]; omega),
          show k - j = (k - (j + 1)) + 1 by omega, List.getD_cons_succ]
      · rw [if_neg hin, if_neg hkj, if_neg (by simp only [List.length_cons]; omega)]

/-- **What `write_head` writes, `read_head` reads back**, for a header of at most `LOGSIZE`
block numbers, each a `uint`. -/
theorem readHead_setHeader (b : Block) {lh : List Nat} (hlen : lh.length ≤ logsize)
    (hw : ∀ x ∈ lh, x < 2 ^ 32) : readHead (setHeader b lh) = some lh := by
  have hfit : 1 + lh.length ≤ nindirect := by
    simp only [logsize, maxopblocks, nindirect, bsize] at hlen ⊢
    omega
  have hn : wordAt (setHeader b lh) 0 = lh.length := by
    rw [setHeader, wordAt_putWords _ _ _ _ hfit, if_neg (by omega),
      wordAt_setWordAt _ (by omega), if_pos rfl, Nat.mod_eq_of_lt (by simp only [logsize, maxopblocks] at hlen; omega)]
  have hlt : lh.length < 2 ^ 31 := by
    simp only [logsize, maxopblocks] at hlen
    omega
  rw [readHead, hn, if_neg (by omega), if_neg (by omega)]
  congr 1
  apply List.ext_getElem (by simp)
  intro i hi _
  simp only [List.length_map, List.length_range] at hi
  rw [List.getElem_map, List.getElem_range, setHeader, wordAt_putWords _ _ _ _ hfit,
    if_pos (by omega), Nat.add_sub_cancel, List.getD_eq_getElem _ _ hi,
    Nat.mod_eq_of_lt (hw _ (List.getElem_mem hi))]

/-! ## 3. The states a crash can leave -/

/-- Block `b` is outside the log, blocks `start … start + size - 1`. -/
def Outside (start size b : Nat) : Prop := b < start ∨ start + size ≤ b

/-- A transaction that `commit` can write: distinct blocks, at most `LOGSIZE` of them and
fewer than the log's blocks after the header, each outside the log and a `uint`. -/
structure TransOk (start size : Nat) (lh : List Nat) : Prop where
  nodup : lh.Nodup
  le_logsize : lh.length ≤ logsize
  lt_size : lh.length < size
  outside : ∀ b ∈ lh, Outside start size b
  word : ∀ b ∈ lh, b < 2 ^ 32

/-- The log blocks hold the transaction: log block `start + i + 1` holds `cache lh[i]`. -/
def LogHolds (start : Nat) (lh : List Nat) (cache d : Disk) : Prop :=
  ∀ i (hi : i < lh.length), d (start + i + 1) = cache lh[i]

/-- The disk with the transaction installed. -/
def applyTrans (d cache : Disk) (lh : List Nat) (b : Nat) : Block := if b ∈ lh then cache b else d b

section Crash

variable {start size : Nat} {cache : Disk} {lh : List Nat}

/-- No block of the transaction is a block of the log. -/
theorem TransOk.not_mem_log (h : TransOk start size lh) {i : Nat} (hi : i < size) :
    start + i ∉ lh := fun hm => by
  rcases h.outside _ hm with hlt | hge <;> omega

theorem TransOk.start_not_mem (h : TransOk start size lh) : start ∉ lh :=
  h.not_mem_log (i := 0) (by have := h.lt_size; omega)

theorem TransOk.logBlock_not_mem (h : TransOk start size lh) {i : Nat} (hi : i < lh.length) :
    start + i + 1 ∉ lh :=
  h.not_mem_log (i := i + 1) (by have := h.lt_size; omega)

theorem writeHead_of_ne (lh : List Nat) (d : Disk) {b : Nat} (hb : b ≠ start) :
    writeHead start lh d b = d b :=
  Function.update_of_ne hb _ _

theorem Outside.ne_start {b : Nat} (hb : Outside start size b) (hsize : 0 < size) : b ≠ start := by
  unfold Outside at hb
  omega

theorem readHead_writeHead (h : TransOk start size lh) (d : Disk) :
    readHead (writeHead start lh d start) = some lh := by
  rw [writeHead, Function.update_self]
  exact readHead_setHeader _ h.le_logsize h.word

theorem readHead_writeHead_nil (d : Disk) : readHead (writeHead start [] d start) = some [] := by
  rw [writeHead, Function.update_self]
  exact readHead_setHeader _ (by simp) (by simp)

/-- The first `k` `bwrite`s of `write_log` fill log blocks `start + 1 … start + k`. -/
theorem runWrites_logBlocks (d : Disk) : ∀ k b, runWrites ((List.range k).map (logBlock start cache lh)) d b =
    if start < b ∧ b ≤ start + k then cache (lh.getD (b - start - 1) 0) else d b
  | 0, b => by
    simp only [List.range_zero, List.map_nil, runWrites, List.foldl_nil]
    rw [if_neg (by omega)]
  | k + 1, b => by
    rw [runWrites_range_succ, logBlock]
    by_cases hb : b = start + k + 1
    · subst hb
      rw [Function.update_self, if_pos (by omega), show start + k + 1 - start - 1 = k by omega]
    · rw [Function.update_of_ne hb, runWrites_logBlocks d k b]
      by_cases hin : start < b ∧ b ≤ start + k
      · rw [if_pos hin, if_pos (by omega)]
      · rw [if_neg hin, if_neg (by omega)]

/-- After `write_log` and `write_head`, the header names the transaction, the log holds it,
and nothing outside the log has changed. -/
theorem commit_logged (h : TransOk start size lh) (cache d : Disk) :
    readHead (writeHead start lh (runWrites (writeLog start cache lh) d) start) = some lh ∧
      LogHolds start lh cache (writeHead start lh (runWrites (writeLog start cache lh) d)) ∧
      ∀ b, Outside start size b → writeHead start lh (runWrites (writeLog start cache lh) d) b = d b := by
  have hsize := h.lt_size
  refine ⟨readHead_writeHead h _, fun i hi => ?_, fun b hb => ?_⟩
  · have hne : start + i + 1 ≠ start := by omega
    rw [writeHead_of_ne _ _ hne, writeLog, runWrites_logBlocks, if_pos (by omega),
      show start + i + 1 - start - 1 = i by omega, List.getD_eq_getElem _ _ hi]
  · rw [writeHead_of_ne _ _ (hb.ne_start (by omega)), writeLog, runWrites_logBlocks,
      if_neg (by unfold Outside at hb; omega)]

/-- The first `j` `bwrite`s of `install_trans` copy the first `j` blocks home. -/
theorem runWrites_installBlocks (h : TransOk start size lh) {d : Disk} (hlog : LogHolds start lh cache d) :
    ∀ j, j ≤ lh.length → ∀ b, runWrites ((List.range j).map (installBlock start lh)) d b =
      if b ∈ lh.take j then cache b else d b
  | 0, _, b => by simp [runWrites]
  | j + 1, hj, b => by
    have hjl : j < lh.length := by omega
    -- the log block read is not a block installed so far
    have hread : start + j + 1 ∉ lh.take j := fun hm => h.logBlock_not_mem hjl (List.mem_of_mem_take hm)
    have htake : lh.take (j + 1) = lh.take j ++ [lh[j]] := by
      rw [List.take_add_one, List.getElem?_eq_getElem hjl, Option.toList_some]
    rw [runWrites_range_succ, installBlock, runWrites_installBlocks h hlog j (by omega) (start + j + 1), if_neg hread, hlog j hjl,
      List.getD_eq_getElem _ _ hjl, htake]
    by_cases hb : b = lh[j]
    · subst hb
      rw [Function.update_self, if_pos (List.mem_append_right _ (List.mem_singleton_self _))]
    · rw [Function.update_of_ne hb, runWrites_installBlocks h hlog j (by omega) b]
      have hmem : b ∈ lh.take j ++ [lh[j]] ↔ b ∈ lh.take j := by
        rw [List.mem_append, List.mem_singleton]
        exact or_iff_left hb
      by_cases hin : b ∈ lh.take j
      · rw [if_pos hin, if_pos (hmem.mpr hin)]
      · rw [if_neg hin, if_neg (mt hmem.mp hin)]

/-- The first `j` `bwrite`s of `install_trans`, as a prefix of it. -/
theorem runWrites_installTrans (h : TransOk start size lh) {d : Disk} (hlog : LogHolds start lh cache d)
    {j : Nat} (hj : j ≤ lh.length) (b : Nat) :
    runWrites ((installTrans start lh).take j) d b = if b ∈ lh.take j then cache b else d b := by
  rw [installTrans, take_map_range, Nat.min_eq_left hj, runWrites_installBlocks h hlog j hj]

/-- Part of `install_trans` keeps the header and the log. -/
theorem installs_keep (h : TransOk start size lh) {d : Disk} (hlog : LogHolds start lh cache d) {j : Nat}
    (hj : j ≤ lh.length) :
    runWrites ((installTrans start lh).take j) d start = d start ∧
      LogHolds start lh cache (runWrites ((installTrans start lh).take j) d) := by
  refine ⟨?_, fun i hi => ?_⟩
  · rw [runWrites_installTrans h hlog hj, if_neg fun hm => h.start_not_mem (List.mem_of_mem_take hm)]
  · rw [runWrites_installTrans h hlog hj, if_neg fun hm => h.logBlock_not_mem hi (List.mem_of_mem_take hm),
      hlog i hi]

/-- All of `install_trans` copies the transaction home. -/
theorem runWrites_installTrans_all (h : TransOk start size lh) {d : Disk} (hlog : LogHolds start lh cache d) :
    runWrites (installTrans start lh) d = applyTrans d cache lh := by
  funext b
  have := runWrites_installTrans h hlog (le_refl lh.length) b
  rwa [List.take_of_length_le (by simp [installTrans]), List.take_length] at this

/-- **Recovery from a clean log** changes only the header. -/
theorem recover_clean {d : Disk} (hd : readHead (d start) = some []) :
    recoverFromLog start d = some (writeHead start [] d) := by
  rw [recoverFromLog, hd, Option.map_some]
  rfl

/-- **Recovery from a committed log** installs the transaction. -/
theorem recover_logged (h : TransOk start size lh) {d : Disk} (hd : readHead (d start) = some lh)
    (hlog : LogHolds start lh cache d) :
    recoverFromLog start d = some (writeHead start [] (applyTrans d cache lh)) := by
  rw [recoverFromLog, hd, Option.map_some, recoverWrites, runWrites_append, runWrites_installTrans_all h hlog]
  rfl

/-- Recovery always leaves a clean header. -/
theorem recoverFromLog_clean {d d' : Disk} (h : recoverFromLog start d = some d') :
    readHead (d' start) = some [] := by
  rw [recoverFromLog] at h
  obtain ⟨lh', -, rfl⟩ := Option.map_eq_some_iff.mp h
  rw [recoverWrites, runWrites_append, runWrites_singleton]
  exact readHead_writeHead_nil _

/-- The first `k` `bwrite`s of a commit, `k` at most its number of blocks, are those of
`write_log`. -/
theorem commit_take_of_le {k : Nat} (hk : k ≤ lh.length) :
    (commit start cache lh).take k = (List.range k).map (logBlock start cache lh) := by
  by_cases hn : 0 < lh.length
  · rw [commit, if_pos hn, List.append_assoc, List.append_assoc,
      List.take_append_of_le_length (by simp [writeLog]; omega), writeLog, take_map_range,
      Nat.min_eq_left hk]
  · obtain rfl : k = 0 := by omega
    rfl

/-- **A crash within `write_log`**, from a clean header: recovery rewrites only the header, and
the log blocks written so far keep the blocks of the transaction. No `TransOk` is needed: the
blocks `write_log` writes need not lie in the log. -/
theorem recover_within_writeLog {d : Disk} (hclean : readHead (d start) = some []) {k : Nat}
    (hk : k ≤ lh.length) :
    recoverFromLog start (runWrites ((commit start cache lh).take k) d) =
      some (writeHead start [] (runWrites ((List.range k).map (logBlock start cache lh)) d)) := by
  rw [commit_take_of_le hk]
  apply recover_clean
  rw [runWrites_logBlocks, if_neg (by omega)]
  exact hclean

/-- **All of `commit()`**, from a clean log: the header is clean again and the transaction
is installed outside the log. -/
theorem commit_full (h : TransOk start size lh) (cache : Disk) {d : Disk}
    (hclean : readHead (d start) = some []) :
    readHead (runWrites (commit start cache lh) d start) = some [] ∧
      ∀ b, Outside start size b → runWrites (commit start cache lh) d b = applyTrans d cache lh b := by
  have hsize : 0 < size := by have := h.lt_size; omega
  by_cases hn : lh.length = 0
  · -- an empty transaction writes nothing
    rw [List.length_eq_zero_iff] at hn
    subst hn
    refine ⟨hclean, fun b _ => ?_⟩
    simp [commit, runWrites, applyTrans]
  obtain ⟨-, hlog, hframe⟩ := commit_logged h cache d
  rw [commit, if_pos (by omega), runWrites_append, runWrites_append, runWrites_append,
    runWrites_singleton, runWrites_singleton, runWrites_installTrans_all h hlog]
  refine ⟨readHead_writeHead_nil _, fun b hb => ?_⟩
  rw [writeHead_of_ne _ _ (hb.ne_start hsize), applyTrans, applyTrans]
  by_cases hb' : b ∈ lh
  · rw [if_pos hb', if_pos hb']
  · rw [if_neg hb', if_neg hb']
    exact hframe b hb

/-- **A commit survives a crash all or nothing.** For a transaction of distinct blocks outside
the log, from a disk with a clean log, a crash after any number `k` of the `bwrite`s of
`commit()` followed by `recover_from_log()` leaves a clean log, and leaves every block outside
the log as before the commit if the crash came before `write_head` wrote the header (`k` at
most the number of blocks), and as the transaction leaves it if after. -/
theorem commit_crash (h : TransOk start size lh) {d : Disk} (hclean : readHead (d start) = some [])
    (k : Nat) :
    ∃ d', recoverFromLog start (runWrites ((commit start cache lh).take k) d) = some d' ∧
      readHead (d' start) = some [] ∧
      ∀ b, Outside start size b → d' b = if k ≤ lh.length then d b else applyTrans d cache lh b := by
  have hsize : 0 < size := by have := h.lt_size; omega
  by_cases hk : k ≤ lh.length
  · -- before the commit point: only log blocks are written
    refine ⟨_, recover_within_writeLog hclean hk, readHead_writeHead_nil _, fun b hb => ?_⟩
    rw [writeHead_of_ne _ _ (hb.ne_start hsize), if_pos hk, runWrites_logBlocks,
      if_neg (by unfold Outside at hb; have := h.lt_size; omega)]
  simp only [if_neg hk]
  by_cases hall : (commit start cache lh).length ≤ k
  · -- all of the commit reached the disk
    obtain ⟨hclean', hfull⟩ := commit_full h cache hclean
    rw [List.take_of_length_le hall]
    refine ⟨_, recover_clean hclean', readHead_writeHead_nil _, fun b hb => ?_⟩
    rw [writeHead_of_ne _ _ (hb.ne_start hsize), hfull b hb]
  · -- between the commit point and the clearing of the header: recovery installs it all
    have hW : (writeLog start cache lh).length = lh.length := by simp [writeLog]
    have hI : (installTrans start lh).length = lh.length := by simp [installTrans]
    have hn : 0 < lh.length := by
      by_contra hn
      rw [commit, if_neg hn] at hall
      exact hall (Nat.zero_le _)
    rw [commit, if_pos hn] at hall ⊢
    simp only [List.length_append, hW, hI, List.length_singleton] at hall
    obtain ⟨hhead, hlog, hframe⟩ := commit_logged h cache d
    rw [List.take_append_of_le_length (by simp [hW, hI]; omega), List.take_append,
      List.take_of_length_le (by simp [hW]; omega), runWrites_append, runWrites_append,
      runWrites_singleton, List.length_append, hW, List.length_singleton]
    have hj : k - (lh.length + 1) ≤ lh.length := by omega
    obtain ⟨hst, hlog'⟩ := installs_keep h hlog hj
    refine ⟨_, recover_logged h (by rw [hst]; exact hhead) hlog', readHead_writeHead_nil _, fun b hb => ?_⟩
    rw [writeHead_of_ne _ _ (hb.ne_start hsize), applyTrans, applyTrans,
      runWrites_installTrans h hlog hj]
    by_cases hb' : b ∈ lh
    · rw [if_pos hb', if_pos hb']
    · rw [if_neg hb', if_neg hb', if_neg fun hm => hb' (List.mem_of_mem_take hm)]
      exact hframe b hb

/-- Blocks 40 and 41 make a transaction for a log of 30 blocks at block 2. -/
theorem transOk_40_41 : TransOk 2 30 [40, 41] :=
  ⟨by decide, by decide, by decide, fun b hb => by simp at hb; unfold Outside; omega,
    fun b hb => by simp at hb; omega⟩

/-- A clean log on a disk of zero blocks; a transaction of blocks 40 and 41 into a log at
block 2, and a crash just after the header was written. -/
theorem commit_crash_after_head :
    TransOk 2 30 [40, 41] ∧ readHead ((fun _ => Block.zero : Disk) 2) = some [] ∧
      ∃ d', recoverFromLog 2 (runWrites ((commit 2 (fun _ => Block.ofWords fun _ => 7) [40, 41]).take 3)
          (fun _ => Block.zero)) = some d' ∧
        readHead (d' 2) = some [] ∧
        ∀ b, Outside 2 30 b → d' b = if 3 ≤ [40, 41].length then Block.zero
          else applyTrans (fun _ => Block.zero) (fun _ => Block.ofWords fun _ => 7) [40, 41] b := by
  have hclean : readHead ((fun _ => Block.zero : Disk) 2) = some [] := by decide
  exact ⟨transOk_40_41, hclean, commit_crash transOk_40_41 hclean 3⟩

/-- **A crash during recovery changes nothing.** From a disk whose header names a
transaction of distinct blocks outside the log, a crash after any number `j` of the `bwrite`s
of `recover_from_log()` followed by a second recovery leaves a clean log and every block
outside the log as one recovery does. -/
theorem recover_crash (h : TransOk start size lh) {d : Disk} (hd : readHead (d start) = some lh)
    (j : Nat) :
    ∃ d₁ d₂, recoverFromLog start d = some d₁ ∧
      recoverFromLog start (runWrites ((recoverWrites start lh).take j) d) = some d₂ ∧
      readHead (d₂ start) = some [] ∧ ∀ b, Outside start size b → d₂ b = d₁ b := by
  have hsize : 0 < size := by have := h.lt_size; omega
  -- the log blocks hold what they hold: block `lh[i]` is to get log block `start + i + 1`
  have hlog : LogHolds start lh (fun b => d (start + lh.idxOf b + 1)) d := fun i hi => by
    show d (start + i + 1) = d (start + lh.idxOf lh[i] + 1)
    rw [h.nodup.idxOf_getElem]
  have hI : (installTrans start lh).length = lh.length := by simp [installTrans]
  have hrec := recover_logged h hd hlog
  by_cases hj : j ≤ lh.length
  · -- the header still names the transaction: the second recovery installs it again
    rw [recoverWrites, List.take_append_of_le_length (by omega)]
    obtain ⟨hst, hlog'⟩ := installs_keep h hlog hj
    refine ⟨_, _, hrec, recover_logged h (by rw [hst]; exact hd) hlog', readHead_writeHead_nil _,
      fun b hb => ?_⟩
    rw [writeHead_of_ne _ _ (hb.ne_start hsize), writeHead_of_ne _ _ (hb.ne_start hsize), applyTrans,
      applyTrans, runWrites_installTrans h hlog hj]
    by_cases hb' : b ∈ lh
    · rw [if_pos hb', if_pos hb']
    · rw [if_neg hb', if_neg hb', if_neg fun hm => hb' (List.mem_of_mem_take hm)]
  · -- the header is clear: the first recovery has finished
    rw [List.take_of_length_le (by simp [recoverWrites, hI]; omega), recoverWrites, runWrites_append,
      runWrites_singleton, runWrites_installTrans_all h hlog]
    exact ⟨_, _, hrec, recover_clean (readHead_writeHead_nil _), readHead_writeHead_nil _,
      fun b hb => writeHead_of_ne _ _ (hb.ne_start hsize)⟩

/-- A crash after the first install of a committed transaction of blocks 40 and 41. -/
theorem recover_crash_after_install :
    TransOk 2 30 [40, 41] ∧
      readHead (writeHead 2 [40, 41] (fun _ => Block.zero) 2) = some [40, 41] ∧
      ∃ d₁ d₂, recoverFromLog 2 (writeHead 2 [40, 41] (fun _ => Block.zero)) = some d₁ ∧
        recoverFromLog 2 (runWrites ((recoverWrites 2 [40, 41]).take 1)
          (writeHead 2 [40, 41] (fun _ => Block.zero))) = some d₂ ∧
        readHead (d₂ 2) = some [] ∧ ∀ b, Outside 2 30 b → d₂ b = d₁ b := by
  have hd := readHead_writeHead transOk_40_41 (fun _ => Block.zero)
  exact ⟨transOk_40_41, hd, recover_crash transOk_40_41 hd 1⟩

end Crash

end Xv6.Log
