import Xv6.Fs.File

/-!
# `fs.c`: directories

A directory is a file of `struct dirent`s: a `ushort` inode number, `0` for a free entry, and a
name buffer of `DIRSIZ` bytes, `NUL`-terminated when the name is shorter. `dirlookup(dp, name)`
reads the entries in order with `readi` and returns the first used one whose name `namecmp`
finds equal to `name`, comparing at most `DIRSIZ` bytes. `dirlink(dp, name, inum)` refuses a
name that `dirlookup` finds, and otherwise writes the entry with `writei` over the first free
one, or after the last.

What a directory is for is the list of its entries (`Dir`), whose bytes the inode stores. On a
directory that stores them, `dirlookup` is the search of the list (`dirlookup_stores`), which
stops at the first used entry of the name (`dirlookup_first`), and `dirlink` refuses a name it
has (`dirlink_present`) or writes one entry of the list or appends one (`dirlink_absent`). On the
list, `namecmp` compares the names up to their `NUL` and their first `DIRSIZ` bytes (`nameKey`),
a link is found again by its name (`Dir.lookup_link_self`), and it leaves the search of the other
names alone (`Dir.lookup_link_other`); `dirlink_dirlookup` is the round trip on the code.
-/

set_option autoImplicit false

namespace Xv6.Fs

/-! ## 1. The code -/

/-- `DIRSIZ`. -/
def dirsiz : Nat := 14

/-- `sizeof(struct dirent)`: a `ushort` and the name buffer. -/
def direntSize : Nat := 2 + dirsiz

/-- `T_DIR`. -/
def tDir : Nat := 1

/-- `strncmp(p, q, n)`, a string being the bytes before its `NUL`: a byte past the end of the
list reads as the `NUL`. -/
def strncmp : List UInt8 → List UInt8 → Nat → Int
  | _, _, 0 => 0
  | p, q, n + 1 =>
    if p.headD 0 ≠ 0 ∧ p.headD 0 = q.headD 0 then strncmp p.tail q.tail n
    else ((p.headD 0).toNat : Int) - (q.headD 0).toNat

/-- The `n` bytes that `strncpy(s, t, n)` leaves in `s`: those of `t` up to and with its `NUL`,
then zeros. -/
def strncpy : List UInt8 → Nat → List UInt8
  | _, 0 => []
  | t, n + 1 => if t.headD 0 = 0 then List.replicate (n + 1) 0 else t.headD 0 :: strncpy t.tail n

/-- `namecmp(s, t)`. -/
def namecmp (s t : List UInt8) : Int := strncmp s t dirsiz

/-- `struct dirent`. -/
structure Dirent where
  inum : UInt16
  name : Fin dirsiz → UInt8

/-- What `readi` copies into `de` from the bytes of an entry: `inum` from the first two,
little-endian, and the name buffer from the rest. -/
def Dirent.ofBytes (b : List UInt8) : Dirent :=
  ⟨UInt16.ofNat ((b.getD 0 0).toNat + 256 * (b.getD 1 0).toNat), fun i => b.getD (2 + i) 0⟩

/-- The bytes of `de` that `writei` writes. -/
def Dirent.toBytes (de : Dirent) : List UInt8 :=
  UInt8.ofNat de.inum.toNat :: UInt8.ofNat (de.inum.toNat / 256) :: List.ofFn de.name

/-- The loop of `dirlookup(dp, name, &off)` from `off`: the `inum` and offset of the entry it
finds, or `none` for no entry of the name, with the device and inode after the `readi`s. The
outer `none` is `panic("dirlookup read")`. A round moves on by one entry, so `dp->size + 1`
rounds of fuel are enough. -/
def dirlookupLoop (name : List UInt8) : Nat → FsState → DInode → Nat →
    Option (Option (Nat × Nat) × FsState × DInode)
  | 0, _, _, _ => none
  | fuel + 1, fs, dp, off =>
    if off < dp.size then
      (readi fs dp off direntSize).bind fun r =>
        if r.1 ≠ direntSize then none
        else
          -- a free entry is skipped, and a used one of the name ends the search
          let de := Dirent.ofBytes r.2.1
          if de.inum ≠ 0 ∧ namecmp name (List.ofFn de.name) = 0 then
            some (some (de.inum.toNat, off), r.2.2.1, r.2.2.2)
          else dirlookupLoop name fuel r.2.2.1 r.2.2.2 (off + direntSize)
    else some (none, fs, dp)

/-- `dirlookup(dp, name, &off)` on an inode of type `type`: the `inum` of the entry, whose
`iget` is left out, and its offset. `none` is a panic: `dirlookup not DIR` or
`dirlookup read`. -/
def dirlookup (fs : FsState) (dp : DInode) (type : Nat) (name : List UInt8) :
    Option (Option (Nat × Nat) × FsState × DInode) :=
  if type ≠ tDir then none else dirlookupLoop name (dp.size + 1) fs dp 0

/-- The loop of `dirlink` that looks for a free entry: the offset where it stops, at the first
free entry or at the end. `none` is `panic("dirlink read")`. -/
def dirlinkLoop : Nat → FsState → DInode → Nat → Option (Nat × FsState × DInode)
  | 0, _, _, _ => none
  | fuel + 1, fs, dp, off =>
    if off < dp.size then
      (readi fs dp off direntSize).bind fun r =>
        if r.1 ≠ direntSize then none
        else if (Dirent.ofBytes r.2.1).inum = 0 then some (off, r.2.2.1, r.2.2.2)
        else dirlinkLoop fuel r.2.2.1 r.2.2.2 (off + direntSize)
    else some (off, fs, dp)

/-- The entry `dirlink` writes: `strncpy(de.name, name, DIRSIZ); de.inum = inum;`. -/
def Dirent.ofLink (name : List UInt8) (inum : Nat) : Dirent :=
  ⟨UInt16.ofNat inum, fun i => (strncpy name dirsiz).getD i 0⟩

/-- `dirlink(dp, name, inum)`: `-1` when `dirlookup` finds the name (its `iput` is left out),
else `0` once the entry is written. `none` is a panic: those of `dirlookup`, `dirlink read`,
and `dirlink` when `writei` writes less than the entry. -/
def dirlink (fs : FsState) (dp : DInode) (type : Nat) (name : List UInt8) (inum : Nat) :
    Option (Int × FsState × DInode) :=
  (dirlookup fs dp type name).bind fun r =>
    if r.1.isSome then some (-1, r.2.1, r.2.2)
    else
      (dirlinkLoop (r.2.2.size + 1) r.2.1 r.2.2 0).bind fun l =>
        (writei l.2.1 l.2.2 l.1 (Dirent.ofLink name inum).toBytes).bind fun w =>
          if w.1 ≠ direntSize then none else some (0, w.2.1, w.2.2)

/-! ## 2. A directory is a list of entries -/

/-- The bytes of a directory of these entries. -/
def Dir.bytes (es : List Dirent) : List UInt8 := es.flatMap Dirent.toBytes

/-- What `namecmp` compares of a name: the bytes before its `NUL`, at most `DIRSIZ` of them. -/
def nameKey (s : List UInt8) : List UInt8 := (s.takeWhile (· ≠ 0)).take dirsiz

/-- The name of an entry, as the bytes of its buffer. -/
def Dirent.nameBytes (de : Dirent) : List UInt8 := List.ofFn de.name

/-- The search of `dirlookup` over the entries from offset `off`: the first used entry of the
name, with its offset. -/
def Dir.lookup (name : List UInt8) : List Dirent → Nat → Option (Nat × Nat)
  | [], _ => none
  | de :: es, off =>
    if de.inum ≠ 0 ∧ namecmp name de.nameBytes = 0 then some (de.inum.toNat, off)
    else Dir.lookup name es (off + direntSize)

/-- The index where the loop of `dirlink` stops: the first free entry, or the end. -/
def Dir.freeSlot : List Dirent → Nat
  | [] => 0
  | de :: es => if de.inum = 0 then 0 else Dir.freeSlot es + 1

/-- The entries after `dirlink` writes `de`: over the first free entry, or after the last. -/
def Dir.link (es : List Dirent) (de : Dirent) : List Dirent :=
  if Dir.freeSlot es < es.length then es.set (Dir.freeSlot es) de else es ++ [de]

/-! ## 3. Names -/

section Names

variable {p q t : List UInt8} {n : Nat}

/-- The bytes of a string up to its `NUL`, at most `n + 1`: none when the first byte is the
`NUL`, else that byte and at most `n` of the rest. -/
theorem take_takeWhile_succ (s : List UInt8) (n : Nat) :
    (s.takeWhile (· ≠ 0)).take (n + 1) =
      if s.headD 0 = 0 then [] else s.headD 0 :: (s.tail.takeWhile (· ≠ 0)).take n := by
  cases s with
  | nil => simp
  | cons a s => by_cases ha : a = 0 <;> simp [ha]

/-- **`strncmp` finds two strings equal exactly when their first `n` bytes before the `NUL`
are.** -/
theorem strncmp_eq_zero_iff (p q : List UInt8) (n : Nat) :
    strncmp p q n = 0 ↔ (p.takeWhile (· ≠ 0)).take n = (q.takeWhile (· ≠ 0)).take n := by
  induction n generalizing p q with
  | zero => simp [strncmp]
  | succ n ih =>
    have hsub : ∀ a b : UInt8, ((a.toNat : Int) - b.toNat = 0 ↔ a = b) := fun a b => by
      rw [sub_eq_zero, Nat.cast_inj, UInt8.toNat_inj]
    rw [strncmp, take_takeWhile_succ p, take_takeWhile_succ q]
    by_cases hp : p.headD 0 = 0
    · -- `p` ends here: the strings agree exactly when `q` ends too
      rw [if_neg fun h => h.1 hp, hsub, if_pos hp, hp]
      by_cases hq : q.headD 0 = 0
      · rw [if_pos hq, hq]
        exact ⟨fun _ => rfl, fun _ => rfl⟩
      · rw [if_neg hq]
        exact ⟨fun h => absurd h.symm hq, fun h => by cases h⟩
    · rw [if_neg hp]
      by_cases heq : p.headD 0 = q.headD 0
      · -- the loop goes on: both strings have this byte
        rw [if_pos ⟨hp, heq⟩, ih, if_neg fun h => hp (heq.trans h), heq, List.cons.injEq]
        exact ⟨fun h => ⟨rfl, h⟩, fun h => h.2⟩
      · -- the loop stops at two different bytes
        rw [if_neg fun h => heq h.2, hsub]
        refine ⟨fun h => absurd h heq, fun h => ?_⟩
        by_cases hq : q.headD 0 = 0
        · rw [if_pos hq] at h
          cases h
        · rw [if_neg hq, List.cons.injEq] at h
          exact absurd h.1 heq

theorem namecmp_eq_zero_iff (s t : List UInt8) : namecmp s t = 0 ↔ nameKey s = nameKey t :=
  strncmp_eq_zero_iff s t dirsiz

@[simp] theorem length_strncpy (t : List UInt8) (n : Nat) : (strncpy t n).length = n := by
  induction n generalizing t with
  | zero => rfl
  | succ n ih =>
    unfold strncpy
    split_ifs
    · simp
    · simp [ih]

/-- `strncpy` keeps what `strncmp` compares. -/
theorem take_takeWhile_strncpy (t : List UInt8) (n : Nat) :
    ((strncpy t n).takeWhile (· ≠ 0)).take n = (t.takeWhile (· ≠ 0)).take n := by
  induction n generalizing t with
  | zero => simp
  | succ n ih =>
    cases t with
    | nil => simp [strncpy, List.replicate_succ]
    | cons a t =>
      by_cases ha : a = 0
      · simp [strncpy, ha, List.replicate_succ]
      · simpa [strncpy, ha] using ih t

end Names

/-! ## 4. The bytes of an entry -/

@[simp] theorem Dirent.length_toBytes (de : Dirent) : de.toBytes.length = direntSize := by
  rw [Dirent.toBytes, List.length_cons, List.length_cons, List.length_ofFn]
  rfl

/-- **Decoding an entry's bytes gives the entry back.** -/
theorem Dirent.ofBytes_toBytes (de : Dirent) : Dirent.ofBytes de.toBytes = de := by
  obtain ⟨inum, name⟩ := de
  have hinum : UInt16.ofNat ((UInt8.ofNat inum.toNat).toNat + 256 * (UInt8.ofNat (inum.toNat / 256)).toNat) =
      inum := by
    have hlt := inum.toNat_lt
    rw [UInt8.toNat_ofNat', UInt8.toNat_ofNat', Nat.mod_eq_of_lt (a := inum.toNat / 256) (by omega),
      show inum.toNat % 2 ^ 8 + 256 * (inum.toNat / 256) = inum.toNat by omega]
    exact UInt16.ofNat_toNat
  simp only [Dirent.ofBytes, Dirent.toBytes, List.getD_cons_zero, List.getD_cons_succ, hinum,
    Dirent.mk.injEq, true_and]
  funext i
  rw [show 2 + i.val = i.val + 1 + 1 by omega, List.getD_cons_succ, List.getD_cons_succ,
    List.getD_eq_getElem _ _ (by simp), List.getElem_ofFn]

theorem Dirent.nameBytes_ofLink (name : List UInt8) (inum : Nat) :
    (Dirent.ofLink name inum).nameBytes = strncpy name dirsiz := by
  apply List.ext_getElem
  · simp [Dirent.nameBytes]
  · intro i h₁ h₂
    simp [Dirent.nameBytes, Dirent.ofLink]

/-- The entry `dirlink` writes is found by `namecmp` for its name. -/
theorem nameKey_ofLink (name : List UInt8) (inum : Nat) :
    nameKey (Dirent.ofLink name inum).nameBytes = nameKey name := by
  rw [Dirent.nameBytes_ofLink]
  exact take_takeWhile_strncpy name dirsiz

/-! ## 5. The bytes of a directory -/

/-- The offset of the entry after entry `k`. -/
theorem offset_succ (k : Nat) : direntSize * k + direntSize = direntSize * (k + 1) :=
  (Nat.mul_succ _ _).symm

namespace Dir

@[simp] theorem bytes_nil : Dir.bytes [] = [] := rfl

@[simp] theorem bytes_cons (de : Dirent) (es : List Dirent) :
    Dir.bytes (de :: es) = de.toBytes ++ Dir.bytes es := List.flatMap_cons

theorem bytes_append (es es' : List Dirent) : Dir.bytes (es ++ es') = Dir.bytes es ++ Dir.bytes es' :=
  List.flatMap_append

@[simp] theorem length_bytes (es : List Dirent) : (Dir.bytes es).length = direntSize * es.length := by
  induction es with
  | nil => rfl
  | cons de es ih => simp [ih, Nat.mul_succ, Nat.add_comm]

/-- The bytes from entry `k` on are those of the entries from `k` on. -/
theorem drop_bytes (es : List Dirent) (k : Nat) :
    (Dir.bytes es).drop (direntSize * k) = Dir.bytes (es.drop k) := by
  induction es generalizing k with
  | nil => simp
  | cons de es ih =>
    cases k with
    | zero => simp
    | succ k =>
      have hle : direntSize ≤ direntSize * (k + 1) := Nat.le_mul_of_pos_right _ (Nat.succ_pos k)
      rw [bytes_cons, List.drop_append, Dirent.length_toBytes,
        List.drop_eq_nil_of_le (by rw [Dirent.length_toBytes]; exact hle), List.nil_append,
        List.drop_succ_cons, ← ih k, Nat.mul_succ, Nat.add_sub_cancel]

/-- The bytes before entry `k` are those of the entries before `k`. -/
theorem take_bytes (es : List Dirent) (k : Nat) :
    (Dir.bytes es).take (direntSize * k) = Dir.bytes (es.take k) := by
  induction es generalizing k with
  | nil => simp
  | cons de es ih =>
    cases k with
    | zero => simp
    | succ k =>
      have hle : direntSize ≤ direntSize * (k + 1) := Nat.le_mul_of_pos_right _ (Nat.succ_pos k)
      rw [bytes_cons, List.take_append, Dirent.length_toBytes, List.take_succ_cons, bytes_cons,
        List.take_of_length_le (by rw [Dirent.length_toBytes]; exact hle), ← ih k, Nat.mul_succ,
        Nat.add_sub_cancel]

/-- **`readi` of entry `k` reads its bytes.** -/
theorem entry_bytes {es : List Dirent} {k : Nat} (hk : k < es.length) :
    ((Dir.bytes es).drop (direntSize * k)).take direntSize = es[k].toBytes := by
  rw [drop_bytes, List.drop_eq_getElem_cons hk, bytes_cons, List.take_left' (Dirent.length_toBytes _)]

/-- **Writing an entry over entry `k`** sets it in the list. -/
theorem overwrite_bytes_set {es : List Dirent} {k : Nat} (hk : k < es.length) (de : Dirent) :
    Splice.overwrite (Dir.bytes es) (direntSize * k) de.toBytes = Dir.bytes (es.set k de) := by
  rw [Splice.overwrite, Dirent.length_toBytes, take_bytes,
    offset_succ, drop_bytes,
    List.set_eq_take_append_cons_drop, if_pos hk, bytes_append, bytes_cons, List.append_assoc]

/-- **Writing an entry after the last** appends it. -/
theorem overwrite_bytes_end (es : List Dirent) (de : Dirent) :
    Splice.overwrite (Dir.bytes es) (direntSize * es.length) de.toBytes = Dir.bytes (es ++ [de]) := by
  rw [Splice.overwrite, ← length_bytes, List.take_of_length_le le_rfl,
    List.drop_eq_nil_of_le (by simp), List.append_nil, bytes_append, bytes_cons, bytes_nil,
    List.append_nil]

theorem freeSlot_le (es : List Dirent) : Dir.freeSlot es ≤ es.length := by
  induction es with
  | nil => exact le_rfl
  | cons de es ih =>
    unfold Dir.freeSlot
    split_ifs <;> simp [ih]

/-- The free slot, inside the list, is a free entry. -/
theorem inum_freeSlot {es : List Dirent} (h : Dir.freeSlot es < es.length) :
    es[Dir.freeSlot es].inum = 0 := by
  induction es with
  | nil => cases h
  | cons de es ih =>
    unfold Dir.freeSlot at h ⊢
    by_cases hde : de.inum = 0
    · simp only [hde, if_true, List.getElem_cons_zero]
    · simp only [hde, if_false, List.getElem_cons_succ]
      exact ih (by simp only [hde, if_false, List.length_cons] at h; omega)

/-- In a directory whose entries are all in use, the free slot is the end. -/
theorem freeSlot_of_used {es : List Dirent} (h : ∀ e ∈ es, e.inum ≠ 0) : Dir.freeSlot es = es.length := by
  induction es with
  | nil => rfl
  | cons de es ih =>
    rw [Dir.freeSlot, if_neg (h de List.mem_cons_self), ih fun e he => h e (List.mem_cons_of_mem _ he),
      List.length_cons]

/-- ... so a link goes after the last entry. -/
theorem link_of_used {es : List Dirent} (h : ∀ e ∈ es, e.inum ≠ 0) (de : Dirent) :
    Dir.link es de = es ++ [de] := by
  rw [Dir.link, freeSlot_of_used h, if_neg (lt_irrefl _)]

/-! ### The search over a split list -/

/-- The search of two lists one after the other: the first, else the second from its offset. -/
theorem lookup_append (name : List UInt8) (es es' : List Dirent) (off : Nat) :
    Dir.lookup name (es ++ es') off =
      (Dir.lookup name es off).or (Dir.lookup name es' (off + direntSize * es.length)) := by
  induction es generalizing off with
  | nil => simp [Dir.lookup]
  | cons de es ih =>
    rw [List.cons_append, Dir.lookup, Dir.lookup]
    split_ifs
    · rfl
    · rw [ih, List.length_cons, Nat.mul_succ]
      congr 2
      omega

/-- An entry that is free, or of another name, is passed over. -/
theorem lookup_cons_of_miss {name : List UInt8} {de : Dirent} (es : List Dirent) (off : Nat)
    (hmiss : ¬(de.inum ≠ 0 ∧ namecmp name de.nameBytes = 0)) :
    Dir.lookup name (de :: es) off = Dir.lookup name es (off + direntSize) := by
  rw [Dir.lookup, if_neg hmiss]

theorem lookup_cons_of_free (name : List UInt8) {de : Dirent} (es : List Dirent) (off : Nat)
    (hfree : de.inum = 0) : Dir.lookup name (de :: es) off = Dir.lookup name es (off + direntSize) :=
  lookup_cons_of_miss es off fun h => h.1 hfree

/-- The search reads a name only as far as `namecmp` does. -/
theorem lookup_congr {a b : List UInt8} (h : nameKey a = nameKey b) (es : List Dirent) (off : Nat) :
    Dir.lookup a es off = Dir.lookup b es off := by
  induction es generalizing off with
  | nil => rfl
  | cons de es ih =>
    have hiff : namecmp a de.nameBytes = 0 ↔ namecmp b de.nameBytes = 0 := by
      rw [namecmp_eq_zero_iff, namecmp_eq_zero_iff, h]
    simp only [Dir.lookup, hiff, ih]

/-- **The search stops at the first hit**: at entry `k` exactly when entry `k` is used and of the
name and no entry before it is. -/
theorem lookup_eq_some_iff (name : List UInt8) (es : List Dirent) (off v o : Nat) :
    Dir.lookup name es off = some (v, o) ↔
      ∃ k, ∃ hk : k < es.length, o = off + direntSize * k ∧ v = es[k].inum.toNat ∧
        (es[k].inum ≠ 0 ∧ namecmp name es[k].nameBytes = 0) ∧
        ∀ j (hj : j < es.length), j < k → ¬(es[j].inum ≠ 0 ∧ namecmp name es[j].nameBytes = 0) := by
  induction es generalizing off with
  | nil => simp [Dir.lookup]
  | cons de es ih =>
    by_cases hde : de.inum ≠ 0 ∧ namecmp name de.nameBytes = 0
    · -- the search stops at `de`, and a first hit can only be entry `0`
      rw [Dir.lookup, if_pos hde, Option.some.injEq, Prod.mk.injEq]
      constructor
      · rintro ⟨rfl, rfl⟩
        exact ⟨0, Nat.succ_pos _, by simp, rfl, hde, fun j _ hj => absurd hj (Nat.not_lt_zero j)⟩
      · rintro ⟨k, hk, rfl, rfl, -, hfirst⟩
        cases k with
        | zero => exact ⟨rfl, by simp⟩
        | succ k => exact absurd hde (hfirst 0 (Nat.succ_pos _) (Nat.succ_pos k))
    · -- `de` is passed over: a first hit of the rest at `k` is one of the list at `k + 1`
      rw [lookup_cons_of_miss es off hde, ih]
      constructor
      · rintro ⟨k, hk, rfl, rfl, hhit, hfirst⟩
        refine ⟨k + 1, Nat.succ_lt_succ hk, by rw [Nat.mul_succ]; omega, rfl, hhit, fun j hj hjk => ?_⟩
        cases j with
        | zero => exact hde
        | succ j => exact hfirst j (Nat.lt_of_succ_lt_succ hj) (Nat.lt_of_succ_lt_succ hjk)
      · rintro ⟨k, hk, rfl, rfl, hhit, hfirst⟩
        cases k with
        | zero => exact absurd hhit hde
        | succ k =>
          refine ⟨k, Nat.lt_of_succ_lt_succ hk, by rw [Nat.mul_succ]; omega, rfl, hhit,
            fun j hj hjk => hfirst (j + 1) (Nat.succ_lt_succ hj) (Nat.succ_lt_succ hjk)⟩

/-- The search finds nothing exactly when no entry is used and of the name. -/
theorem lookup_eq_none_iff (name : List UInt8) (es : List Dirent) (off : Nat) :
    Dir.lookup name es off = none ↔
      ∀ k (hk : k < es.length), ¬(es[k].inum ≠ 0 ∧ namecmp name es[k].nameBytes = 0) := by
  induction es generalizing off with
  | nil => simp [Dir.lookup]
  | cons de es ih =>
    by_cases hde : de.inum ≠ 0 ∧ namecmp name de.nameBytes = 0
    · rw [Dir.lookup, if_pos hde]
      exact ⟨fun h => (by cases h), fun h => absurd hde (h 0 (Nat.succ_pos _))⟩
    · rw [lookup_cons_of_miss es off hde, ih]
      constructor
      · intro h k hk
        cases k with
        | zero => exact hde
        | succ k => exact h k (Nat.lt_of_succ_lt_succ hk)
      · intro h k hk
        exact h (k + 1) (Nat.succ_lt_succ hk)

/-- The entries before the free slot, the free entry and those after it. -/
theorem split_freeSlot {es : List Dirent} (h : Dir.freeSlot es < es.length) :
    es = es.take (Dir.freeSlot es) ++ es[Dir.freeSlot es] :: es.drop (Dir.freeSlot es + 1) := by
  rw [← List.drop_eq_getElem_cons h, List.take_append_drop]

theorem length_take_freeSlot (es : List Dirent) : (es.take (Dir.freeSlot es)).length = Dir.freeSlot es := by
  rw [List.length_take, Nat.min_eq_left (freeSlot_le es)]

/-! ### What a link does to the search -/

section Link

variable {name : List UInt8} {es : List Dirent} {inum : Nat}

theorem inum_ofLink (name : List UInt8) (inum : Nat) :
    (Dirent.ofLink name inum).inum.toNat = inum % 2 ^ 16 :=
  UInt16.toNat_ofNat'

/-- The entry of a link is a hit for its name when its `inum` is not `0` as a `ushort`. -/
theorem hit_ofLink (name : List UInt8) (hinum : inum % 2 ^ 16 ≠ 0) :
    (Dirent.ofLink name inum).inum ≠ 0 ∧ namecmp name (Dirent.ofLink name inum).nameBytes = 0 := by
  refine ⟨fun h => hinum ?_, (namecmp_eq_zero_iff _ _).mpr (nameKey_ofLink name inum).symm⟩
  rw [← inum_ofLink name inum, h]
  rfl

/-- ... and a miss for every name that `namecmp` tells apart from it. -/
theorem miss_ofLink (inum : Nat) {name' : List UInt8} (hne : nameKey name' ≠ nameKey name) :
    ¬((Dirent.ofLink name inum).inum ≠ 0 ∧ namecmp name' (Dirent.ofLink name inum).nameBytes = 0) := by
  rintro ⟨-, hcmp⟩
  rw [namecmp_eq_zero_iff, nameKey_ofLink] at hcmp
  exact hne hcmp

/-- **A link is found by its name**: when the directory has no entry of the name, the search
after the link stops at the new entry, in the free slot. -/
theorem lookup_link_self (hnew : Dir.lookup name es 0 = none) (hinum : inum % 2 ^ 16 ≠ 0) :
    Dir.lookup name (Dir.link es (Dirent.ofLink name inum)) 0 =
      some (inum % 2 ^ 16, direntSize * Dir.freeSlot es) := by
  have hhit := hit_ofLink name hinum
  unfold Dir.link
  split_ifs with hin
  · -- over the free slot: the entries before it have no hit, since the whole list has none
    have hbefore : Dir.lookup name (es.take (Dir.freeSlot es)) 0 = none := by
      rw [split_freeSlot hin, lookup_append, Option.or_eq_none_iff] at hnew
      exact hnew.1
    rw [List.set_eq_take_append_cons_drop, if_pos hin, lookup_append, hbefore, Option.none_or,
      length_take_freeSlot, Dir.lookup, if_pos hhit, inum_ofLink, Nat.zero_add]
  · -- after the last entry: the free slot is the end of the list
    have heq : Dir.freeSlot es = es.length := le_antisymm (freeSlot_le es) (not_lt.mp hin)
    rw [lookup_append, hnew, Option.none_or, Dir.lookup, if_pos hhit, inum_ofLink, Nat.zero_add, heq]

/-- **A link leaves the search of every other name alone**: the free entry it overwrites, and the
entry it writes, are both passed over. -/
theorem lookup_link_other {name' : List UInt8} (hne : nameKey name' ≠ nameKey name) (off : Nat) :
    Dir.lookup name' (Dir.link es (Dirent.ofLink name inum)) off = Dir.lookup name' es off := by
  have hmiss := miss_ofLink inum hne
  unfold Dir.link
  split_ifs with hin
  · conv_rhs => rw [split_freeSlot hin]
    rw [List.set_eq_take_append_cons_drop, if_pos hin, lookup_append, lookup_append,
      lookup_cons_of_miss _ _ hmiss, lookup_cons_of_free _ _ _ (inum_freeSlot hin)]
  · rw [lookup_append, Dir.lookup, if_neg hmiss, Dir.lookup, Option.or_none]

end Link

end Dir

/-! ## 6. `dirlookup` and `dirlink` on a directory that stores its entries -/

section Stores

variable {fs : FsState} {dp : DInode} {es : List Dirent}

theorem size_of_stores (hs : Stores fs dp (Dir.bytes es)) : dp.size = direntSize * es.length :=
  hs.size.trans (Dir.length_bytes es)

/-- Both loops read entry `k` while it is inside the directory, ... -/
theorem entry_lt_size (hs : Stores fs dp (Dir.bytes es)) {k : Nat} (hk : k < es.length) :
    direntSize * k < dp.size := by
  rw [size_of_stores hs]
  exact Nat.mul_lt_mul_of_pos_left hk (by decide)

/-- ... stop at its end, ... -/
theorem end_not_lt_size (hs : Stores fs dp (Dir.bytes es)) : ¬direntSize * es.length < dp.size := by
  rw [size_of_stores hs]
  exact lt_irrefl _

/-- ... and have fuel enough from the start, one round an entry. -/
theorem fuel_of_stores (hs : Stores fs dp (Dir.bytes es)) : es.length - 0 < dp.size + 1 := by
  rw [size_of_stores hs, show direntSize = 16 from rfl]
  omega

/-- `readi` of entry `k` copies its bytes and changes nothing. -/
theorem readi_entry (hs : Stores fs dp (Dir.bytes es)) {k : Nat} (hk : k < es.length) :
    readi fs dp (direntSize * k) direntSize = some ((direntSize : Int), es[k].toBytes, fs, dp) := by
  have hlt : direntSize * k + direntSize ≤ direntSize * es.length := by
    rw [offset_succ]
    exact Nat.mul_le_mul_left _ hk
  rw [readi_stores hs (by decide), readAt, if_neg (by rw [Dir.length_bytes]; omega),
    Dir.entry_bytes hk, Dir.length_bytes, Nat.min_eq_left (by omega)]

/-- The loop of `dirlookup` from entry `k` is the search of the entries from `k`. -/
theorem dirlookupLoop_stores (hs : Stores fs dp (Dir.bytes es)) (name : List UInt8) :
    ∀ fuel k, es.length - k < fuel → k ≤ es.length →
      dirlookupLoop name fuel fs dp (direntSize * k) =
        some (Dir.lookup name (es.drop k) (direntSize * k), fs, dp)
  | 0, _, hfuel, _ => absurd hfuel (Nat.not_lt_zero _)
  | fuel + 1, k, hfuel, hk => by
    rw [dirlookupLoop]
    rcases Nat.lt_or_ge k es.length with hlt | hge
    · -- entry `k` is read, and the search decides on it or goes on
      rw [if_pos (entry_lt_size hs hlt), readi_entry hs hlt, Option.bind_some, if_neg (not_not.mpr rfl)]
      rw [Dirent.ofBytes_toBytes, List.drop_eq_getElem_cons hlt, Dir.lookup, Dirent.nameBytes]
      by_cases hfound : es[k].inum ≠ 0 ∧ namecmp name (List.ofFn es[k].name) = 0
      · rw [if_pos hfound, if_pos hfound]
      · rw [if_neg hfound, if_neg hfound, offset_succ]
        exact dirlookupLoop_stores hs name fuel (k + 1) (by omega) hlt
    · -- past the last entry: not found
      have hk' : k = es.length := le_antisymm hk hge
      subst hk'
      rw [if_neg (end_not_lt_size hs), List.drop_length]
      rfl

/-- **`dirlookup` of a directory is the search of its entries**, and panics not. -/
theorem dirlookup_stores (hs : Stores fs dp (Dir.bytes es)) (name : List UInt8) :
    dirlookup fs dp tDir name = some (Dir.lookup name es 0, fs, dp) := by
  unfold dirlookup
  rw [if_neg (not_not.mpr rfl)]
  have h := dirlookupLoop_stores hs name (dp.size + 1) 0 (fuel_of_stores hs) (Nat.zero_le _)
  rwa [Nat.mul_zero, List.drop_zero] at h

/-- The loop of `dirlink` from entry `k` stops at the free slot of the entries from `k`. -/
theorem dirlinkLoop_stores (hs : Stores fs dp (Dir.bytes es)) :
    ∀ fuel k, es.length - k < fuel → k ≤ es.length →
      dirlinkLoop fuel fs dp (direntSize * k) = some (direntSize * (k + Dir.freeSlot (es.drop k)), fs, dp)
  | 0, _, hfuel, _ => absurd hfuel (Nat.not_lt_zero _)
  | fuel + 1, k, hfuel, hk => by
    rw [dirlinkLoop]
    rcases Nat.lt_or_ge k es.length with hlt | hge
    · rw [if_pos (entry_lt_size hs hlt), readi_entry hs hlt, Option.bind_some, if_neg (not_not.mpr rfl),
        Dirent.ofBytes_toBytes,
        List.drop_eq_getElem_cons hlt, Dir.freeSlot]
      split_ifs with hfree
      · rfl
      · rw [offset_succ, dirlinkLoop_stores hs fuel (k + 1) (by omega) hlt]
        congr 3
        omega
    · have hk' : k = es.length := le_antisymm hk hge
      subst hk'
      rw [if_neg (end_not_lt_size hs), List.drop_length]
      rfl

/-- **`writei` of an entry at entry `j`**, within the directory or just after its end, writes all
of it, when the device has the blocks and the file the room. -/
theorem writei_entry (hs : Stores fs dp (Dir.bytes es)) (de : Dirent) {j : Nat} (hj : j ≤ es.length)
    (hfree : 4 * direntSize ≤ freeCount fs) (hroom : direntSize * (es.length + 1) ≤ maxfile * bsize) :
    ∃ fs' dp', writei fs dp (direntSize * j) de.toBytes = some ((direntSize : Int), fs', dp') ∧
      Stores fs' dp' (Splice.overwrite (Dir.bytes es) (direntSize * j) de.toBytes) ∧
      Uses (4 * direntSize) fs fs' := by
  have hoff : direntSize * j + de.toBytes.length ≤ maxfile * bsize := by
    rw [Dirent.length_toBytes]
    calc direntSize * j + direntSize = direntSize * (j + 1) := offset_succ _
      _ ≤ direntSize * (es.length + 1) := Nat.mul_le_mul_left _ (by omega)
      _ ≤ maxfile * bsize := hroom
  have hlen : direntSize * j ≤ (Dir.bytes es).length := by
    rw [Dir.length_bytes]
    exact Nat.mul_le_mul_left _ hj
  -- an entry within the directory or just after it adds at most one block to it
  have hadd : blocksFor (Splice.overwrite (Dir.bytes es) (direntSize * j) de.toBytes).length -
      blocksFor (Dir.bytes es).length ≤ 1 := by
    rw [Splice.length_overwrite hlen, blocksFor_max_sub, Dirent.length_toBytes]
    unfold blocksFor
    simp only [direntSize, dirsiz, bsize] at hlen ⊢
    omega
  have hfour : 4 ≤ 4 * direntSize := by decide
  obtain ⟨fs', dp', hw, hs', hu⟩ := writei_stores hs de.toBytes hlen hoff (by omega)
  exact ⟨fs', dp', by rw [hw, Dirent.length_toBytes], hs', hu.mono (by omega)⟩

/-- A name that `dirlookup` finds: `dirlink` returns `-1` and changes nothing. -/
theorem dirlink_present (hs : Stores fs dp (Dir.bytes es)) {name : List UInt8} (inum : Nat)
    (hfound : (Dir.lookup name es 0).isSome) : dirlink fs dp tDir name inum = some (-1, fs, dp) := by
  rw [dirlink, dirlookup_stores hs, Option.bind_some, if_pos hfound]

/-- **`dirlink` of a new name writes its entry** over the first free one or after the last,
when the device has four free blocks for each byte of the entry and the directory room for one
more. -/
theorem dirlink_absent (hs : Stores fs dp (Dir.bytes es)) {name : List UInt8} (inum : Nat)
    (hnew : Dir.lookup name es 0 = none) (hfree : 4 * direntSize ≤ freeCount fs)
    (hroom : direntSize * (es.length + 1) ≤ maxfile * bsize) :
    ∃ fs' dp', dirlink fs dp tDir name inum = some (0, fs', dp') ∧
      Stores fs' dp' (Dir.bytes (Dir.link es (Dirent.ofLink name inum))) ∧ Uses (4 * direntSize) fs fs' := by
  set de := Dirent.ofLink name inum
  have hloop := dirlinkLoop_stores hs (dp.size + 1) 0 (fuel_of_stores hs) (Nat.zero_le _)
  rw [Nat.mul_zero, List.drop_zero, Nat.zero_add] at hloop
  have hslot := Dir.freeSlot_le es
  obtain ⟨fs', dp', hw, hs', hu⟩ := writei_entry hs de hslot hfree hroom
  refine ⟨fs', dp', ?_, ?_, hu⟩
  · rw [dirlink, dirlookup_stores hs, Option.bind_some, if_neg (by rw [hnew]; exact Bool.false_ne_true), hloop,
      Option.bind_some, hw, Option.bind_some, if_neg (not_not.mpr rfl)]
  · -- the entry went over the free slot, or after the last entry
    unfold Dir.link
    split_ifs with hin
    · rwa [Dir.overwrite_bytes_set hin] at hs'
    · have heq : Dir.freeSlot es = es.length := le_antisymm hslot (not_lt.mp hin)
      rwa [heq, Dir.overwrite_bytes_end] at hs'

/-- **`dirlookup` finds the first used entry of the name.** On a directory that stores `es` it
leaves the device and the inode as they were; it finds nothing exactly when no entry is used and
of the name, and it returns `inum` and offset of entry `k` exactly when entry `k` is and no entry
before it is. -/
theorem dirlookup_first (hs : Stores fs dp (Dir.bytes es)) (name : List UInt8) :
    (dirlookup fs dp tDir name = some (none, fs, dp) ↔
      ∀ k (hk : k < es.length), ¬(es[k].inum ≠ 0 ∧ namecmp name es[k].nameBytes = 0)) ∧
    ∀ v off, dirlookup fs dp tDir name = some (some (v, off), fs, dp) ↔
      ∃ k, ∃ hk : k < es.length, off = direntSize * k ∧ v = es[k].inum.toNat ∧
        (es[k].inum ≠ 0 ∧ namecmp name es[k].nameBytes = 0) ∧
        ∀ j (hj : j < es.length), j < k → ¬(es[j].inum ≠ 0 ∧ namecmp name es[j].nameBytes = 0) := by
  have hres : ∀ r, dirlookup fs dp tDir name = some (r, fs, dp) ↔ Dir.lookup name es 0 = r := by
    intro r
    rw [dirlookup_stores hs, Option.some.injEq, Prod.mk.injEq]
    exact ⟨fun h => h.1, fun h => ⟨h, rfl⟩⟩
  refine ⟨by rw [hres, Dir.lookup_eq_none_iff], fun v off => ?_⟩
  rw [hres, Dir.lookup_eq_some_iff]
  simp only [Nat.zero_add]

/-- **`dirlink` then `dirlookup`**: in a directory without the name, `dirlink` returns `0`, and
`dirlookup` of the name then finds the new entry, with its `inum` as a `ushort`, in the first free
slot; `dirlookup` of every name that `namecmp` tells apart from it finds what it found before. -/
theorem dirlink_dirlookup (hs : Stores fs dp (Dir.bytes es)) {name : List UInt8} {inum : Nat}
    (hnew : Dir.lookup name es 0 = none) (hinum : inum % 2 ^ 16 ≠ 0)
    (hfree : 4 * direntSize ≤ freeCount fs) (hroom : direntSize * (es.length + 1) ≤ maxfile * bsize) :
    ∃ fs' dp', dirlink fs dp tDir name inum = some (0, fs', dp') ∧
      dirlookup fs' dp' tDir name = some (some (inum % 2 ^ 16, direntSize * Dir.freeSlot es), fs', dp') ∧
      ∀ name', nameKey name' ≠ nameKey name →
        (dirlookup fs' dp' tDir name').map Prod.fst = (dirlookup fs dp tDir name').map Prod.fst := by
  obtain ⟨fs', dp', hlink, hs', -⟩ := dirlink_absent hs inum hnew hfree hroom
  refine ⟨fs', dp', hlink, ?_, fun name' hne => ?_⟩
  · rw [dirlookup_stores hs', Dir.lookup_link_self hnew hinum]
  · rw [dirlookup_stores hs', dirlookup_stores hs, Option.map_some, Option.map_some,
      Dir.lookup_link_other hne]

end Stores

/-! ## 7. An empty directory -/

/-- A device of 70 blocks with only block 0 in use. -/
def dirFs : FsState := ⟨fun _ => Block.zero, fun b => decide (b = 0), 70⟩

/-- An empty inode: no blocks, size 0. -/
def emptyDir : DInode := ⟨0, fun _ => 0⟩

theorem emptyDir_stores : Stores dirFs emptyDir (Dir.bytes []) :=
  ⟨⟨⟨by decide, by decide⟩, rfl, by decide⟩, HasContent.nil _ _, rfl, by decide⟩

/-- A device of 200 blocks with only block 0 in use. -/
def dirFs200 : FsState := ⟨fun _ => Block.zero, fun b => decide (b = 0), 200⟩

theorem emptyDir_stores200 : Stores dirFs200 emptyDir (Dir.bytes []) :=
  ⟨⟨⟨by decide, by decide⟩, rfl, by decide⟩, HasContent.nil _ _, rfl, by decide⟩

set_option maxRecDepth 8192 in
/-- Two `dirlink`s into an empty directory of `dirFs200`, of `a` to inode `i` and then of `b`,
another name, to inode `j`: the directory stores the two entries in that order. -/
theorem stores_two_links {a b : List UInt8} (hab : nameKey b ≠ nameKey a) {i : Nat}
    (hi : i % 2 ^ 16 ≠ 0) (j : Nat) :
    ∃ fs dp, Stores fs dp (Dir.bytes [Dirent.ofLink a i, Dirent.ofLink b j]) := by
  have hfree : freeCount dirFs200 = 199 := by decide
  obtain ⟨fs₁, dp₁, -, hs₁, hu₁⟩ := dirlink_absent emptyDir_stores200 i
    (show Dir.lookup a [] 0 = none from rfl) (by rw [hfree]; decide) (by decide)
  rw [Dir.link_of_used (fun e he => absurd he List.not_mem_nil), List.nil_append] at hs₁
  -- the second link: `b` is not `a`, and the first link left enough free blocks
  have hnew : Dir.lookup b [Dirent.ofLink a i] 0 = none := by
    rw [Dir.lookup_cons_of_miss _ _ (Dir.miss_ofLink i hab)]
    rfl
  have hfree₁ : 4 * direntSize ≤ freeCount fs₁ := by
    have := hu₁.free
    rw [hfree] at this
    have : direntSize = 16 := rfl
    omega
  obtain ⟨fs₂, dp₂, -, hs₂, -⟩ := dirlink_absent hs₁ j hnew hfree₁
    (by rw [List.length_singleton]; decide)
  have hused : ∀ e ∈ [Dirent.ofLink a i], e.inum ≠ 0 := fun e he => by
    rw [List.mem_singleton.mp he]
    exact (Dir.hit_ofLink a hi).1
  rw [Dir.link_of_used hused] at hs₂
  exact ⟨fs₂, dp₂, hs₂⟩

/-- "a" linked to inode 5 and then "b" to inode 6 in an empty directory: `dirlookup` of "b"
passes over the entry of "a" and finds "b" in entry 1, at offset 16. -/
theorem dirlookup_first_second :
    ∃ fs dp, Stores fs dp (Dir.bytes [Dirent.ofLink [97] 5, Dirent.ofLink [98] 6]) ∧
      dirlookup fs dp tDir [98] = some (some (6, 16), fs, dp) := by
  obtain ⟨fs, dp, hs⟩ := stores_two_links (a := [97]) (b := [98]) (by decide) (i := 5) (by decide) 6
  refine ⟨fs, dp, hs, ((dirlookup_first hs [98]).2 6 16).mpr
    ⟨1, by decide, rfl, rfl, Dir.hit_ofLink [98] (by decide), fun j hj hj1 => ?_⟩⟩
  obtain rfl : j = 0 := by omega
  exact Dir.miss_ofLink 5 (by decide)

/-- Linking the name "a" to inode 5 in an empty directory. -/
theorem dirlink_dirlookup_empty :
    Stores dirFs emptyDir (Dir.bytes []) ∧ Dir.lookup [97] [] 0 = none ∧ 5 % 2 ^ 16 ≠ 0 ∧
      4 * direntSize ≤ freeCount dirFs ∧ direntSize * ([] : List Dirent).length.succ ≤ maxfile * bsize ∧
      ∃ fs' dp', dirlink dirFs emptyDir tDir [97] 5 = some (0, fs', dp') ∧
        dirlookup fs' dp' tDir [97] = some (some (5 % 2 ^ 16, direntSize * Dir.freeSlot []), fs', dp') ∧
        ∀ name', nameKey name' ≠ nameKey [97] →
          (dirlookup fs' dp' tDir name').map Prod.fst = (dirlookup dirFs emptyDir tDir name').map Prod.fst :=
  ⟨emptyDir_stores, rfl, by decide, by decide, by decide,
    dirlink_dirlookup emptyDir_stores rfl (by decide) (by decide) (by decide)⟩

end Xv6.Fs
