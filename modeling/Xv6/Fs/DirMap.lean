import Xv6.Fs.Dir

/-!
# A directory is a map from names to inode numbers

What a directory is for is the inode number each name leads to (`Dir.view`), and what `dirlink`
does to it is a map update that refuses a name the map has (`NameMap.link`). The list of entries
refines the map for a link (`view_link`); a `dirlink` on a directory that stores its entries is
that update, result included (`dirlink_step`), and so is every run of `dirlink`s
(`dirlinkRun_refines`), as long as the device has the blocks and the file the room for the entries.
-/

set_option autoImplicit false

namespace Xv6.Fs

/-! ## 1. The map, and `dirlink` called in turn -/

/-- The inode number that `dirlookup` finds for each name in these entries. -/
def Dir.view (es : List Dirent) (n : List UInt8) : Option Nat := (Dir.lookup n es 0).map Prod.fst

/-- `dirlink` on the map: a name the map has is refused with `-1`; a new one is given the inode
number, as a `ushort`, under every name that `namecmp` reads as it. -/
def NameMap.link (m : List UInt8 → Option Nat) (name : List UInt8) (inum : Nat) :
    Int × (List UInt8 → Option Nat) :=
  if (m name).isSome then (-1, m)
  else (0, fun n => if nameKey n = nameKey name then some (inum % 2 ^ 16) else m n)

/-- The map after links of these names and inode numbers in turn, with the result of each. -/
def NameMap.run (m : List UInt8 → Option Nat) :
    List (List UInt8 × Nat) → List Int × (List UInt8 → Option Nat)
  | [] => ([], m)
  | c :: cs =>
    ((NameMap.link m c.1 c.2).1 :: (NameMap.run (NameMap.link m c.1 c.2).2 cs).1,
      (NameMap.run (NameMap.link m c.1 c.2).2 cs).2)

/-- `dirlink(dp, name, inum)` called for each name and inode number in turn on a directory: the
results, or `none` at a panic. -/
def dirlinkRun : FsState → DInode → List (List UInt8 × Nat) → Option (List Int × FsState × DInode)
  | fs, dp, [] => some ([], fs, dp)
  | fs, dp, c :: cs =>
    (dirlink fs dp tDir c.1 c.2).bind fun r =>
      (dirlinkRun r.2.1 r.2.2 cs).map fun t => (r.1 :: t.1, t.2)

/-! ## 2. A link refines the map update -/

section Link

variable {name : List UInt8} {es : List Dirent} {inum : Nat}

theorem Dir.length_link_le (es : List Dirent) (de : Dirent) : (Dir.link es de).length ≤ es.length + 1 := by
  unfold Dir.link
  split_ifs
  · rw [List.length_set]
    exact Nat.le_succ _
  · rw [List.length_append, List.length_singleton]

/-- **The entries after a link of a new name are the map after the update.** -/
theorem view_link (hnew : Dir.lookup name es 0 = none) (hinum : inum % 2 ^ 16 ≠ 0) :
    Dir.view (Dir.link es (Dirent.ofLink name inum)) = (NameMap.link (Dir.view es) name inum).2 := by
  have hnone : (Dir.view es name).isSome = false := by
    rw [Dir.view, hnew]
    rfl
  funext n
  rw [NameMap.link, if_neg (by rw [hnone]; exact Bool.false_ne_true)]
  dsimp only
  by_cases hkey : nameKey n = nameKey name
  · -- a name that `namecmp` reads as the new one finds the new entry
    rw [if_pos hkey, Dir.view, Dir.lookup_congr hkey, Dir.lookup_link_self hnew hinum]
    rfl
  · rw [if_neg hkey, Dir.view, Dir.view, Dir.lookup_link_other hkey]

end Link

/-! ## 3. `dirlink` refines the map, call by call and over a run -/

section Run

variable {fs : FsState} {dp : DInode} {es : List Dirent}

/-- **One `dirlink` is the map's link**: the result it returns, and entries that the directory
then stores and whose map is the map after the link; at most one entry more, and at most the
blocks of one entry used. -/
theorem dirlink_step (hs : Stores fs dp (Dir.bytes es)) (name : List UInt8) {inum : Nat}
    (hinum : inum % 2 ^ 16 ≠ 0) (hfree : 4 * direntSize ≤ freeCount fs)
    (hroom : direntSize * (es.length + 1) ≤ maxfile * bsize) :
    ∃ fs' dp' es', dirlink fs dp tDir name inum = some ((NameMap.link (Dir.view es) name inum).1, fs', dp') ∧
      Stores fs' dp' (Dir.bytes es') ∧ Dir.view es' = (NameMap.link (Dir.view es) name inum).2 ∧
      es'.length ≤ es.length + 1 ∧ Uses (4 * direntSize) fs fs' := by
  cases hfound : Dir.lookup name es 0 with
  | some f =>
    -- a name the directory has: refused, and nothing changes
    have hsome : (Dir.view es name).isSome = true := by
      rw [Dir.view, hfound]
      rfl
    refine ⟨fs, dp, es, ?_, hs, ?_, Nat.le_succ _, Uses.refl _ fs⟩
    · rw [dirlink_present hs inum (by rw [hfound]; rfl), NameMap.link, if_pos hsome]
    · rw [NameMap.link, if_pos hsome]
  | none =>
    have hnone : (Dir.view es name).isSome = false := by
      rw [Dir.view, hfound]
      rfl
    obtain ⟨fs', dp', hlink, hs', hu⟩ := dirlink_absent hs inum hfound hfree hroom
    refine ⟨fs', dp', _, ?_, hs', view_link hfound hinum, Dir.length_link_le _ _, hu⟩
    rw [hlink, NameMap.link, if_neg (by rw [hnone]; exact Bool.false_ne_true)]

/-- **A run of `dirlink`s is the run of the map's links**: it does not panic, returns what the
map's links return, call by call, and leaves the directory storing entries whose map is the map
at the end. The device needs the blocks, and the file the room, of one entry a call. -/
theorem dirlinkRun_refines : ∀ (cs : List (List UInt8 × Nat)) {fs : FsState} {dp : DInode}
    {es : List Dirent}, Stores fs dp (Dir.bytes es) → (∀ c ∈ cs, c.2 % 2 ^ 16 ≠ 0) →
    4 * direntSize * cs.length ≤ freeCount fs → direntSize * (es.length + cs.length) ≤ maxfile * bsize →
    ∃ fs' dp' es', dirlinkRun fs dp cs = some ((NameMap.run (Dir.view es) cs).1, fs', dp') ∧
      Stores fs' dp' (Dir.bytes es') ∧ Dir.view es' = (NameMap.run (Dir.view es) cs).2
  | [], fs, dp, es, hs, _, _, _ => ⟨fs, dp, es, rfl, hs, rfl⟩
  | c :: cs, fs, dp, es, hs, hinum, hfree, hroom => by
    have hlen : (c :: cs).length = cs.length + 1 := rfl
    rw [hlen, Nat.mul_succ] at hfree
    rw [hlen] at hroom
    obtain ⟨fs₁, dp₁, es₁, hc, hs₁, hview, hlen₁, hu⟩ := dirlink_step hs c.1 (hinum c List.mem_cons_self)
      (by omega) (le_trans (Nat.mul_le_mul_left _ (by omega)) hroom)
    -- the rest of the run starts from the directory after the first call
    obtain ⟨fs', dp', es', hrun, hs', hview'⟩ := dirlinkRun_refines cs hs₁
      (fun c' hc' => hinum c' (List.mem_cons_of_mem _ hc')) (by have := hu.free; omega)
      (le_trans (Nat.mul_le_mul_left _ (by omega)) hroom)
    refine ⟨fs', dp', es', ?_, hs', ?_⟩
    · rw [dirlinkRun, hc, Option.bind_some]
      dsimp only
      rw [hrun, Option.map_some, NameMap.run, ← hview]
    · rw [hview', NameMap.run, ← hview]

end Run

/-! ## 4. Three links into an empty directory -/

set_option maxRecDepth 8192 in
/-- "a" to inode 5, "b" to inode 6, and "a" again to inode 7, which is refused. -/
theorem dirlinkRun_refines_a_b_a :
    Stores dirFs200 emptyDir (Dir.bytes []) ∧
      (∀ c ∈ [([(97 : UInt8)], 5), ([98], 6), ([97], 7)], c.2 % 2 ^ 16 ≠ 0) ∧
      4 * direntSize * 3 ≤ freeCount dirFs200 ∧ direntSize * (0 + 3) ≤ maxfile * bsize ∧
      ∃ fs' dp' es', dirlinkRun dirFs200 emptyDir [([97], 5), ([98], 6), ([97], 7)] =
          some ((NameMap.run (Dir.view []) [([97], 5), ([98], 6), ([97], 7)]).1, fs', dp') ∧
        Stores fs' dp' (Dir.bytes es') ∧
        Dir.view es' = (NameMap.run (Dir.view []) [([97], 5), ([98], 6), ([97], 7)]).2 :=
  ⟨emptyDir_stores200, by decide, by decide, by decide,
    dirlinkRun_refines _ emptyDir_stores200 (by decide) (by decide) (by decide)⟩

example : (NameMap.run (Dir.view []) [([97], 5), ([98], 6), ([97], 7)]).1 = [0, 0, -1] := by decide

end Xv6.Fs
